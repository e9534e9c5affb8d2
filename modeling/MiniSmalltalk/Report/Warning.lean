import MiniSmalltalk.Report.Failure
import MiniSmalltalk.Report.Notice
import MiniSmalltalk.Report.Sink

/-! # Warnings

A warning is a notice together with the source it concerns. Emitters count the warnings that
pass through them and put them into a log, or drop them. -/

namespace MiniSmalltalk

structure Warning where
  file : SourceFile
  notice : Notice
  deriving DecidableEq

/-- Warnings in the order in which they were emitted. -/
structure WarningLog where
  entries : List Warning

namespace WarningLog

def empty : WarningLog := ⟨[]⟩

def push (log : WarningLog) (warning : Warning) : WarningLog := ⟨log.entries ++ [warning]⟩

def pop (log : WarningLog) : Option Warning × WarningLog :=
  (log.entries.getLast?, ⟨log.entries.dropLast⟩)

def take (log : WarningLog) : List Warning × WarningLog := (log.entries, empty)

end WarningLog

/-- Counts warnings on their way to a sink. -/
structure Emitter where
  sink : Sink
  count : Nat

namespace Emitter

def new (sink : Sink) : Emitter := ⟨sink, 0⟩

/-- Emits a warning. A silent emitter counts it too. -/
def emit (emitter : Emitter) (warning : Warning) (log : WarningLog) : Emitter × WarningLog :=
  ({ emitter with count := emitter.count + 1 },
    match emitter.sink with
    | .recording => log.push warning
    | .silent => log)

def resetCount (emitter : Emitter) : Emitter := { emitter with count := 0 }

end Emitter

/-- An emitter for the notices on one source. -/
structure SourceEmitter where
  file : SourceFile
  emitter : Emitter

namespace SourceEmitter

/-- An emitter whose warnings are counted and dropped. -/
def null : SourceEmitter := ⟨⟨"", ""⟩, .new .silent⟩

def count (emitter : SourceEmitter) : Nat := emitter.emitter.count

def emit (emitter : SourceEmitter) (notice : Notice) (log : WarningLog) :
    SourceEmitter × WarningLog :=
  let (counted, log) := emitter.emitter.emit ⟨emitter.file, notice⟩ log
  ({ emitter with emitter := counted }, log)

end SourceEmitter

end MiniSmalltalk
