import MiniSmalltalk.Evaluation.Tree
import MiniSmalltalk.Grammar.Program
import MiniSmalltalk.Report.Warning

/-! # Interpretation

A source is parsed and its program evaluated. What follows the program is remarked on and
ignored. -/

namespace MiniSmalltalk

inductive Outcome where
  | value (value : Value)
  | failure (failure : Failure)
  /-- The program nests deeper than allowed. -/
  | tooDeep

/-- The outcome for a source, and the machine afterwards. The machine's transcript and notices
are those of this interpretation alone. -/
structure Interpretation where
  file : SourceFile
  outcome : Outcome
  machine : Machine

namespace Interpretation

/-- The notices of an interpretation as warnings on its source. -/
def warnings (interpretation : Interpretation) : List Warning :=
  interpretation.machine.notices.map fun notice => ⟨interpretation.file, notice⟩

def transcript (interpretation : Interpretation) : String :=
  interpretation.machine.transcript.contents

/-- An interpretation whose output has gone to a sink. -/
def sentTo (interpretation : Interpretation) : Sink → Interpretation
  | .recording => interpretation
  | .silent => { interpretation with machine := interpretation.machine.quiet }

end Interpretation

/-- The notice that tokens were left over. It reaches from the first of them to the end of the
source. -/
def unparsedNotices (source : String) (parsed : Parsed) : List Notice :=
  match parsed.rest with
  | [] => []
  | first :: _ => [.unparsedInput ⟨first.span.start, source.utf8ByteSize⟩]

def interpret (depth : Nat) (file : SourceFile) (frame : FrameId) (machine : Machine) :
    Interpretation :=
  match parseProgram file.text with
  | .error fault => ⟨file, .failure ⟨file, .ofSyntax fault⟩, machine.quiet⟩
  | .ok parsed =>
      let ready := { machine.quiet with notices := unparsedNotices file.text parsed }
      match evaluate depth parsed.program (some frame) ready with
      | .ok value machine => ⟨file, .value value, machine⟩
      | .error (.fault fault) machine => ⟨file, .failure ⟨file, .runtime fault⟩, machine⟩
      | .error .tooDeep machine => ⟨file, .tooDeep, machine⟩

/-- Interprets a source without path in a fresh root frame. -/
def run (depth : Nat) (source : String) : Interpretation :=
  interpret depth ⟨"", source⟩ 0 .initial

end MiniSmalltalk
