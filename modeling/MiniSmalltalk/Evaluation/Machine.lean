import MiniSmalltalk.Evaluation.Fault
import MiniSmalltalk.Object.Heap
import MiniSmalltalk.Report.Notice
import MiniSmalltalk.Report.Transcript

/-! # The machine

What an evaluation reads and changes: the frames, the count of blocks made so far, the
transcript and the notices. An evaluation that stops leaves behind what it had done. -/

namespace MiniSmalltalk

structure Machine where
  heap : Heap
  blocks : Nat
  transcript : Transcript
  notices : List Notice

/-- Why an evaluation gives no value: a fault, or nesting beyond the depth allowed. -/
inductive Halt where
  | fault (fault : RuntimeFault)
  | tooDeep
  deriving DecidableEq

abbrev Eval := EStateM Halt Machine

namespace Machine

def empty : Machine := ⟨.empty, 0, .empty, []⟩

/-- Adds a frame with bindings and gives its number. -/
def pushFrame (machine : Machine) (parent : Option FrameId) (bindings : Bindings) :
    FrameId × Machine :=
  (machine.heap.size, { machine with heap := machine.heap.push ⟨parent, bindings⟩ })

/-- A machine with a single root frame, which has the number zero. -/
def initial : Machine := (empty.pushFrame none []).2

/-- The same frames and blocks, with nothing shown and nothing remarked. -/
def quiet (machine : Machine) : Machine :=
  { machine with transcript := .empty, notices := [] }

end Machine

/-- What a frame is made for: the call of a block or, for a root frame, no block at all. -/
abbrev Origin := Option Block

/-- What evaluations run on: something that can touch a machine and make frames, and that may
keep what the frames are made for. -/
class Stage (m : Type → Type) where
  touch {α : Type} : Eval α → m α
  newFrame : Origin → Bindings → m FrameId

namespace Eval

def newFrame (parent : Option FrameId) (bindings : Bindings) : Eval FrameId :=
  modifyGet fun machine => machine.pushFrame parent bindings

def assign (frame : FrameId) (name : String) (value : Value) : Eval Binding :=
  modifyGet fun machine =>
    let (binding, heap) := machine.heap.set frame name value
    (binding, { machine with heap })

def isRoot (frame : FrameId) : Eval Bool := do
  let machine ← get
  return machine.heap.isRoot frame

def remark (notice : Notice) : Eval Unit :=
  modify fun machine => { machine with notices := machine.notices ++ [notice] }

/-- The machine itself. The parent of a frame is all that is left of what it was made for. -/
instance stage : Stage Eval where
  touch action := action
  newFrame origin bindings := newFrame (origin.map Block.frame) bindings

/-! ### On any stage -/

variable {m : Type → Type} [Stage m] {α : Type}

def halt (halt : Halt) : m α := Stage.touch (throw halt)

def fail (cause : RuntimeCause) (span : Span) : m α := halt (.fault ⟨cause, span⟩)

def lookup (frame : FrameId) (name : String) : m (Option Value) :=
  Stage.touch do
    let machine ← get
    return machine.heap.get? frame name

/-- Assigns to a name as seen from a frame. A binding that has to be made is remarked on, except
in a root frame. -/
def store (frame : FrameId) (name : String) (span : Span) (value : Value) : m Unit :=
  Stage.touch do
    let binding ← assign frame name value
    let root ← isRoot frame
    if binding = .created ∧ root = false then remark (.implicitDeclaration name span)

/-- The value of a block literal, which no other evaluation shares. -/
def newBlock (node : Node) (frame : FrameId) : m Value :=
  Stage.touch <| modifyGet fun machine =>
    (.block (.ofNode node frame machine.blocks), { machine with blocks := machine.blocks + 1 })

def display (text : String) : m Unit :=
  Stage.touch <| modify fun machine =>
    { machine with transcript := machine.transcript.append text }

/-- The frame given, or a root frame of its own. -/
def frameOrNew [Monad m] : Option FrameId → m FrameId
  | some frame => pure frame
  | none => Stage.newFrame none []

end Eval

end MiniSmalltalk
