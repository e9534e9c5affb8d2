import MiniSmalltalk.Evaluation.Message
import MiniSmalltalk.Message.Protocol
import MiniSmalltalk.Message.Selector
import MiniSmalltalk.Number.Literal

/-! # Evaluating trees

Every part of the evaluator takes the evaluation of the nodes inside as an argument, and `upTo`
closes the circle. It stops at a depth given beforehand, because a block may call itself without
end. The evaluator runs on any stage; `evaluate` is what it does on the machine itself. -/

namespace MiniSmalltalk

/-- An evaluation of nodes in frames on a stage. -/
abbrev EvaluatorOn (m : Type → Type) := Node → FrameId → m Value

abbrev Evaluator := EvaluatorOn Eval

namespace Evaluator

variable {m : Type → Type} [Monad m] [Stage m]

/-- The node in a slot that must not be empty. -/
def required (slot : Option Node) (span : Span) : m Node :=
  match slot with
  | some node => return node
  | none => Eval.fail (.unexpectedNode none) span

/-- Evaluates statements in order; the value of the last one counts, and an empty slot counts
as nil. -/
def statements (eval : EvaluatorOn m) (frame : FrameId) (last : Value) :
    List (Option Node) → m Value
  | [] => return last
  | none :: slots => statements eval frame .nil slots
  | some node :: slots => do
      let value ← eval node frame
      statements eval frame value slots

/-- Evaluates arguments from left to right. -/
def arguments (eval : EvaluatorOn m) (frame : FrameId) (span : Span) :
    List (Option Node) → m (List Value)
  | [] => return []
  | slot :: slots => do
      let node ← required slot span
      let value ← eval node frame
      let values ← arguments eval frame span slots
      return value :: values

def isMessage (node : Node) : Bool :=
  node.kind == .identifier || node.kind == .binary || node.kind == .keyword

/-- Sends a message. The receiver has to understand it before any argument is evaluated. -/
def send (eval : EvaluatorOn m) (frame : FrameId) (receiver : Value) (node : Node) : m Value :=
  if isMessage node then
    let selector := node.textOrEmpty
    let operation := operationName selector
    if receiver.respondsTo operation then do
      let values ← arguments eval frame node.span node.children
      Message.performWith eval receiver ⟨selector, operation, values, node.span⟩
    else Eval.fail (.noSuchOperation selector operation receiver.kind) node.span
  else Eval.fail (.unexpectedNode (some node.kind)) node.span

/-- Sends the messages of a run, each to the value of the one before. Gives the last value and
the receiver of the last message, which is `previous` for a run without messages. -/
def sendRun (eval : EvaluatorOn m) (frame : FrameId) (span : Span) (receiver previous : Value) :
    List (Option Node) → m (Value × Value)
  | [] => return (receiver, previous)
  | slot :: slots => do
      let node ← required slot span
      let value ← send eval frame receiver node
      sendRun eval frame span value receiver slots

def requiredRun (slot : Option Node) (span : Span) : m Node :=
  match slot with
  | none => Eval.fail (.unexpectedNode none) span
  | some node =>
      if node.kind == .messages then return node
      else Eval.fail (.unexpectedNode (some node.kind)) node.span

/-- Sends cascaded runs, every one to the same receiver. -/
def cascades (eval : EvaluatorOn m) (frame : FrameId) (span : Span) (receiver last : Value) :
    List (Option Node) → m Value
  | [] => return last
  | slot :: slots => do
      let run ← requiredRun slot span
      let (value, _) ← sendRun eval frame run.span receiver receiver run.children
      cascades eval frame span receiver value slots

/-- Sends the runs of an expression. The cascaded runs go to the receiver of the last message
of the first run. -/
def runs (eval : EvaluatorOn m) (frame : FrameId) (span : Span) (receiver : Value) :
    List (Option Node) → m Value
  | [] => return receiver
  | slot :: slots => do
      let run ← requiredRun slot span
      let (value, last) ← sendRun eval frame run.span receiver receiver run.children
      cascades eval frame span last value slots

/-- Evaluates an expression: its receiver, which must not be nil, and the runs sent to it. -/
def expression (eval : EvaluatorOn m) (node : Node) (frame : FrameId) : m Value := do
  let primary ← required (node.child? 0) node.span
  let receiver ← eval primary frame
  if receiver.isNil then Eval.fail (.unresolvedPrimary primary.describe) primary.span
  else runs eval frame node.span receiver (node.children.drop 1)

def assignment (eval : EvaluatorOn m) (node : Node) (frame : FrameId) : m Value := do
  let target ← required (node.child? 0) node.span
  let source ← required (node.child? 1) node.span
  let value ← eval source frame
  Eval.store frame target.textOrEmpty target.span value
  return value

def reference (node : Node) (frame : FrameId) : m Value := do
  match ← Eval.lookup frame node.textOrEmpty with
  | some value => return value
  | none => Eval.fail (.undefinedVariable node.textOrEmpty) node.span

def integer (node : Node) : m Value :=
  match Number.literal? node.textOrEmpty with
  | some value => return .number value
  | none => Eval.fail (.invalidNumber node.textOrEmpty) node.span

/-- Evaluates a node, given the evaluation of the nodes inside. -/
def step (eval : EvaluatorOn m) : EvaluatorOn m := fun node frame =>
  match node.kind with
  | .statements => statements eval frame .nil node.children
  | .expression => expression eval node frame
  | .assignment => assignment eval node frame
  | .answer => do
      let inner ← required (node.child? 0) node.span
      eval inner frame
  | .identifier => reference node frame
  | .string => return .string node.textOrEmpty
  | .integer => integer node
  | .block => Eval.newBlock node frame
  | kind => Eval.fail (.unexpectedNode (some kind)) node.span

/-- Evaluates a node that nests at most `depth` deep, the bodies of the blocks it calls
included. -/
def upTo : Nat → EvaluatorOn m
  | 0 => fun _ _ => Eval.halt .tooDeep
  | depth + 1 => step (upTo depth)

end Evaluator

/-- Evaluates a tree by an evaluator, in a frame or in a root frame of its own if none is given.
An absent tree is nil. -/
def evaluateBy {m : Type → Type} [Monad m] [Stage m] (eval : EvaluatorOn m) (tree : Option Node)
    (frame : Option FrameId) : m Value := do
  let frame ← Eval.frameOrNew frame
  match tree with
  | some node => eval node frame
  | none => return .nil

/-- Evaluates a node on the machine itself. -/
def evalUpTo (depth : Nat) : Evaluator := Evaluator.upTo depth

theorem evalUpTo_succ (depth : Nat) : evalUpTo (depth + 1) = Evaluator.step (evalUpTo depth) := rfl

def evaluate (depth : Nat) (tree : Option Node) (frame : Option FrameId) : Eval Value :=
  evaluateBy (evalUpTo depth) tree frame

def perform (depth : Nat) (receiver : Value) (message : Message) : Eval Value :=
  message.performWith (evalUpTo depth) receiver

end MiniSmalltalk
