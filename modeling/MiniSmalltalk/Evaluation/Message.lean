import MiniSmalltalk.Evaluation.Machine

/-! # Performing messages

A message whose arguments are values is performed by its receiver, on any stage. Running the body
of a block is left to an argument, because bodies are trees and trees send messages. -/

namespace MiniSmalltalk

/-- A message as it reaches its receiver. -/
structure Message where
  selector : String
  operation : String
  arguments : List Value
  span : Span

namespace Message

variable {m : Type → Type} [Monad m] [Stage m]

def notUnderstood {α : Type} (message : Message) (receiver : Value) : m α :=
  Eval.fail (.noSuchOperation message.selector message.operation receiver.kind) message.span

def expectCount (message : Message) (expected : Nat) : m Unit :=
  if message.arguments.length = expected then return ()
  else Eval.fail (.argumentCount expected message.arguments.length) message.span

def wrongType {α : Type} (message : Message) (expected : ValueKind) (got : Value) : m α :=
  Eval.fail (.argumentType message.selector expected got.kind) message.span

/-- The only argument, which has to be a number. -/
def numberArgument (message : Message) : m Float :=
  match message.arguments with
  | [.number value] => return value
  | [other] => message.wrongType .number other
  | several => Eval.fail (.argumentCount 1 several.length) message.span

/-- The only argument, which has to be a string. -/
def stringArgument (message : Message) : m String :=
  match message.arguments with
  | [.string text] => return text
  | [other] => message.wrongType .string other
  | several => Eval.fail (.argumentCount 1 several.length) message.span

/-- Performs a message sent to a string. Printing shows the text without its ticks. -/
def performString (message : Message) (text : String) : m Value :=
  match message.operation with
  | "concat" => do
      let other ← message.stringArgument
      return .string (text ++ other)
  | "printNl" | "displayNl" => do
      message.expectCount 0
      Eval.display text
      return .string text
  | "printString" => do
      message.expectCount 0
      return .string (Value.string text).print
  | "size" => do
      message.expectCount 0
      return .number (Float.ofNat text.length)
  | _ => message.notUnderstood (.string text)

def performNumber (message : Message) (value : Float) : m Value :=
  match message.operation with
  | "add" => do
      let other ← message.numberArgument
      return .number (value + other)
  | "subtract" => do
      let other ← message.numberArgument
      return .number (value - other)
  | "multiply" => do
      let other ← message.numberArgument
      return .number (value * other)
  | "divide" => do
      let other ← message.numberArgument
      return .number (value / other)
  | "negated" => do
      message.expectCount 0
      return .number (-value)
  | "printNl" | "displayNl" => do
      message.expectCount 0
      Eval.display (Value.number value).display
      return .number value
  | "printString" => do
      message.expectCount 0
      return .string (Value.number value).print
  | _ => message.notUnderstood (.number value)

/-- The bindings of the frame in which a block runs: temporaries start out as nil, and
arguments are bound by position. -/
def callBindings (block : Block) (arguments : List Value) : Bindings :=
  Bindings.bindAll []
    (block.temporaries.map (fun name => (name, Value.nil)) ++ block.arguments.zip arguments)

/-- Runs a block in a fresh frame whose parent is the frame in which it was evaluated. -/
def call (run : Node → FrameId → m Value) (block : Block) (arguments : List Value)
    (span : Span) : m Value :=
  if arguments.length = block.arity then do
    let frame ← Stage.newFrame (some block) (callBindings block arguments)
    match block.body with
    | some body => run body frame
    | none => return .nil
  else Eval.fail (.argumentCount block.arity arguments.length) span

def performBlock (run : Node → FrameId → m Value) (message : Message) (block : Block) : m Value :=
  match message.operation with
  | "value" | "value_" | "value_value_" | "value_value_value_" | "valueWithArguments_" =>
      call run block message.arguments message.span
  | "numArgs" => do
      message.expectCount 0
      return .number (Float.ofNat block.arity)
  | _ => message.notUnderstood (.block block)

def performWith (run : Node → FrameId → m Value) (receiver : Value) (message : Message) : m Value :=
  match receiver with
  | .nil => message.notUnderstood .nil
  | .string text => message.performString text
  | .number value => message.performNumber value
  | .block block => message.performBlock run block

end Message

end MiniSmalltalk
