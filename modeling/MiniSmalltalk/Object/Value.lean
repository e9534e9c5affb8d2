import MiniSmalltalk.Number.Positional
import MiniSmalltalk.Text.Quoted
import MiniSmalltalk.Tree.Outline

/-! # Values

A run-time value is nil, a string, a number or a block. -/

namespace MiniSmalltalk

/-- Frames are known by their number, in the order in which they were made. -/
abbrev FrameId := Nat

/-- A block and the frame in which it was evaluated. Each evaluation of a block gives a value
with an identity of its own. -/
structure Block where
  arguments : List String
  temporaries : List String
  body : Option Node
  frame : FrameId
  span : Span
  identity : Nat

inductive Value where
  | nil
  | string (text : String)
  | number (value : Float)
  | block (block : Block)

inductive ValueKind where
  | nil
  | string
  | number
  | block
  deriving DecidableEq

def ValueKind.literal : ValueKind → String
  | nil => "nil"
  | string => "String"
  | number => "Number"
  | block => "BlockClosure"

namespace Block

/-- The names in the child slots of a declaration. -/
def names (declaration : Node) : List String :=
  declaration.children.filterMap fun slot => slot.map Node.textOrEmpty

def lastOfKind (kind : Kind) (children : List Node) : Option Node :=
  children.reverse.find? fun child => child.kind == kind

/-- Whether a child of a block belongs to its body rather than to its declarations. -/
def isBody (child : Node) : Bool :=
  child.kind != .blockArguments && child.kind != .temporaries

/-- The value of a block literal evaluated in a frame. Where a part is given several times
the last one counts. -/
def ofNode (node : Node) (frame : FrameId) (identity : Nat) : Block :=
  let children := node.children.filterMap id
  { arguments := ((lastOfKind .blockArguments children).map names).getD []
    temporaries := ((lastOfKind .temporaries children).map names).getD []
    body := children.reverse.find? isBody
    frame := frame
    span := node.span
    identity := identity }

def arity (block : Block) : Nat := block.arguments.length

def inspectNames (names : List String) : String :=
  "[" ++ ", ".intercalate (names.map fun name => "\"" ++ name ++ "\"") ++ "]"

/-- A block in one line: its declarations and where it was written. -/
def inspect (block : Block) : String :=
  "Closure \x7b arguments: " ++ inspectNames block.arguments ++
    ", temporaries: " ++ inspectNames block.temporaries ++
    ", location: SrcSpan \x7b start: " ++ toString block.span.start ++
    ", end: " ++ toString block.span.stop ++ " \x7d, .. \x7d"

end Block

namespace Value

def kind : Value → ValueKind
  | nil => .nil
  | string _ => .string
  | number _ => .number
  | block _ => .block

def isNil : Value → Bool
  | nil => true
  | _ => false

def display : Value → String
  | nil => "nil"
  | string text => text
  | number value => Number.toText value
  | block _ => "a BlockClosure"

/-- The text that a value prints. A string is quoted, everything else is shown. -/
def print : Value → String
  | string text => Text.Quoted.quote text
  | value => value.display

/-- Whether two values are equal. Blocks are equal if they come from the same evaluation, and
numbers as doubles are, so one that is not a number differs from itself. -/
def same : Value → Value → Bool
  | nil, nil => true
  | string a, string b => a == b
  | number a, number b => a == b
  | block a, block b => a.identity == b.identity
  | _, _ => false

end Value

end MiniSmalltalk
