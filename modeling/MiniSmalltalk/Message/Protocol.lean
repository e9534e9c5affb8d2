import MiniSmalltalk.Object.Value

/-! # Protocols

The operations that each class of values understands. -/

namespace MiniSmalltalk

def ValueKind.operations : ValueKind → List String
  | nil => []
  | string => ["concat", "printNl", "displayNl", "printString", "size"]
  | number =>
      ["add", "subtract", "multiply", "divide", "printNl", "displayNl", "printString", "negated"]
  | block =>
      ["value", "value_", "value_value_", "value_value_value_", "valueWithArguments_", "numArgs"]

def Value.respondsTo (value : Value) (operation : String) : Bool :=
  value.kind.operations.contains operation

end MiniSmalltalk
