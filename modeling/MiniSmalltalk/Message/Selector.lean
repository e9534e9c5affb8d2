/-! # Selectors and operations

A selector is what a message is written with, an operation the name under which values
answer it. -/

namespace MiniSmalltalk

/-- The operation of a selector: a few binary selectors have names, and colons become
underscores. -/
def operationName (selector : String) : String :=
  match selector with
  | "+" => "add"
  | "-" => "subtract"
  | "*" => "multiply"
  | "/" => "divide"
  | "," => "concat"
  | other => String.ofList (other.toList.map fun c => if c = ':' then '_' else c)

end MiniSmalltalk
