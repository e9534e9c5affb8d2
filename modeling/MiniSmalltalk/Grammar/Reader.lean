import MiniSmalltalk.Grammar.Fault
import MiniSmalltalk.Token.Stream

/-! # Reading by the grammar

A reader consumes tokens from a stream or fails. What it had consumed by then stays
consumed. Productions look ahead by reading a token and giving it back. -/

namespace MiniSmalltalk.Grammar

/-- A computation on a token stream that may end in a syntax fault. -/
abbrev Reader := EStateM SyntaxFault TokenStream

/-- A production gives the node it matched. If there is none, it has given back every
token it read. -/
abbrev Production := Reader (Option Node)

/-- A step of the stream itself, its faults seen by the grammar. -/
def lift {α : Type} (step : EStateM LexicalFault TokenStream α) : Reader α := fun s =>
  match step s with
  | .ok value s => .ok value s
  | .error fault s => .error (.ofLexical fault) s

def read : Production := lift TokenStream.read

def unread (token : Option Node) : Reader Unit := lift (TokenStream.unread token)

/-- The next token if it passes a test; otherwise it is given back. -/
def acceptIf (test : Node → Bool) : Production := do
  match ← read with
  | some token =>
      if test token then return some token
      else
        unread (some token)
        return none
  | none => return none

def isKind (kind : Kind) (token : Node) : Bool := token.kind == kind

def isBinary (text : String) (token : Node) : Bool :=
  token.kind == .binary && token.textOrEmpty == text

def accept (kind : Kind) : Production := acceptIf (isKind kind)

def acceptBinary (text : String) : Production := acceptIf (isBinary text)

/-- Fails because of the token found, which stays in the stream, or because the source is
at its end. -/
def unexpected {α : Type} (expected : String) : Option Node → Reader α
  | some token => do
      unread (some token)
      throw ⟨.unexpectedToken expected token.describe, token.span⟩
  | none => do
      let s ← get
      throw ⟨.unexpectedEnd expected, .point s.offset⟩

def expectIf (test : Node → Bool) (expected : String) : Reader Node := do
  match ← read with
  | some token => if test token then return token else unexpected expected (some token)
  | none => unexpected expected none

def expect (kind : Kind) (expected : String) : Reader Node := expectIf (isKind kind) expected

def expectBinary (text expected : String) : Reader Node := expectIf (isBinary text) expected

def missingExpression {α : Type} (after : Node) : Reader α :=
  throw ⟨.missingExpression after.describe, after.span⟩

/-- A token of a kind and what has to follow it, joined to one value. The token is given back
if it is not followed so. -/
def followedBy {α β : Type} (kind : Kind) (rest : Reader (Option α)) (join : Node → α → β) :
    Reader (Option β) := do
  match ← accept kind with
  | none => return none
  | some token =>
      match ← rest with
      | some part => return some (join token part)
      | none =>
          unread (some token)
          return none

/-- Repeats a reader until it gives nothing, at most `limit` times. -/
def many {α : Type} (item : Reader (Option α)) : Nat → Reader (List α)
  | 0 => return []
  | limit + 1 => do
      match ← item with
      | none => return []
      | some first =>
          let others ← many item limit
          return first :: others

end MiniSmalltalk.Grammar
