import MiniSmalltalk.Token.Fault

/-! # Syntax faults -/

namespace MiniSmalltalk

/-- Why a source is not a program. -/
inductive SyntaxCause where
  | unexpectedToken (expected found : String)
  | unexpectedEnd (expected : String)
  | missingExpression (after : String)
  /-- Only nodes without children can be given back. -/
  | compositePushback (kind : Kind)
  /-- No token could be read. -/
  | lexical (fault : LexicalFault)
  deriving DecidableEq

structure SyntaxFault where
  cause : SyntaxCause
  span : Span
  deriving DecidableEq

def SyntaxCause.wording : SyntaxCause → Wording
  | unexpectedToken expected found =>
      ⟨"Not expected this", [s!"Expected {expected} but found {found}"]⟩
  | unexpectedEnd expected => ⟨"Unexpected end of file", [s!"Expected {expected}"]⟩
  | missingExpression after => ⟨"Missing expression", [s!"Expected an expression after {after}"]⟩
  | compositePushback kind => (LexicalCause.compositePushback kind).wording
  | lexical fault => fault.wording

namespace SyntaxFault

def wording (fault : SyntaxFault) : Wording := fault.cause.wording

def isEnd (fault : SyntaxFault) : Bool :=
  match fault.cause with
  | .unexpectedEnd _ => true
  | _ => false

/-- A lexical fault seen by the grammar. A refused node keeps a cause of its own. -/
def ofLexical (fault : LexicalFault) : SyntaxFault :=
  match fault.cause with
  | .compositePushback kind => ⟨.compositePushback kind, fault.span⟩
  | _ => ⟨.lexical fault, fault.span⟩

end SyntaxFault

end MiniSmalltalk
