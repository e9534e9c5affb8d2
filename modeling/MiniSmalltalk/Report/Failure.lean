import MiniSmalltalk.Evaluation.Fault
import MiniSmalltalk.Grammar.Fault

/-! # Failures

A fault together with the source it concerns. -/

namespace MiniSmalltalk

/-- A source and the path it is known by. -/
structure SourceFile where
  path : String
  text : String
  deriving DecidableEq, Inhabited

/-- The phase in which a source failed, and its fault. -/
inductive FailureCause where
  | lexical (fault : LexicalFault)
  | grammatical (fault : SyntaxFault)
  | runtime (fault : RuntimeFault)
  deriving DecidableEq

structure Failure where
  file : SourceFile
  cause : FailureCause
  deriving DecidableEq

namespace FailureCause

/-- A syntax fault that is a lexical one belongs to the lexical phase. -/
def ofSyntax (fault : SyntaxFault) : FailureCause :=
  match fault.cause with
  | .lexical inner => .lexical inner
  | _ => .grammatical fault

def summary : FailureCause → String
  | lexical _ => "failed to tokenize source code"
  | grammatical _ => "failed to parse source code"
  | runtime _ => "evaluation failed"

def wording : FailureCause → Wording
  | lexical fault => fault.wording
  | grammatical fault => fault.wording
  | runtime fault => fault.wording

end FailureCause

end MiniSmalltalk
