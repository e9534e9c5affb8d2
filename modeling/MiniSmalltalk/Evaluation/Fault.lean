import MiniSmalltalk.Object.Value
import MiniSmalltalk.Report.Wording

/-! # Run-time faults -/

namespace MiniSmalltalk

/-- Why an evaluation failed. -/
inductive RuntimeCause where
  | undefinedVariable (name : String)
  | noSuchOperation (selector operation : String) (receiver : ValueKind)
  | argumentType (selector : String) (expected got : ValueKind)
  | argumentCount (expected got : Nat)
  /-- The receiver of an expression is nil. -/
  | unresolvedPrimary (primary : String)
  /-- A node stands where it cannot be evaluated, or one is missing. -/
  | unexpectedNode (kind : Option Kind)
  | invalidNumber (text : String)
  deriving DecidableEq

structure RuntimeFault where
  cause : RuntimeCause
  span : Span
  deriving DecidableEq

def RuntimeCause.wording : RuntimeCause → Wording
  | undefinedVariable name =>
      ⟨"Undefined variable", [s!"`{name}` is not bound in any enclosing scope"]⟩
  | noSuchOperation selector operation receiver =>
      ⟨"No such operation",
        [s!"{receiver.literal} does not understand `{selector}` ({operation})"]⟩
  | argumentType selector expected got =>
      ⟨"Wrong argument type",
        [s!"`{selector}` expects a {expected.literal} argument but got {got.literal}"]⟩
  | argumentCount expected got =>
      ⟨"Wrong number of arguments",
        [s!"The block takes {expected} argument(s) but was given {got}"]⟩
  | unresolvedPrimary primary => ⟨"Unresolved receiver", [s!"{primary} evaluated to nil"]⟩
  | unexpectedNode (some kind) =>
      ⟨"Can not evaluate this", [s!"{kind.literal} is not an evaluable node"]⟩
  | unexpectedNode none => ⟨"Can not evaluate this", ["A required node is missing"]⟩
  | invalidNumber text => ⟨"Invalid number", [s!"`{text}` does not fit in a 64 bit integer"]⟩

def RuntimeFault.wording (fault : RuntimeFault) : Wording := fault.cause.wording

end MiniSmalltalk
