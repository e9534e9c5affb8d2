import MiniSmalltalk.Source.Span

/-! # Notices

What evaluation remarks about a program without failing. -/

namespace MiniSmalltalk

inductive Notice where
  /-- An assignment in a block found no binding and made one in the frame of the block. -/
  | implicitDeclaration (name : String) (span : Span)
  /-- The program ended before the source did. -/
  | unparsedInput (span : Span)
  deriving DecidableEq

def Notice.span : Notice → Span
  | implicitDeclaration _ span => span
  | unparsedInput span => span

end MiniSmalltalk
