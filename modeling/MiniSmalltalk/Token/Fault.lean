import MiniSmalltalk.Report.Wording
import MiniSmalltalk.Text.Escape
import MiniSmalltalk.Tree.Node

/-! # Lexical faults -/

namespace MiniSmalltalk

/-- Why no token could be read, or given back. -/
inductive LexicalCause where
  /-- No token begins with this character. -/
  | unknownCharacter (character : Char)
  | unterminatedString
  | unterminatedComment
  | unexpectedEnd
  /-- Only nodes without children can be given back. -/
  | compositePushback (kind : Kind)
  deriving DecidableEq

/-- A cause, the text it concerns and the line and column reading had come to. -/
structure LexicalFault where
  cause : LexicalCause
  span : Span
  line : UInt32
  column : UInt32
  deriving DecidableEq

def LexicalCause.wording : LexicalCause → Wording
  | unknownCharacter c => ⟨"Unknown character", ["`" ++ Text.escape c ++ "` cannot start a token"]⟩
  | unterminatedString => ⟨"Unterminated string", ["Missing closing `'`"]⟩
  | unterminatedComment => ⟨"Unterminated comment", ["Missing closing `\"`"]⟩
  | unexpectedEnd => ⟨"Unexpected end of file", []⟩
  | compositePushback kind =>
      ⟨"Can not push back a composed node", ["`" ++ kind.name ++ "` has children"]⟩

def LexicalFault.wording (fault : LexicalFault) : Wording := fault.cause.wording

end MiniSmalltalk
