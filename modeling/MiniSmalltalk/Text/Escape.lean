import MiniSmalltalk.Text.Mark
import MiniSmalltalk.Text.Printable

/-! # Escaped characters

Reports name a single character. One that could not be told apart in running text is
written as an escape. -/

namespace MiniSmalltalk.Text

/-- The code point of a character in hexadecimal, between braces. -/
def codePoint (c : Char) : String :=
  "\\u\x7b" ++ String.ofList (Nat.toDigits 16 c.toNat) ++ "\x7d"

/-- A character as reports show it. -/
def escape (c : Char) : String :=
  if c = '\x00' then "\\0"
  else if c = '\t' then "\\t"
  else if c = '\r' then "\\r"
  else if c = '\n' then "\\n"
  else if c = '\x27' || c = '\x22' || c = '\\' then String.ofList ['\\', c]
  else if isCombining c || !isPrintable c then codePoint c
  else String.singleton c

end MiniSmalltalk.Text
