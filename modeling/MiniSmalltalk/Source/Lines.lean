import MiniSmalltalk.Source.Position
import MiniSmalltalk.Text.CharTable

/-! # Lines of a source

Lines begin at the start of a source and behind every newline. -/

namespace MiniSmalltalk

/-- A line with the byte offset at which it begins; its newline belongs to it. -/
structure SourceLine where
  start : Nat
  characters : List Char

namespace SourceLine

/-- The lines of a text that begins at an offset. There is always at least one. -/
def split (start : Nat) : List Char → SourceLine × List SourceLine
  | [] => (⟨start, []⟩, [])
  | c :: cs =>
      let (next, others) := split (start + c.utf8Size) cs
      if c = '\n' then (⟨start, [c]⟩, next :: others)
      else (⟨start, c :: next.characters⟩, others)

def ofString (source : String) : List SourceLine :=
  let (first, others) := split 0 source.toList
  first :: others

/-- Whether a character at the end of a line is left out when the line is shown. -/
def isTrailing (c : Char) : Bool := c == '\n' || c == '\r' || c == '\x00'

def text (line : SourceLine) : List Char :=
  (line.characters.reverse.dropWhile isTrailing).reverse

/-- The index of the line that an offset lies in: the last one that does not begin behind it. -/
def indexOf (lines : List SourceLine) (offset : Nat) : Nat :=
  lines.countP (fun line => line.start ≤ offset) - 1

/-- The number of characters that end at or before a byte, counted from an offset. -/
def charactersUpTo (byte offset : Nat) : List Char → Nat
  | [] => 0
  | c :: cs =>
      if offset + c.utf8Size ≤ byte then charactersUpTo byte (offset + c.utf8Size) cs + 1 else 0

/-- The column of an offset in its line, counted in characters from one. -/
def columnOf (line : SourceLine) (offset : Nat) : Nat :=
  charactersUpTo offset line.start line.characters + 1

end SourceLine

def whiteSpace : Text.CharTable :=
  [(0x9, 0xD), (0x20, 0x20), (0x85, 0x85), (0xA0, 0xA0), (0x1680, 0x1680), (0x2000, 0x200A),
    (0x2028, 0x2029), (0x202F, 0x202F), (0x205F, 0x205F), (0x3000, 0x3000)]

/-- The number of bytes of white space that a text begins with. -/
def indentation (cs : List Char) : Nat := byteLength (cs.takeWhile whiteSpace.contains)

end MiniSmalltalk
