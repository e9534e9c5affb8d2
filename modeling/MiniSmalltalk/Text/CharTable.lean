/-! # Tables of characters

A class of characters is written down as the ranges of its code points. -/

namespace MiniSmalltalk.Text

/-- Ranges of code points, both ends included. -/
abbrev CharTable := List (Nat × Nat)

def CharTable.contains (table : CharTable) (c : Char) : Bool :=
  table.any fun range => range.1 ≤ c.toNat && c.toNat ≤ range.2

end MiniSmalltalk.Text
