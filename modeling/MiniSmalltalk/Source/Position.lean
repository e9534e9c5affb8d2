/-! # Positions in a source

A position counts the same place in four ways: characters read, bytes read, line and
column. A cursor is a position together with the text that still stands before it.

Lines and columns are kept in 32 bits, and behind the largest of these numbers comes zero. Offsets
are numbers of any size here. Where they are kept in 32 bits as well, they are the same as long as
a source has fewer than 2 ^ 32 bytes. -/

namespace MiniSmalltalk

/-- A count of 32 bits stands for a number. -/
instance coeCount : Coe UInt32 Nat := ⟨UInt32.toNat⟩

/-- The number of bytes that characters take in UTF-8. -/
def byteLength : List Char → Nat
  | [] => 0
  | c :: cs => c.utf8Size + byteLength cs

@[simp] theorem byteLength_nil : byteLength [] = 0 := rfl

@[simp] theorem byteLength_cons (c : Char) (cs : List Char) :
    byteLength (c :: cs) = c.utf8Size + byteLength cs := rfl

@[simp] theorem byteLength_append (cs ds : List Char) :
    byteLength (cs ++ ds) = byteLength cs + byteLength ds := by
  induction cs with
  | nil => simp
  | cons c cs ih => simp [ih, Nat.add_assoc]

/-- A place in a source. Lines and columns are counted from one, the rest from zero. -/
structure Position where
  index : Nat
  offset : Nat
  line : UInt32
  column : UInt32
  deriving DecidableEq, Inhabited

namespace Position

def start : Position := ⟨0, 0, 1, 1⟩

/-- The place behind one more character. A newline opens the next line. -/
def advance (p : Position) (c : Char) : Position :=
  { index := p.index + 1
    offset := p.offset + c.utf8Size
    line := if c = '\n' then p.line + 1 else p.line
    column := if c = '\n' then 1 else p.column + 1 }

def advanceAll (p : Position) (cs : List Char) : Position := cs.foldl advance p

@[simp] theorem advanceAll_nil (p : Position) : p.advanceAll [] = p := rfl

@[simp] theorem advanceAll_cons (p : Position) (c : Char) (cs : List Char) :
    p.advanceAll (c :: cs) = (p.advance c).advanceAll cs := rfl

theorem advanceAll_append (p : Position) (cs ds : List Char) :
    p.advanceAll (cs ++ ds) = (p.advanceAll cs).advanceAll ds := by
  simp [advanceAll, List.foldl_append]

/-- Reading characters moves the offset by the bytes they take. -/
theorem advanceAll_offset (p : Position) (cs : List Char) :
    (p.advanceAll cs).offset = p.offset + byteLength cs := by
  induction cs generalizing p with
  | nil => rfl
  | cons c cs ih =>
      rw [advanceAll_cons, ih]
      simp [advance, Nat.add_assoc]

end Position

/-- The text still to be read, and where it begins. -/
structure Cursor where
  rest : List Char
  position : Position

namespace Cursor

def ofString (source : String) : Cursor := ⟨source.toList, Position.start⟩

/-- The column recorded once a token that needed a look at the character behind it is
complete: in front of a newline it is the number of characters read so far, everywhere
else it stays as it is. Reading the newline restores the count. -/
def settle (c : Cursor) : Cursor :=
  match c.rest with
  | '\n' :: _ => { c with position := { c.position with column := .ofNat c.position.index } }
  | _ => c

@[simp] theorem settle_rest (c : Cursor) : c.settle.rest = c.rest := by
  unfold settle
  split <;> rfl

@[simp] theorem settle_offset (c : Cursor) : c.settle.position.offset = c.position.offset := by
  unfold settle
  split <;> rfl

end Cursor

end MiniSmalltalk
