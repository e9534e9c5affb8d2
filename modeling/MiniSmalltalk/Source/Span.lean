/-! # Spans of source text

A span is a half-open interval of byte offsets into the UTF-8 text of one source.
Reports and tree nodes carry spans; nothing else ties them to the text. -/

namespace MiniSmalltalk

/-- The bytes from `start` up to, and not including, `stop`. -/
structure Span where
  start : Nat
  stop : Nat
  deriving DecidableEq, Inhabited

namespace Span

/-- The empty span at the beginning of a source, carried by nodes that cover nothing yet. -/
def origin : Span := ⟨0, 0⟩

def point (offset : Nat) : Span := ⟨offset, offset⟩

def merge (a b : Span) : Span := ⟨min a.start b.start, max a.stop b.stop⟩

/-- A span whose end does not lie behind its start covers no byte. -/
def isEmpty (s : Span) : Bool := s.stop ≤ s.start

/-- The written form, `start..stop`. -/
def toText (s : Span) : String := s!"{s.start}..{s.stop}"

@[simp] theorem merge_start (a b : Span) : (a.merge b).start = min a.start b.start := rfl

@[simp] theorem merge_stop (a b : Span) : (a.merge b).stop = max a.stop b.stop := rfl

theorem merge_assoc (a b c : Span) : (a.merge b).merge c = a.merge (b.merge c) := by
  simp [merge, Nat.min_assoc, Nat.max_assoc]

@[simp] theorem merge_self (a : Span) : a.merge a = a := by
  simp [merge]

end Span

end MiniSmalltalk
