/-! # Quoted text

A string literal stands between ticks, and a tick inside it is written twice. The main
statement is that reading a written literal gives back its text and whatever follows. -/

namespace MiniSmalltalk.Text.Quoted

def tick : Char := '\x27'

/-- The text of a literal as it is written between its ticks. -/
def encode : List Char → List Char
  | [] => []
  | c :: cs => if c = tick then tick :: tick :: encode cs else c :: encode cs

/-- Splits what follows an opening tick into the text of the literal and the rest behind its
closing tick. There is no closing tick if every tick is followed by another. -/
def split? : List Char → Option (List Char × List Char)
  | [] => none
  | [c] => if c = tick then some ([], []) else none
  | c :: d :: cs =>
      if c = tick then
        if d = tick then (split? cs).map fun found => (tick :: found.1, found.2)
        else some ([], d :: cs)
      else (split? (d :: cs)).map fun found => (c :: found.1, found.2)

def quote (text : String) : String :=
  String.ofList (tick :: (encode text.toList ++ [tick]))

@[simp] theorem encode_nil : encode [] = [] := rfl

theorem encode_cons_tick (cs : List Char) : encode (tick :: cs) = tick :: tick :: encode cs := by
  simp [encode]

theorem encode_cons_of_ne {c : Char} (h : c ≠ tick) (cs : List Char) :
    encode (c :: cs) = c :: encode cs := by
  simp [encode, h]

theorem split?_close {rest : List Char} (h : rest.head? ≠ some tick) :
    split? (tick :: rest) = some ([], rest) := by
  cases rest with
  | nil => simp [split?]
  | cons d cs =>
      have hd : d ≠ tick := by simpa using h
      simp [split?, hd]

theorem split?_cons_of_ne {c : Char} (h : c ≠ tick) (cs : List Char) :
    split? (c :: cs) = (split? cs).map fun found => (c :: found.1, found.2) := by
  cases cs <;> simp [split?, h]

theorem split?_cons_tick_tick (cs : List Char) :
    split? (tick :: tick :: cs) = (split? cs).map fun found => (tick :: found.1, found.2) := by
  simp [split?]

/-- A written literal is read back, provided that no further tick follows it. -/
theorem split?_encode (text : List Char) {rest : List Char} (h : rest.head? ≠ some tick) :
    split? (encode text ++ tick :: rest) = some (text, rest) := by
  induction text with
  | nil => simpa using split?_close h
  | cons c cs ih =>
      by_cases hc : c = tick
      · subst hc
        simp [encode_cons_tick, split?_cons_tick_tick, ih]
      · simp [encode_cons_of_ne hc, split?_cons_of_ne hc, ih]

/-- Whatever is read was written as the encoding of its text and a closing tick. -/
theorem eq_encode_of_split? (cs : List Char) {text rest : List Char}
    (h : split? cs = some (text, rest)) : cs = encode text ++ tick :: rest := by
  fun_induction split? cs generalizing text rest with
  | case1 => simp at h
  | case2 => simp_all
  | case3 => simp at h
  | case4 cs ih =>
      obtain ⟨found, hf, he⟩ := Option.map_eq_some_iff.mp h
      obtain ⟨rfl, rfl⟩ := Prod.mk.inj he
      have hcs := ih hf
      simp [encode_cons_tick, hcs]
  | case5 => simp_all
  | case6 c d cs hc ih =>
      obtain ⟨found, hf, he⟩ := Option.map_eq_some_iff.mp h
      obtain ⟨rfl, rfl⟩ := Prod.mk.inj he
      have hcs := ih hf
      simp [encode_cons_of_ne hc, hcs]

end MiniSmalltalk.Text.Quoted
