import Mathlib.Data.Nat.Digits.Defs
import MiniSmalltalk.Number.Literal

/-! # The values of integer literals

Reading digits from the left gives their decimal value, however many of them there are. A literal
stands for a number exactly if its signed value fits into 64 bits. -/

namespace MiniSmalltalk.Number

def digitValue (digit : Char) : Nat := digit.toNat - '0'.toNat

/-- The decimal value of digits, the last of which counts ones. -/
def decimal (digits : List Char) : Nat := Nat.ofDigits 10 (digits.reverse.map digitValue)

structure IsNumeral (digits : List Char) : Prop where
  ne_nil : digits ≠ []
  digit : ∀ c ∈ digits, c.isDigit = true

theorem ofDigits_eq_decimal (digits : List Char) : ofDigits digits = decimal digits := by
  rw [ofDigits, decimal, List.foldl_eq_foldr_reverse]
  induction digits.reverse with
  | nil => rfl
  | cons digit others ih =>
      rw [List.foldr_cons, ih, List.map_cons, Nat.ofDigits_cons, Nat.add_comm]
      rfl

theorem unsigned?_of_isNumeral {digits : List Char} (h : IsNumeral digits) :
    unsigned? digits = some (decimal digits) := by
  have hall : digits.all Char.isDigit = true := List.all_eq_true.mpr h.digit
  simp [unsigned?, h.ne_nil, hall, ofDigits_eq_decimal]

theorem integer?_of_isNumeral {digits : List Char} (h : IsNumeral digits) :
    integer? (String.ofList digits) = some (decimal digits : Int) := by
  have hsign : ∀ sign ∈ ['-', '+'], ∀ others, digits ≠ sign :: others := by
    rintro sign hs others rfl
    have hdigit := h.digit sign (by simp)
    simp only [List.mem_cons, List.not_mem_nil, or_false] at hs
    rcases hs with rfl | rfl <;> exact absurd hdigit (by decide)
  unfold integer?
  rw [String.toList_ofList]
  split
  · exact absurd rfl (hsign '-' (by simp) _)
  · exact absurd rfl (hsign '+' (by simp) _)
  · simp [unsigned?_of_isNumeral h]

theorem integer?_negative {digits : List Char} (h : IsNumeral digits) :
    integer? ("-" ++ String.ofList digits) = some (-(decimal digits : Int)) := by
  have htext : ("-" ++ String.ofList digits).toList = '-' :: digits := by simp
  unfold integer?
  rw [htext]
  simp [unsigned?_of_isNumeral h]

section

variable {text : String} {value : Int} (h : integer? text = some value)

include h

theorem literal?_of_le (hl : -2 ^ 63 ≤ value) (hu : value ≤ 2 ^ 63 - 1) :
    ∃ word : Int64, word.toInt = value ∧ literal? text = some word.toFloat := by
  have hfits : fits value = true := by
    simp only [fits, Bool.and_eq_true, decide_eq_true_eq]
    omega
  refine ⟨Int64.ofInt value, Int64.toInt_ofInt_of_le (by omega) (by omega), ?_⟩
  simp [literal?, h, hfits, ofInteger]

theorem literal?_of_not_le (hn : ¬ (-2 ^ 63 ≤ value ∧ value ≤ 2 ^ 63 - 1)) :
    literal? text = none := by
  have hfits : fits value = false := by
    rw [Bool.eq_false_iff]
    intro hf
    simp only [fits, Bool.and_eq_true, decide_eq_true_eq] at hf
    omega
  simp [literal?, h, hfits]

end

end MiniSmalltalk.Number
