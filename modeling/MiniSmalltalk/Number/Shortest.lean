/-! # Shortest decimals

A double is written with the fewest decimal digits that still read back as the same double.
The search runs in exact arithmetic on natural numbers: for one digit after another, the two
decimals around the value are tested against the interval of reals that round to it. -/

namespace MiniSmalltalk.Number

/-- A positive binary number `significand · 2 ^ exponent`. -/
structure Binary where
  significand : Nat
  exponent : Int
  deriving DecidableEq

/-- A decimal number `coefficient · 10 ^ exponent`. -/
structure Decimal where
  coefficient : Nat
  exponent : Int
  deriving DecidableEq

/-- What a double stands for. -/
inductive Magnitude where
  | notANumber
  | infinite
  | zero
  | finite (value : Binary)

def twoTo (exponent : Nat) : Nat := Nat.pow 2 exponent

def tenTo (exponent : Nat) : Nat := Nat.pow 10 exponent

def fractionBits : Nat := 52

/-- The exponent of the smallest positive double. -/
def leastExponent : Int := -1074

/-- Whether the sign bit of a double is set. -/
def isNegative (x : Float) : Bool := x.toBits.toNat / twoTo 63 == 1

/-- The magnitude of a double, taken apart bit by bit. -/
def magnitude (x : Float) : Magnitude :=
  let bits := x.toBits.toNat
  let fraction : Nat := bits % twoTo fractionBits
  let exponent : Nat := bits / twoTo fractionBits % twoTo 11
  if exponent = 2047 then
    if fraction = 0 then .infinite else .notANumber
  else if exponent = 0 then
    if fraction = 0 then .zero else .finite ⟨fraction, leastExponent⟩
  else .finite ⟨twoTo fractionBits + fraction, leastExponent + (exponent - 1 : Nat)⟩

namespace Binary

/-- Four times the lower end of the interval that rounds to a value, in units of its last
place. The neighbour below the first value of a binade is only half as far away. -/
def lower (b : Binary) : Nat :=
  if b.significand = twoTo fractionBits ∧ b.exponent ≠ leastExponent then 4 * b.significand - 1
  else 4 * b.significand - 2

/-- Four times the upper end of the interval that rounds to a value. -/
def upper (b : Binary) : Nat := 4 * b.significand + 2

/-- The number `k` with `10 ^ (k - 1) ≤ value < 10 ^ k`. -/
def decimalExponent (b : Binary) : Int :=
  let shift : Nat := 400
  let scaled := b.significand * twoTo b.exponent.toNat * tenTo shift / twoTo (-b.exponent).toNat
  (Nat.toDigits 10 scaled).length - shift

/-- The multiple of `10 ^ place` nearest to a value among those that round to it, as its
factor. Of two that are equally near, the larger one. The ends of the interval belong to it
if the significand is even. -/
def nearest? (b : Binary) (place : Int) : Option Nat :=
  let left := twoTo (b.exponent - 2).toNat * tenTo (-place).toNat
  let right := twoTo (2 - b.exponent).toNat * tenTo place.toNat
  let value := 4 * b.significand * left
  let below := value / right
  let above := below + 1
  let slack := if b.significand % 2 = 0 then 1 else 0
  let admits (factor : Nat) : Bool :=
    b.lower * left < factor * right + slack && factor * right < b.upper * left + slack
  match admits below, admits above with
  | true, true => if 2 * value < (below + above) * right then some below else some above
  | true, false => some below
  | false, true => some above
  | false, false => none

/-- The shortest decimal that rounds to a value. Seventeen digits always suffice, and a
carry into one more digit leaves a single zero to drop. -/
def shortest (b : Binary) : Decimal :=
  let top := b.decimalExponent
  let found := (List.range 17).findSome? fun (n : Nat) =>
    (b.nearest? (top - (n + 1))).map fun factor => Decimal.mk factor (top - (n + 1))
  match found with
  | none => ⟨0, 0⟩
  | some d => if d.coefficient % 10 = 0 then ⟨d.coefficient / 10, d.exponent + 1⟩ else d

end Binary

end MiniSmalltalk.Number
