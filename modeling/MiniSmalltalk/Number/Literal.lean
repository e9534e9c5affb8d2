/-! # Integer literals

A literal is an optional sign and one or more digits. It has to fit into 64 bits and stands
for the double nearest to it. -/

namespace MiniSmalltalk.Number

def ofDigits (digits : List Char) : Nat :=
  digits.foldl (fun value digit => 10 * value + (digit.toNat - '0'.toNat)) 0

/-- The number that digits stand for, if they are digits and there are any. -/
def unsigned? (digits : List Char) : Option Nat :=
  if digits.isEmpty || !digits.all Char.isDigit then none else some (ofDigits digits)

def integer? (text : String) : Option Int :=
  match text.toList with
  | '-' :: digits => (unsigned? digits).map fun n => -(n : Int)
  | '+' :: digits => (unsigned? digits).map fun n => (n : Int)
  | digits => (unsigned? digits).map fun n => (n : Int)

def fits (value : Int) : Bool := -9223372036854775808 ≤ value && value ≤ 9223372036854775807

/-- The double nearest to an integer of 64 bits; of two that are equally near, the even one. -/
def ofInteger (value : Int) : Float := (Int64.ofInt value).toFloat

/-- The number that a literal stands for, or none if it is malformed or out of range. -/
def literal? (text : String) : Option Float := do
  let value ← integer? text
  if fits value then some (ofInteger value) else none

end MiniSmalltalk.Number
