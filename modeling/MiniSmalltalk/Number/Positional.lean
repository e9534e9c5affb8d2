import MiniSmalltalk.Number.Shortest

/-! # Positional notation

Numbers are written without exponent, however long that makes them, and without a point if
they are whole. -/

namespace MiniSmalltalk.Number

def zeros (count : Nat) : List Char := List.replicate count '0'

def Decimal.positional (d : Decimal) : String :=
  let digits := Nat.toDigits 10 d.coefficient
  let whole := digits.length + d.exponent
  String.ofList <|
    if 0 ≤ d.exponent then digits ++ zeros d.exponent.toNat
    else if whole ≤ 0 then '0' :: '.' :: (zeros (-whole).toNat ++ digits)
    else digits.take whole.toNat ++ '.' :: digits.drop whole.toNat

def Magnitude.toText : Magnitude → String
  | notANumber => "NaN"
  | infinite => "inf"
  | zero => "0"
  | finite value => value.shortest.positional

/-- The text of a double. Zero and infinity keep their sign. -/
def toText (x : Float) : String :=
  match magnitude x with
  | .notANumber => Magnitude.notANumber.toText
  | m => if isNegative x then "-" ++ m.toText else m.toText

end MiniSmalltalk.Number
