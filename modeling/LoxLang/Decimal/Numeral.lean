import LoxLang.Decimal.Nearest

/-!
Reading decimals: digits with at most one point among them, as they stand in a source.
-/
namespace LoxLang.Decimal

/-- The number written by decimal digits. -/
def natOfDigits (digits : List UInt8) : Nat :=
  digits.foldl (fun n b => 10 * n + (b.toNat - 48)) 0

def isDigit (b : UInt8) : Bool :=
  48 ≤ b && b ≤ 57

/-- The value of digits with at most one point among them, such as `12` or `0.25`. -/
def floatOfNumeral (text : List UInt8) : Float :=
  let whole := text.takeWhile (· != 46)
  let fraction := (text.drop whole.length).tail
  nearestFloat (natOfDigits (whole ++ fraction)) (-(fraction.length : Int))

end LoxLang.Decimal
