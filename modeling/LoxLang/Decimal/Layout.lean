import LoxLang.Decimal.Shortest

/-!
The written forms of a double. Every form chooses between the exact digits of an integral value and
the shortest digits that read back, and then lays the digits out positionally or with an exponent.
`printed` is what a program prints, `listed` stands in syntax trees, `displayed` in token listings
and `encoded?` in token data.
-/
namespace LoxLang.Decimal

def sign (negative : Bool) : String :=
  if negative then "-" else ""

/-- Digits with a point and as many zeros as their exponent asks for, never an exponent. -/
def Digits.positional (d : Digits) : String :=
  let digits := Nat.toDigits 10 d.significand
  match d.exponent with
  | .ofNat k => String.ofList (digits ++ List.replicate k '0')
  | .negSucc k =>
    let places := k + 1
    if digits.length ≤ places then
      "0." ++ String.ofList (List.replicate (places - digits.length) '0' ++ digits)
    else
      let split := digits.length - places
      String.ofList (digits.take split) ++ "." ++ String.ofList (digits.drop split)

/-- One digit, a point before the others if there are any, and a signed exponent. -/
def Digits.scientific (d : Digits) : String :=
  let digits := Nat.toDigits 10 d.significand
  let exponent := d.exponent + digits.length - 1
  let tail := digits.drop 1
  String.ofList (digits.take 1)
    ++ (if tail.isEmpty then "" else "." ++ String.ofList tail)
    ++ (if exponent < 0 then "e-" else "e+") ++ toString exponent.natAbs

/-- The fewest digits that read back, laid out positionally; a tie goes up. -/
def plain : Binary → String
  | .finite negative x => sign negative ++ (x.shortest .up).positional
  | .infinite negative => sign negative ++ "inf"
  | .notANumber => "NaN"

/-- The form that a program prints: an integral value shows every digit of its exact value. -/
def printed (x : Float) : String :=
  match Binary.ofBits x.toBits with
  | .finite negative m =>
    if m.isIntegral then sign negative ++ toString m.whole else plain (.finite negative m)
  | other => plain other

/-- The form in syntax trees: as printed, with one place after the point of an integral value. -/
def listed (x : Float) : String :=
  match Binary.ofBits x.toBits with
  | .finite negative m =>
    if m.isIntegral then sign negative ++ toString m.whole ++ ".0" else plain (.finite negative m)
  | other => plain other

/-- The form in token listings: an integral value below `2 ^ 63` is shown as a whole number with one
place, zero without a sign, and every other value by its shortest digits. -/
def displayed (x : Float) : String :=
  match Binary.ofBits x.toBits with
  | .finite negative m =>
    if m.isIntegral && m.whole < twoPow 63 then
      sign (negative && m.whole != 0) ++ toString m.whole ++ ".0"
    else plain (.finite negative m)
  | other => plain other

/-- The form in token data: positional for a leading digit in the places from `10 ^ (-5)` to
`10 ^ 15`, with an exponent elsewhere. A tie goes to the even digit, and a value that is not finite
has no form. -/
def encoded? (x : Float) : Option String :=
  match Binary.ofBits x.toBits with
  | .finite negative m =>
    let d := m.shortest .toEven
    let order := d.exponent + width d.significand - 1
    let text :=
      if m.significand = 0 then "0.0"
      else if -5 ≤ order ∧ order ≤ 15 then
        d.positional ++ if 0 ≤ d.exponent then ".0" else ""
      else d.scientific
    some (sign negative ++ text)
  | _ => none

end LoxLang.Decimal
