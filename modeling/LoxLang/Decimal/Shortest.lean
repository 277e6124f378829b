import LoxLang.Decimal.Power

/-!
The shortest decimal that reads back to a binary fraction. A `Magnitude` is the exact value
`significand * 2 ^ exponent` of a finite double without its sign, decoded from its bits, and
`Magnitude.shortest` searches the decimal grids from coarse to fine for a point of the interval of
reals that round to it. All arithmetic is on naturals.
-/
namespace LoxLang.Decimal

/-- The value `significand * 2 ^ exponent`; `narrowBelow` says that the next smaller double is only
half as far away as the next larger one. -/
structure Magnitude where
  significand : Nat
  exponent : Int
  narrowBelow : Bool
  deriving DecidableEq, Repr

/-- What the bits of a double stand for. -/
inductive Binary where
  | finite (negative : Bool) (magnitude : Magnitude)
  | infinite (negative : Bool)
  | notANumber
  deriving DecidableEq, Repr

/-- Decodes the sign, exponent and fraction fields of a double. -/
def Binary.ofBits (bits : UInt64) : Binary :=
  let n := bits.toNat
  let negative := decide (twoPow 63 ≤ n)
  let field : Nat := n / twoPow 52 % twoPow 11
  let fraction : Nat := n % twoPow 52
  if field = 2047 then
    if fraction = 0 then .infinite negative else .notANumber
  else if field = 0 then .finite negative ⟨fraction, -1074, false⟩
  else .finite negative ⟨twoPow 52 + fraction, (field : Int) - 1075, fraction = 0 && 1 < field⟩

/-- The decimal `significand * 10 ^ exponent`. -/
structure Digits where
  significand : Nat
  exponent : Int
  deriving DecidableEq, Repr

/-- Which of two equally near neighbours is taken. -/
inductive Tie where
  | up
  | toEven
  deriving DecidableEq, Repr

def width (n : Nat) : Nat :=
  (Nat.toDigits 10 n).length

namespace Magnitude

def isIntegral (x : Magnitude) : Bool :=
  match x.exponent with
  | .ofNat _ => true
  | .negSucc k => x.significand % twoPow (k + 1) = 0

def whole (x : Magnitude) : Nat :=
  match x.exponent with
  | .ofNat k => x.significand * twoPow k
  | .negSucc k => x.significand / twoPow (k + 1)

/-- The factors `(a, b)` for which `n` quarters of the last binary place are `n * a / b` units of
`10 ^ place`. -/
def scale (x : Magnitude) (place : Int) : Nat × Nat :=
  let binary := x.exponent - 2
  (twoPow binary.toNat * tenPow (-place).toNat, twoPow (-binary).toNat * tenPow place.toNat)

/-- The value, and the ends of the interval that rounds to it, in quarters of the last binary
place. -/
def quarters (x : Magnitude) : Nat :=
  4 * x.significand

@[inherit_doc quarters]
def quartersBelow (x : Magnitude) : Nat :=
  4 * x.significand - if x.narrowBelow then 1 else 2

@[inherit_doc quarters]
def quartersAbove (x : Magnitude) : Nat :=
  4 * x.significand + 2

/-- Whether `point * 10 ^ place` rounds to the value. The ends of the interval belong to it exactly
when the significand is even. -/
def admits (x : Magnitude) (point : Nat) (place : Int) : Bool :=
  let (a, b) := x.scale place
  if x.significand % 2 = 0 then
    x.quartersBelow * a ≤ point * b && point * b ≤ x.quartersAbove * a
  else
    x.quartersBelow * a < point * b && point * b < x.quartersAbove * a

/-- The least `e` with the value below `10 ^ e`, for a value that is not zero. -/
def order (x : Magnitude) : Int :=
  let (a, b) := x.scale 0
  let estimate : Int := (width (x.quarters * a) : Int) - width b
  let (a, b) := x.scale estimate
  if x.quarters * a < b then estimate else estimate + 1

/-- The point of the grid `10 ^ place` that stands for the value, if one rounds to it: the nearer of
the two neighbours where both do. -/
def onGrid? (tie : Tie) (x : Magnitude) (place : Int) : Option Nat :=
  let (a, b) := x.scale place
  let below := x.quarters * a / b
  let above := below + 1
  match x.admits below place, x.admits above place with
  | false, false => none
  | true, false => some below
  | false, true => some above
  | true, true =>
    let twice := 2 * (x.quarters * a)
    let middle := (below + above) * b
    if twice < middle then some below
    else if middle < twice then some above
    else match tie with
      | .up => some above
      | .toEven => some (if below % 2 = 0 then below else above)

/-- Drops the trailing zeros of a significand, at most `fuel` of them. -/
def dropZeros (fuel : Nat) (d : Digits) : Digits :=
  match fuel with
  | 0 => d
  | fuel + 1 =>
    if d.significand % 10 = 0 then dropZeros fuel ⟨d.significand / 10, d.exponent + 1⟩ else d

/-- Searches the grids with `count`, `count + 1`, … digits. -/
def search (tie : Tie) (x : Magnitude) (order : Int) : (fuel count : Nat) → Digits
  | 0, _ => ⟨x.whole, 0⟩
  | fuel + 1, count =>
    let place := order - count
    match x.onGrid? tie place with
    | some point => dropZeros 17 ⟨point, place⟩
    | none => search tie x order fuel (count + 1)

/-- The fewest digits that read back as the value, and of these the nearest. Seventeen always
suffice. -/
def shortest (tie : Tie) (x : Magnitude) : Digits :=
  if x.significand = 0 then ⟨0, 0⟩ else search tie x x.order 17 1

end Magnitude

end LoxLang.Decimal
