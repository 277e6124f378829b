import LoxLang.Decimal.Power

/-!
The double nearest to a fraction of naturals. `nearestBits` finds the binary place of the last bit,
rounds the quotient there with ties to even, and puts the fields of the double together; values too
large for a finite double become infinite.
-/
namespace LoxLang.Decimal

def infinityBits : Nat := 2047 * twoPow 52

/-- The quotient of two naturals, rounded to the nearest one, and to the even one of two equally
near. -/
def roundedQuotient (n d : Nat) : Nat :=
  let quotient := n / d
  let twice := 2 * (n % d)
  if twice < d then quotient
  else if d < twice then quotient + 1
  else quotient + quotient % 2

/-- The exponent `e` of the last bit of `n / d` in a double: the quotient is at least `2 ^ 52` and
below `2 ^ 53` units of `2 ^ e`, unless it is too small for that. -/
def lastPlace (n d : Nat) : Int :=
  let order : Int := (n.log2 : Int) - d.log2
  let isBelow := n * twoPow (-order).toNat < d * twoPow order.toNat
  max (-1074) (order - if isBelow then 53 else 52)

/-- The bits of the double nearest to `n / d`, for a `d` that is not zero. The fields are added, so
that a carry out of the fraction raises the exponent. -/
def nearestBits (n d : Nat) : Nat :=
  if n = 0 then 0
  else
    let place := lastPlace n d
    let significand := roundedQuotient (n * twoPow (-place).toNat) (d * twoPow place.toNat)
    min infinityBits ((place + 1074).toNat * twoPow 52 + significand)

/-- The double nearest to `significand * 10 ^ exponent`. A value of `10 ^ 400` or more is infinite
and one below `10 ^ (-400)` is zero, whatever its digits. -/
def nearestFloat (significand : Nat) (exponent : Int) : Float :=
  let order := (Nat.toDigits 10 significand).length + exponent
  let bits :=
    if significand = 0 || order < -400 then 0
    else if 400 < order then infinityBits
    else nearestBits (significand * tenPow exponent.toNat) (tenPow (-exponent).toNat)
  Float.ofBits bits.toUInt64

end LoxLang.Decimal
