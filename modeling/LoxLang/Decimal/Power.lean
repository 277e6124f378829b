/-!
Powers of the two bases between which numbers are converted.
-/
namespace LoxLang.Decimal

/-- The binary unit of a place. -/
def twoPow (place : Nat) : Nat :=
  Nat.pow 2 place

/-- The decimal unit of a place. -/
def tenPow (place : Nat) : Nat :=
  Nat.pow 10 place

end LoxLang.Decimal
