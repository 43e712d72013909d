import Abacus.Binary64.Rank

/-!
# Decimal — decimals and the doubles next to them

A decimal is a whole number of some power of ten.  `Decimal.rank` is the rank of the double
nearest to it, exponents of any size included: beyond four hundred places the answer is known
without the power.  `Decimal.trim` drops trailing zeros, and `leadingExponent` is the exponent of
the first digit.
-/

namespace Abacus

/-- `digits · 10^exponent`. -/
structure Decimal where
  digits : Nat
  exponent : Int
  deriving Repr, DecidableEq

/-- The number of decimal digits of a whole number; zero has one. -/
def decimalLength (n : Nat) : Nat := if n < 10 then 1 else decimalLength (n / 10) + 1

/-- The exponent of the first digit of `a / b`: the largest `x` with `10^x ≤ a / b`. -/
def leadingExponent (a b : Nat) : Int :=
  if b ≤ a then (decimalLength (a / b) : Int) - 1 else -(decimalLength ((b - 1) / a) : Int)

/-- A power of ten, and one for a negative exponent. -/
def tenTo (x : Int) : Nat := Nat.pow 10 x.toNat

namespace Decimal

/-- The whole number whose quotient by `denominator` the decimal is. -/
def numerator (d : Decimal) : Nat := d.digits * tenTo d.exponent

/-- A power of ten, and one unless the exponent is negative. -/
def denominator (d : Decimal) : Nat := tenTo (-d.exponent)

/-- The rank of the double nearest to the decimal. -/
def rank (d : Decimal) : Nat :=
  if d.digits = 0 then 0
  else if 400 < d.exponent then Binary64.infinityRank
  else if d.exponent < -(400 + (d.digits.log2 : Int)) then 0
  else Binary64.nearestRank d.numerator d.denominator

/-- The double nearest to the decimal. -/
def toFloat (d : Decimal) : Float := Binary64.ofRank false d.rank

/-- The same decimal with no zero at its end. -/
def trim (d : Decimal) : Decimal :=
  if h : d.digits ≠ 0 ∧ d.digits % 10 = 0 then trim ⟨d.digits / 10, d.exponent + 1⟩ else d
  termination_by d.digits
  decreasing_by omega

/-- The exponent of the decimal's first digit. -/
def leading (d : Decimal) : Int := (decimalLength d.digits : Int) - 1 + d.exponent

end Decimal

end Abacus
