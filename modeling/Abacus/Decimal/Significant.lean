import Abacus.Decimal.Basic

/-!
# Decimal — a given number of significant digits

`significant p a b` is the decimal of `p` significant digits nearest to `a / b`, rounded once
from the exact quotient, a half going to the even digit, and without trailing zeros.
-/

namespace Abacus.Decimal

/-- The nearest decimal to `a / b` among those of at most `p` significant digits. -/
def significant (p a b : Nat) : Decimal :=
  let k := leadingExponent a b - p + 1
  trim ⟨divNearest (a * tenTo (-k)) (b * tenTo k), k⟩

end Abacus.Decimal
