import Abacus.Decimal.Basic

/-!
# Decimal — the fewest digits that read back

A decimal *reads back* as a rank when that rank's double is the nearest to it.  For one digit,
two, three and so on up to seventeen, `closest` looks at the two decimals of that many digits
around the value; `shortest` takes the first count at which one of them reads back.  Of two that
do, the nearer one counts, and at equal distance the even one.
-/

namespace Abacus.Decimal

/-- Of the two decimals of `p` digits around the magnitude of `n`, the one that reads back as
`n`. -/
def closest (n p : Nat) : Option Decimal :=
  let a := Binary64.units n
  let b := Binary64.unitsPerOne
  let k := leadingExponent a b - p + 1
  let below := a * tenTo (-k) / (b * tenTo k)
  let readsBack (d : Nat) : Bool := rank ⟨d, k⟩ == n
  if readsBack below then
    if readsBack (below + 1) then some ⟨divNearest (a * tenTo (-k)) (b * tenTo k), k⟩
    else some ⟨below, k⟩
  else if readsBack (below + 1) then some ⟨below + 1, k⟩
  else none

/-- The closest of the decimals with the fewest digits that read back as the rank `n`. -/
def shortest (n : Nat) : Decimal :=
  trim (((List.range' 1 17).findSome? (closest n)).getD ⟨0, 0⟩)

end Abacus.Decimal
