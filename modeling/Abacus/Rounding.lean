/-!
# Rounding — quotients to the nearest whole number

`divNearest a b` is the whole number nearest to `a / b`; of two equally near ones, the even one.
Every number this library rounds, into binary or into decimal, is rounded here.
-/

namespace Abacus

/-- The whole number nearest to `a / b`, a half going to the even neighbour. -/
def divNearest (a b : Nat) : Nat :=
  if 2 * (a % b) < b then a / b
  else if b < 2 * (a % b) then a / b + 1
  else a / b + a / b % 2

/-- The nearest whole number is one of the two neighbours. -/
theorem divNearest_eq_or (a b : Nat) : divNearest a b = a / b ∨ divNearest a b = a / b + 1 := by
  unfold divNearest
  split
  · exact .inl rfl
  · split
    · exact .inr rfl
    · omega

/-- It is never more than half a unit away. -/
theorem divNearest_near (a b : Nat) (hb : 0 < b) :
    2 * (divNearest a b * b) ≤ 2 * a + b ∧ 2 * a ≤ 2 * (divNearest a b * b) + b := by
  have hr := Nat.mod_lt a hb
  have hq : a / b * b + a % b = a := Nat.div_add_mod' a b
  have hs : (a / b + 1) * b = a / b * b + b := by rw [Nat.add_mul, Nat.one_mul]
  unfold divNearest
  split
  · omega
  · split
    · rw [hs]; omega
    · have htie : 2 * (a % b) = b := by omega
      rcases Nat.mod_two_eq_zero_or_one (a / b) with h | h
      · rw [h, Nat.add_zero]; omega
      · rw [h, hs]; omega

end Abacus
