import Abacus.Decimal.Shortest
import Abacus.Decimal.Significant
import Abacus.Proofs.Decimal.Scale

/-!
# Decimal — the shortest decimal reads back

A decimal of seventeen digits next to a double is nearer to it than half a step: a step is at
least the magnitude's `2 ^ 53`-th part, a unit of the seventeenth digit at most its `10 ^ 16`-th.
Hence the search of `shortest` ends with a decimal, and what it ends with reads back.

* `rank_significant`: the nearest decimal of seventeen digits or more has the double's rank.
* `rank_closest`: whatever the number of digits, what `closest` gives has the double's rank.
* `exists_closest`: the search finds one, and none of fewer digits.
* `rank_shortest`: so has the shortest decimal.
-/

namespace Abacus.Decimal
open Binary64

/-- A decimal no further from a magnitude than half a unit of its last digit has the magnitude's
rank, when there are at least `10 ^ 16` such units. -/
theorem rank_of_near {n c : Nat} {k : Int} (h0 : 0 < n) (hn : n < infinityRank)
    (hlo : 2 * (units n * tenTo (-k)) ≤
      2 * (c * (unitsPerOne * tenTo k)) + unitsPerOne * tenTo k)
    (hhi : 2 * (c * (unitsPerOne * tenTo k)) ≤
      2 * (units n * tenTo (-k)) + unitsPerOne * tenTo k)
    (hfine : unitsPerOne * tenTo k * 10 ^ 16 ≤ units n * tenTo (-k)) :
    rank ⟨c, k⟩ = n := by
  have hc : c * tenTo k * unitsPerOne = c * (unitsPerOne * tenTo k) := by
    rw [Nat.mul_assoc, Nat.mul_comm unitsPerOne]
  have hB : 0 < unitsPerOne * tenTo k := Nat.mul_pos unitsPerOne_pos (tenTo_pos _)
  have hQ := tenTo_pos (-k)
  rw [rank_eq, numerator, denominator]
  generalize unitsPerOne * tenTo k = B at *
  generalize tenTo (-k) = Q at *
  -- a unit of the last digit is less than the step on either side
  have hgap : ∀ m, n ≤ m + 1 → units m * Q + B < units (m + 1) * Q := by
    intro m hm
    have hle := Nat.mul_le_mul_right Q (units_le_gap m)
    have hmono := Nat.mul_le_mul_right Q (units_strictMono.monotone hm)
    have hstep := Nat.mul_le_mul_right Q (units_strictMono m.lt_succ_self).le
    rw [Nat.mul_assoc, Nat.sub_mul] at hle
    omega
  refine nearestRank_eq hQ hn ?_ ?_
  · intro m hm
    have hmono := Nat.mul_le_mul_right Q (units_strictMono.monotone (Nat.le_sub_one_of_lt hm))
    have hstep := hgap (n - 1) (by omega)
    rw [Nat.sub_add_cancel h0] at hstep
    rw [hc, Nat.add_mul]
    omega
  · intro m hm
    have hle : n + 1 ≤ m := hm
    have hmono := Nat.mul_le_mul_right Q (units_strictMono.monotone hle)
    have hstep := hgap n n.le_succ
    rw [hc, Nat.add_mul]
    omega

/-- Seventeen digits are enough for every double, and more do no harm. -/
theorem rank_significant {n p : Nat} (h0 : 0 < n) (hn : n < infinityRank) (hp : 17 ≤ p) :
    (significant p (units n) unitsPerOne).rank = n := by
  have hpos : 0 < units n := units_zero ▸ units_strictMono h0
  have hlead : _ ≤ _ := leadingExponent_le (b := unitsPerOne) hpos
  rw [significant, rank_trim]
  generalize leadingExponent (units n) unitsPerOne = x at *
  have hB : 0 < unitsPerOne * tenTo (x - p + 1) := Nat.mul_pos unitsPerOne_pos (tenTo_pos _)
  obtain ⟨hhi, hlo⟩ := divNearest_near (units n * tenTo (-(x - p + 1))) _ hB
  have hfine : unitsPerOne * tenTo (x - p + 1) * 10 ^ 16 ≤ units n * tenTo (-(x - p + 1)) := calc
    _ ≤ unitsPerOne * tenTo (x - p + 1) * 10 ^ (p - 1) :=
        Nat.mul_le_mul_left _ (Nat.pow_le_pow_right (by decide) (by omega))
    _ ≤ units n * tenTo (-(x - p + 1)) := scaled_le (by omega) hlead
  exact rank_of_near h0 hn hlo hhi hfine

theorem rank_closest {n p : Nat} {d : Decimal} (h : closest n p = some d) : d.rank = n := by
  rw [closest] at h
  simp only [beq_iff_eq] at h
  generalize leadingExponent (units n) unitsPerOne - p + 1 = k at h
  generalize units n * tenTo (-k) = a, unitsPerOne * tenTo k = b at h
  split at h
  · next hlo =>
      split at h
      · next hhi =>
          cases h
          exact divNearest_of_neighbours (p := fun c => rank ⟨c, k⟩ = n) hlo hhi
      · cases h
        exact hlo
  · split at h
    · next hhi =>
        cases h
        exact hhi
    · cases h

theorem rank_significant_ne {n p : Nat} (h : closest n p = none) :
    (significant p (units n) unitsPerOne).rank ≠ n := by
  rw [closest] at h
  rw [significant]
  simp only [beq_iff_eq, rank_trim] at h ⊢
  generalize leadingExponent (units n) unitsPerOne - p + 1 = k at h ⊢
  generalize units n * tenTo (-k) = a, unitsPerOne * tenTo k = b at h ⊢
  split at h
  · split at h <;> cases h
  · next hlo =>
      split at h
      · cases h
      · next hhi => exact divNearest_of_neighbours (p := fun c => rank ⟨c, k⟩ ≠ n) hlo hhi

/-- The search ends with a decimal, behind numbers of digits that gave none. -/
theorem exists_closest {n : Nat} (h0 : 0 < n) (hn : n < infinityRank) :
    ∃ p d, 1 ≤ p ∧ closest n p = some d ∧ (∀ q, 1 ≤ q → q < p → closest n q = none) ∧
      shortest n = d.trim := by
  rw [shortest]
  cases h : (List.range' 1 17).findSome? (closest n) with
  | none =>
      have h17 := List.findSome?_eq_none_iff.mp h 17 (by decide)
      exact (rank_significant_ne h17 (rank_significant h0 hn le_rfl)).elim
  | some d =>
      obtain ⟨before, p, after, hsplit, hp, hbefore⟩ := List.findSome?_eq_some_iff.mp h
      obtain ⟨i, -, hi, hrest⟩ := List.range'_eq_append_iff.mp hsplit
      have hfirst : p = 1 + i := by
        have hhead := congrArg List.head? hrest
        rw [List.head?_cons, List.head?_range', Nat.mul_one] at hhead
        split at hhead
        · cases hhead
        · exact Option.some.inj hhead
      refine ⟨p, d, by omega, hp, fun q hq hlt => hbefore q ?_, rfl⟩
      rw [hi, List.mem_range'_1]
      omega

/-- **The shortest decimal reads back** as the double it was made for. -/
theorem rank_shortest {n : Nat} (h0 : 0 < n) (hn : n < infinityRank) : (shortest n).rank = n := by
  obtain ⟨p, d, -, hp, -, hd⟩ := exists_closest h0 hn
  rw [hd, rank_trim]
  exact rank_closest hp

theorem digits_ne_zero {d : Decimal} (h : d.rank ≠ 0) : d.digits ≠ 0 := fun h0 => h (by
  rw [rank, if_pos h0])

theorem mod_shortest {n : Nat} (h0 : 0 < n) (hn : n < infinityRank) :
    (shortest n).digits % 10 ≠ 0 := by
  have hrank := rank_shortest h0 hn
  rw [shortest, rank_trim] at hrank
  exact mod_trim (digits_ne_zero (by omega))

end Abacus.Decimal
