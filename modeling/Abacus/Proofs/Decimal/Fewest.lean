import Abacus.Proofs.Decimal.Significant

/-!
# Decimal — no fewer digits read back

The search of `shortest` looks at two decimals of each number of digits.  These are enough: what
lies between a decimal that reads back and the magnitude itself reads back too, and of all decimals
with so many digits these two are the next ones to the magnitude on either side.

* `rank_mono`: of two decimals the larger has no lower rank.
* `closest_ne_none`: if any decimal of `p` digits reads back, the search finds one of them.
* `decimalLength_shortest_le`: hence no decimal with fewer digits than the shortest reads back.
-/

namespace Abacus.Decimal
open Binary64

/-! ### Ranks in order -/

theorem exists_roundsTo_rank (d : Decimal) :
    ∃ m, RoundsTo magnitude d.rational m ∧ d.rank = min m infinityRank := by
  refine ⟨_, ?_, d.rank_eq.trans (nearestRank_eq_min _ _)⟩
  rw [rational_eq_div]
  exact roundsTo_magnitude d.numerator d.denominator_pos

theorem rank_mono {d e : Decimal} (h : d.rational ≤ e.rational) : d.rank ≤ e.rank := by
  obtain ⟨m, hm, hd⟩ := d.exists_roundsTo_rank
  obtain ⟨m', hm', he⟩ := e.exists_roundsTo_rank
  rw [hd, he]
  exact min_le_min_right _ (hm.mono magnitude_strictMono hm' h)

theorem rank_le {d : Decimal} {n : Nat} (h : d.rational ≤ magnitude n) : d.rank ≤ n := by
  obtain ⟨m, hm, hd⟩ := d.exists_roundsTo_rank
  have hn := RoundsTo.self magnitude_strictMono n
  rw [hd]
  exact (min_le_left _ _).trans (hm.mono magnitude_strictMono hn h)

theorem le_rank {d : Decimal} {n : Nat} (hn : n ≤ infinityRank) (h : magnitude n ≤ d.rational) :
    n ≤ d.rank := by
  obtain ⟨m, hm, hd⟩ := d.exists_roundsTo_rank
  have hself := RoundsTo.self magnitude_strictMono n
  rw [hd]
  exact le_min (hself.mono magnitude_strictMono hm h) hn

/-! ### The two candidates -/

/-- A quotient lies between two neighbouring numbers of units. -/
theorem quotient_between (a : Nat) {b : Nat} (hb : 0 < b) (k : ℤ) :
    rational ⟨a * tenTo (-k) / (b * tenTo k), k⟩ ≤ a / b ∧
      a / b < rational ⟨a * tenTo (-k) / (b * tenTo k) + 1, k⟩ := by
  have hB : 0 < b * tenTo k := Nat.mul_pos hb (tenTo_pos k)
  have hB' : (0 : ℚ) < (b * tenTo k : ℕ) := by exact_mod_cast hB
  have hlt : a * tenTo (-k) < (a * tenTo (-k) / (b * tenTo k) + 1) * (b * tenTo k) := by
    rw [Nat.mul_comm _ (b * tenTo k)]
    exact Nat.lt_mul_div_succ _ hB
  have hhi : ((a * tenTo (-k) : ℕ) : ℚ) / (b * tenTo k : ℕ) <
      (a * tenTo (-k) / (b * tenTo k) + 1 : ℕ) := by
    rw [div_lt_iff₀ hB']
    exact_mod_cast hlt
  rw [← quotient_mul_zpow a hb k]
  exact ⟨mul_le_mul_of_nonneg_right Nat.cast_div_le (zpow_pos_ten k).le,
    mul_lt_mul_of_pos_right hhi (zpow_pos_ten k)⟩

/-- **Of the decimals of `p` digits the two candidates are the next ones** to the magnitude. -/
theorem between_candidates {n p : Nat} {k : ℤ} (h0 : 0 < n) (hp : 1 ≤ p)
    (hk : k = leadingExponent (units n) unitsPerOne - p + 1) {e : Decimal}
    (he : e.digits < 10 ^ p) :
    (e.rational ≤ magnitude n →
      e.rational ≤ rational ⟨units n * tenTo (-k) / (unitsPerOne * tenTo k), k⟩) ∧
    (magnitude n < e.rational →
      rational ⟨units n * tenTo (-k) / (unitsPerOne * tenTo k) + 1, k⟩ ≤ e.rational) := by
  have hpos : 0 < units n := units_zero ▸ units_strictMono h0
  obtain ⟨hlo, hhi⟩ := quotient_between (units n) unitsPerOne_pos k
  have hfirst : (10 : ℚ) ^ (k + p - 1) ≤ magnitude n := by
    have hlead := zpow_leadingExponent_le hpos unitsPerOne_pos
    have hexp : k + p - 1 = leadingExponent (units n) unitsPerOne := by omega
    rwa [hexp]
  rw [magnitude] at hfirst ⊢
  generalize units n * tenTo (-k) / (unitsPerOne * tenTo k) = c at *
  have hmono := rational_strictMono k
  rcases multiple_or_small he k with ⟨m, hm⟩ | hlt
  · rw [← hm]
    constructor
    · intro hle
      exact hmono.monotone (Nat.le_of_lt_succ (hmono.lt_iff_lt.mp (hle.trans_lt hhi)))
    · intro hlt
      exact hmono.monotone (Nat.succ_le_of_lt (hmono.lt_iff_lt.mp (hlo.trans_lt hlt)))
  · -- the least number with `p` digits is a number of units, and no larger than the magnitude
    have hleast : rational ⟨10 ^ (p - 1), k⟩ = 10 ^ (k + p - 1) := by
      rw [rational_pow]
      congr 1
      omega
    constructor
    · intro _
      have hc : 10 ^ (p - 1) < c + 1 := hmono.lt_iff_lt.mp (hleast ▸ hfirst.trans_lt hhi)
      exact hlt.le.trans (hleast ▸ hmono.monotone (Nat.le_of_lt_succ hc))
    · intro hgt
      exact absurd (hfirst.trans_lt hgt) hlt.not_gt

/-- If a decimal of `p` digits reads back, one of the two candidates does. -/
theorem closest_ne_none {n p : Nat} (h0 : 0 < n) (hn : n < infinityRank) (hp : 1 ≤ p) {e : Decimal}
    (he : e.digits < 10 ^ p) (hr : e.rank = n) : closest n p ≠ none := by
  obtain ⟨k, hk⟩ : ∃ k, k = leadingExponent (units n) unitsPerOne - p + 1 := ⟨_, rfl⟩
  obtain ⟨hbelow, habove⟩ := between_candidates h0 hp hk he
  obtain ⟨hlo, hhi⟩ := quotient_between (units n) unitsPerOne_pos k
  rw [closest, ← hk]
  simp only [beq_iff_eq]
  generalize units n * tenTo (-k) / (unitsPerOne * tenTo k) = c at *
  rcases le_or_gt e.rational (magnitude n) with hle | hlt
  · have hc : rank ⟨c, k⟩ = n := le_antisymm (rank_le hlo) (hr ▸ rank_mono (hbelow hle))
    rw [if_pos hc]
    split <;> simp
  · have hc : rank ⟨c + 1, k⟩ = n :=
      le_antisymm (hr ▸ rank_mono (habove hlt)) (le_rank hn.le hhi.le)
    rw [if_pos hc, if_pos hc]
    split <;> simp

/-! ### The fewest digits -/

/-- A candidate has no more digits than were asked for, unless a carry made it a power of ten. -/
theorem digits_closest_le {n p : Nat} {d : Decimal} (h0 : 0 < n) (h : closest n p = some d) :
    d.digits ≤ 10 ^ p := by
  have hpos : 0 < units n := units_zero ▸ units_strictMono h0
  obtain ⟨k, hk⟩ : ∃ k, k = leadingExponent (units n) unitsPerOne - p + 1 := ⟨_, rfl⟩
  have hc : units n * tenTo (-k) / (unitsPerOne * tenTo k) < 10 ^ p := by
    obtain ⟨hlo, -⟩ := quotient_between (units n) unitsPerOne_pos k
    have hlead := lt_zpow_leadingExponent hpos unitsPerOne_pos
    have hexp : leadingExponent (units n) unitsPerOne + 1 = k + p := by omega
    rw [hexp, ← rational_pow] at hlead
    exact (rational_strictMono k).lt_iff_lt.mp (hlo.trans_lt hlead)
  rw [closest, ← hk] at h
  simp only at h
  split at h
  · split at h
    · cases h
      exact divNearest_of_neighbours (p := (· ≤ 10 ^ p)) hc.le hc
    · cases h
      exact hc.le
  · split at h
    · cases h
      exact hc
    · cases h

theorem digits_trim_le (d : Decimal) : d.trim.digits ≤ d.digits := by
  induction d using trim.induct with
  | case1 d h ih =>
      rw [trim, dif_pos h]
      exact ih.trans (Nat.div_le_self _ _)
  | case2 d h => rw [trim, dif_neg h]

theorem decimalLength_le {n p : Nat} (h0 : n ≠ 0) (h : n < 10 ^ p) : decimalLength n ≤ p := by
  have hlt : decimalLength n - 1 < p :=
    (Nat.pow_lt_pow_iff_right (by decide)).mp ((pow_decimalLength_le h0).trans_lt h)
  omega

/-- **No fewer digits read back** than those of the shortest decimal. -/
theorem decimalLength_shortest_le {n : Nat} (h0 : 0 < n) (hn : n < infinityRank) {e : Decimal}
    (he : e.rank = n) : decimalLength (shortest n).digits ≤ decimalLength e.digits := by
  obtain ⟨p, d, hp, hd, hnone, hshort⟩ := exists_closest h0 hn
  have hmod := mod_shortest h0 hn
  rw [hshort] at hmod ⊢
  -- a power of ten has lost its zeros, and any other number of as many digits is less
  have hlt : d.trim.digits < 10 ^ p := by
    refine lt_of_le_of_ne ((digits_trim_le d).trans (digits_closest_le h0 hd)) fun heq => ?_
    rw [heq] at hmod
    exact hmod (Nat.mod_eq_zero_of_dvd (dvd_pow_self 10 (by omega)))
  have hle : decimalLength d.trim.digits ≤ p := decimalLength_le (fun h => hmod (by rw [h])) hlt
  by_contra hgt
  have hpos := decimalLength_pos e.digits
  exact closest_ne_none h0 hn hpos (lt_pow_decimalLength _) he (hnone _ hpos (by omega))

end Abacus.Decimal
