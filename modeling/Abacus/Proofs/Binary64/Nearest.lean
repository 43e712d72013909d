import Abacus.Binary64.Rank
import Abacus.Proofs.Rounding

/-!
# Binary64 — the nearest rank

Magnitudes are counted in units of the least positive double, and a quotient `a / b` is near a rank
`n` when `units n · b` is near `a · unitsPerOne`: both sides are whole numbers, so nothing is
rounded in saying so.

* `units_block`: the ranks from `s · block` on count in steps of `2 ^ s`; hence `units_succ`,
  `units_strictMono` and `units_le_gap` — no finite magnitude is more than `2 ^ 53` of the steps
  below it, which is all that is said about precision later.
* `roundsTo_unbounded`: the rank `nearestRank` computes, before it is cut at infinity's, is the one
  the quotient is rounded to.
* `nearestRank_eq`: a finite rank nearer to the quotient than its two neighbours is the one
  computed.
-/

namespace Abacus

namespace Binary64

/-! ### Steps -/

theorem block_eq : block = 2 ^ 52 := rfl

theorem units_eq (n : Nat) :
    units n = (n - (n / block - 1) * block) * 2 ^ (n / block - 1) := Nat.shiftLeft_eq _ _

/-- The ranks from `s · block` on count in steps of `2 ^ s`. -/
theorem units_block {s r : Nat} (h : s = 0 ∨ block ≤ r) (hr : r ≤ 2 * block) :
    units (s * block + r) = r * 2 ^ s := by
  rw [units_eq]
  by_cases htop : r = 2 * block
  · -- the first rank of the block after the next
    have hq : (s * block + r) / block - 1 = s + 1 := by unfold block at *; omega
    have hm : s * block + r - (s + 1) * block = block := by unfold block at *; omega
    rw [hq, hm, htop, pow_succ]
    ring
  · have hq : (s * block + r) / block - 1 = s := by unfold block at *; omega
    rw [hq, Nat.add_sub_cancel_left]

/-- The step above a rank, as an exponent. -/
def step (n : Nat) : Nat := n / block - 1

theorem exists_units (n : Nat) : ∃ r, n = step n * block + r ∧ (step n = 0 ∨ block ≤ r) ∧
    r < 2 * block ∧ units n = r * 2 ^ step n := by
  refine ⟨n - step n * block, ?_, ?_, ?_, units_eq n⟩ <;> unfold step block <;> omega

theorem units_succ (n : Nat) : units (n + 1) = units n + 2 ^ step n := by
  obtain ⟨r, hn, hr, hlt, hu⟩ := exists_units n
  have h : units (step n * block + (r + 1)) = (r + 1) * 2 ^ step n :=
    units_block (hr.imp_right Nat.le_succ_of_le) hlt
  rw [← Nat.add_assoc, ← hn] at h
  rw [h, hu, Nat.succ_mul]

theorem units_strictMono : StrictMono units :=
  strictMono_nat_of_lt_succ fun n => by
    rw [units_succ]
    exact Nat.lt_add_of_pos_right (by positivity)

theorem units_zero : units 0 = 0 := by decide

/-- The exponent as a variable, for it is too large to compute with. -/
theorem exists_unitsPerOne : ∃ u, u = 1074 ∧ unitsPerOne = 2 ^ u := by
  rw [unitsPerOne]
  generalize 1074 = u
  exact ⟨u, rfl, by rw [Nat.shiftLeft_eq, Nat.one_mul]⟩

theorem unitsPerOne_pos : 0 < unitsPerOne := by
  obtain ⟨u, -, hU⟩ := exists_unitsPerOne
  rw [hU]
  exact Nat.two_pow_pos u

/-- A magnitude is no more than `2 ^ 53` of the steps that lead up to it. -/
theorem units_le_gap (n : Nat) : units (n + 1) ≤ 2 ^ 53 * (units (n + 1) - units n) := by
  obtain ⟨r, -, -, hlt, hu⟩ := exists_units n
  have hgap : units (n + 1) - units n = 2 ^ step n := by
    rw [units_succ, Nat.add_sub_cancel_left]
  rw [hgap, units_succ, hu, ← Nat.succ_mul]
  exact Nat.mul_le_mul_right _ (by unfold block at hlt; omega)

/-- A rank in a later block counts in multiples of the earlier step. -/
theorem dvd_units {s n : Nat} (h : s = 0 ∨ (s + 1) * block ≤ n) : 2 ^ s ∣ units n := by
  obtain ⟨r, -, -, -, hu⟩ := exists_units n
  have hs : s ≤ step n := by
    rcases h with rfl | h
    · exact Nat.zero_le _
    · unfold step block at *; omega
  rw [hu]
  exact (pow_dvd_pow 2 hs).mul_left r

/-! ### The nearest rank -/

/-- The exponent of the steps around a quotient counted in units. -/
def shift (a b : Nat) : Nat := (a / b).log2 - 52

/-- The nearest rank to `a / b`, both counted in units, as if there were no largest one. -/
def unbounded (a b : Nat) : Nat := shift a b * block + divNearest a (b * 2 ^ shift a b)

theorem nearestRank_eq_min (a b : Nat) :
    nearestRank a b = min (unbounded (a * unitsPerOne) b) infinityRank := by
  rw [nearestRank]
  simp only [Nat.shiftLeft_eq]
  rfl

/-- The quotient lies among the ranks that count in its steps. -/
theorem shift_spec (a : Nat) {b : Nat} (hb : 0 < b) :
    (shift a b = 0 ∨ block * (b * 2 ^ shift a b) ≤ a) ∧ a < 2 * block * (b * 2 ^ shift a b) := by
  have hlt : a < 2 ^ ((a / b).log2 + 1) * b :=
    (Nat.div_lt_iff_lt_mul hb).mp Nat.lt_log2_self
  rw [shift, block_eq]
  by_cases h : (a / b).log2 ≤ 52
  · rw [Nat.sub_eq_zero_of_le h]
    refine ⟨.inl rfl, hlt.trans_le ?_⟩
    calc 2 ^ ((a / b).log2 + 1) * b ≤ 2 ^ 53 * b :=
          Nat.mul_le_mul_right b (Nat.pow_le_pow_right (by decide) (by omega))
      _ = 2 * 2 ^ 52 * (b * 2 ^ 0) := by ring
  · have hne : a / b ≠ 0 := by
      intro h0
      rw [h0] at h
      exact h (by decide)
    have hle : 2 ^ (a / b).log2 * b ≤ a := (Nat.le_div_iff_mul_le hb).mp (Nat.log2_self_le hne)
    generalize hs : (a / b).log2 = k at *
    obtain ⟨s, rfl⟩ : ∃ s, k = s + 52 := ⟨k - 52, by omega⟩
    rw [Nat.add_sub_cancel]
    refine ⟨.inr (le_of_eq_of_le ?_ hle), lt_of_lt_of_eq hlt ?_⟩
    · rw [pow_add]; ring
    · rw [pow_succ, pow_add]; ring

theorem divNearest_bounds {a b k m : Nat} (hb : 0 < b) (hlo : k * b ≤ a) (hhi : a < m * b) :
    k ≤ divNearest a b ∧ divNearest a b ≤ m := by
  have h₁ : k ≤ a / b := (Nat.le_div_iff_mul_le hb).mpr hlo
  have h₂ : a / b < m := (Nat.div_lt_iff_lt_mul hb).mpr hhi
  rcases divNearest_eq_or a b with h | h <;> omega

/-- The rank before the cut is a multiple of the quotient's steps. -/
theorem units_unbounded (a : Nat) {b : Nat} (hb : 0 < b) :
    units (unbounded a b) = divNearest a (b * 2 ^ shift a b) * 2 ^ shift a b := by
  obtain ⟨hlo, hhi⟩ := shift_spec a hb
  have hB : 0 < b * 2 ^ shift a b := by positivity
  refine units_block (hlo.imp_right fun h => ?_) ?_
  · exact (divNearest_bounds hB h hhi).1
  · exact (divNearest_bounds hB (Nat.zero_mul _ ▸ Nat.zero_le a) hhi).2

/-- **The rank before the cut is the one the quotient is rounded to**, on the scale of all
magnitudes. -/
theorem roundsTo_unbounded (a : Nat) {b : Nat} (hb : 0 < b) :
    RoundsTo (fun m => (units m : ℚ)) (a / b) (unbounded a b) := by
  obtain ⟨hlo, -⟩ := shift_spec a hb
  have hB : 0 < b * 2 ^ shift a b := by positivity
  have hb' : (0 : ℚ) < b := by exact_mod_cast hb
  -- on the quotient's own steps it is whole numbers that are rounded
  have hgrid := (roundsTo_divNearest a hB).mul_right (t := 2 ^ shift a b) (by positivity)
  have hq : (a : ℚ) / (b * 2 ^ shift a b : ℕ) * 2 ^ shift a b = a / b := by
    push_cast
    field_simp
  have hunits : (units (unbounded a b) : ℚ) =
      divNearest a (b * 2 ^ shift a b) * 2 ^ shift a b := by
    exact_mod_cast units_unbounded a hb
  have heven : Even (divNearest a (b * 2 ^ shift a b)) → Even (unbounded a b) := fun h =>
    Even.add (Even.mul_left (by decide) _) h
  rw [hq] at hgrid
  intro m
  simp only [hunits]
  by_cases hm : shift a b = 0 ∨ (shift a b + 1) * block ≤ m
  · obtain ⟨j, hj⟩ := dvd_units hm
    have hmul : (units m : ℚ) = j * 2 ^ shift a b := by
      rw [hj, mul_comm]
      push_cast
      rfl
    obtain ⟨hle, htie⟩ := hgrid j
    rw [hmul]
    refine ⟨hle, fun h => (htie h).imp (fun hjk => units_strictMono.injective ?_) heven⟩
    rw [hj, hjk, units_unbounded a hb, mul_comm]
  · -- the first rank of the quotient's block lies between `m` and the quotient
    obtain ⟨hs, hm⟩ := not_or.mp hm
    have hfirst : units ((shift a b + 1) * block) = block * 2 ^ shift a b := by
      rw [Nat.succ_mul]
      exact units_block (.inr le_rfl) (by unfold block; decide)
    have hlt : (units m : ℚ) < block * 2 ^ shift a b := by
      exact_mod_cast hfirst ▸ units_strictMono (Nat.lt_of_not_le hm)
    have hle : (block : ℚ) * 2 ^ shift a b ≤ a / b := by
      rw [le_div_iff₀ hb', mul_right_comm, mul_assoc]
      exact_mod_cast hlo.resolve_left hs
    have hfar : |(block : ℚ) * 2 ^ shift a b - a / b| < |(units m : ℚ) - a / b| := by
      rw [abs_of_nonpos (by linarith), abs_of_neg (by linarith)]
      linarith
    have hnear := (hgrid block).1.trans_lt hfar
    exact ⟨hnear.le, fun h => absurd h hnear.ne'⟩

/-- The same distances in whole numbers. -/
theorem nearest_unbounded (a n : Nat) {b : Nat} (hb : 0 < b) :
    |(units (unbounded a b) * b : ℤ) - a| ≤ |(units n * b : ℤ) - a| := by
  have hb' : (0 : ℚ) < b := by exact_mod_cast hb
  have h := (roundsTo_unbounded a hb n).1
  rw [abs_sub_div _ a hb, abs_sub_div _ a hb, div_le_div_iff_of_pos_right hb'] at h
  exact Int.cast_le.mp h

/-- A quotient nearer to a rank than half the way to any other has that rank before the cut. -/
theorem unbounded_eq {a b n : Nat} (hb : 0 < b)
    (hlo : ∀ m < n, (units m + units n) * b < 2 * a)
    (hhi : ∀ m > n, 2 * a < (units n + units m) * b) : unbounded a b = n := by
  have hnear := nearest_unbounded a n hb
  generalize unbounded a b = m at hnear
  rcases Nat.lt_trichotomy m n with h | h | h
  · have hmid := hlo m h
    have hmono := Nat.mul_lt_mul_of_pos_right (units_strictMono h) hb
    zify at hmid hmono
    rw [abs_of_neg (by linarith)] at hnear
    rcases abs_cases ((units n * b : ℤ) - a) with ⟨he, -⟩ | ⟨he, -⟩ <;> linarith
  · exact h
  · have hmid := hhi m h
    have hmono := Nat.mul_lt_mul_of_pos_right (units_strictMono h) hb
    zify at hmid hmono
    rw [abs_of_pos (by linarith)] at hnear
    rcases abs_cases ((units n * b : ℤ) - a) with ⟨he, -⟩ | ⟨he, -⟩ <;> linarith

theorem nearestRank_eq {a b n : Nat} (hb : 0 < b) (hn : n < infinityRank)
    (hlo : ∀ m < n, (units m + units n) * b < 2 * (a * unitsPerOne))
    (hhi : ∀ m > n, 2 * (a * unitsPerOne) < (units n + units m) * b) : nearestRank a b = n := by
  rw [nearestRank_eq_min, unbounded_eq hb hlo hhi, Nat.min_eq_left hn.le]

/-- A quotient past infinity's magnitude has infinity's rank. -/
theorem nearestRank_of_large {a b : Nat} (hb : 0 < b)
    (h : units infinityRank * b ≤ a * unitsPerOne) : nearestRank a b = infinityRank := by
  rw [nearestRank_eq_min]
  refine Nat.min_eq_right (Nat.le_of_not_lt fun hlt => ?_)
  have hnear := nearest_unbounded (a * unitsPerOne) infinityRank hb
  have hmono := Nat.mul_lt_mul_of_pos_right (units_strictMono hlt) hb
  zify at h hmono
  rw [abs_of_neg (by push_cast; linarith), abs_of_nonpos (by push_cast; linarith)] at hnear
  linarith

/-- Only the quotient counts. -/
theorem nearestRank_mul_left {c : Nat} (hc : 0 < c) (a b : Nat) :
    nearestRank (c * a) (c * b) = nearestRank a b := by
  rw [nearestRank_eq_min, nearestRank_eq_min, Nat.mul_assoc c]
  unfold unbounded shift
  rw [Nat.mul_div_mul_left _ _ hc, Nat.mul_assoc c, divNearest_mul_left hc]

theorem nearestRank_congr {a b a' b' : Nat} (hb : 0 < b) (hb' : 0 < b') (h : a * b' = a' * b) :
    nearestRank a b = nearestRank a' b' := by
  rw [← nearestRank_mul_left hb' a b, ← nearestRank_mul_left hb a' b', mul_comm b', h, mul_comm a',
    mul_comm b']

end Binary64

end Abacus
