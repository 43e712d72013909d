import Abacus.Proofs.Binary64.Equality
import Abacus.Proofs.Binary64.Nearest

/-!
# Binary64 — the value of a double and the double of a value

`toRat` is the number a finite double stands for, read off its sign, significand and exponent.
`Nearest q x` says, of all doubles and in terms of these numbers only, that `x` is the one a number
`q` is rounded to.

* `toRat_eq`: the value of a double is the magnitude of its rank, with its sign.
* `nearest_ofRank`: the double of the rank that `nearestRank` computes is the one its quotient is
  rounded to, infinity from half a step past the largest double on.
-/

namespace Abacus.Binary64
open Float.Model Float.Model.UnpackedFloat

/-- The exact value of a finite double; the other values stand for no number and are given zero. -/
def toRat (x : Float) : ℚ :=
  match x.toModel.unpack with
  | .finite s m e _ => (s.apply m : ℤ) * 2 ^ e
  | _ => 0

/-- Half a step past the largest double, where infinity begins. -/
def overflow : ℚ := 2 ^ 1024 - 2 ^ 970

/-- The double that a number which is not negative is rounded to: it is nowhere further from it
than another, the last binary digit of the significand is `0` when another is as near, and from
`overflow` on it is infinity. -/
structure Nearest (q : ℚ) (x : Float) : Prop where
  unsigned : isNegative x = false
  number : x.isNaN = false
  eq_infinity_iff : x = infinity false ↔ overflow ≤ q
  near : q < overflow → x.isFinite = true ∧ ∀ y : Float, y.isFinite = true →
    |toRat x - q| ≤ |toRat y - q| ∧
      (|toRat y - q| = |toRat x - q| → toRat y = toRat x ∨ Even x.toBits.toNat)

/-! ### Magnitudes -/

/-- The number that a finite rank's magnitude is. -/
def magnitude (n : Nat) : ℚ := units n / unitsPerOne

theorem magnitude_zero : magnitude 0 = 0 := by
  rw [magnitude, units_zero, Nat.cast_zero, zero_div]

theorem magnitude_strictMono : StrictMono magnitude := fun m n h => by
  have hU : (0 : ℚ) < unitsPerOne := by exact_mod_cast unitsPerOne_pos
  exact (div_lt_div_iff_of_pos_right hU).mpr (by exact_mod_cast units_strictMono h)

theorem magnitude_nonneg (n : Nat) : 0 ≤ magnitude n :=
  magnitude_zero ▸ magnitude_strictMono.monotone n.zero_le

/-- The ranks from `s · block` on count in steps of `2 ^ (s - 1074)`. -/
theorem magnitude_block {s r : Nat} (h : s = 0 ∨ block ≤ r) (hr : r ≤ 2 * block) :
    magnitude (s * block + r) = r * 2 ^ ((s : ℤ) - 1074) := by
  obtain ⟨u, hu, hU⟩ := exists_unitsPerOne
  have hz : (1074 : ℤ) = (u : ℤ) := by exact_mod_cast hu.symm
  rw [magnitude, units_block h hr, hU, hz, zpow_sub₀ two_ne_zero, zpow_natCast, zpow_natCast]
  push_cast
  rw [mul_div_assoc]

/-- A finite magnitude is a significand of at most 53 binary digits at one of 2046 exponents. -/
theorem exists_magnitude {n : Nat} (hn : n < infinityRank) : ∃ s r : ℕ, s ≤ 2045 ∧
    magnitude n = r * 2 ^ ((s : ℤ) - 1074) ∧ magnitude n < 2 ^ ((s : ℤ) - 1021) := by
  obtain ⟨r, hr, hs, hlt, -⟩ := exists_units n
  have hstep : step n ≤ 2045 := by
    unfold step infinityRank block at *
    omega
  have hmag : magnitude n = r * 2 ^ ((step n : ℤ) - 1074) := by
    conv_lhs => rw [hr]
    exact magnitude_block hs hlt.le
  have hr53 : (r : ℚ) < 2 ^ (53 : ℤ) := by
    rw [block_eq, ← pow_succ'] at hlt
    exact_mod_cast hlt
  have hexp : (step n : ℤ) - 1021 = 53 + (step n - 1074) := by ring
  refine ⟨step n, r, hstep, hmag, ?_⟩
  rw [hmag, hexp, zpow_add₀ two_ne_zero]
  exact mul_lt_mul_of_pos_right hr53 (zpow_pos two_pos _)

theorem two_block : ((2 * block : ℕ) : ℚ) = 2 ^ 53 := by
  rw [block_eq, ← pow_succ', Nat.cast_pow, Nat.cast_ofNat]

theorem magnitude_infinityRank : magnitude infinityRank = 2 ^ 53 * 2 ^ (971 : ℤ) := by
  have h := magnitude_block (s := 2045) (r := 2 * block) (.inr (by decide)) le_rfl
  have htop : 2045 * block + 2 * block = infinityRank := by decide
  have hs : ((2045 : ℕ) : ℤ) - 1074 = 971 := by decide
  rw [htop, hs] at h
  rw [h, two_block]

theorem magnitude_largest : magnitude (infinityRank - 1) = (2 ^ 53 - 1) * 2 ^ (971 : ℤ) := by
  have h := magnitude_block (s := 2045) (r := 2 * block - 1) (.inr (by decide)) (by decide)
  have htop : 2045 * block + (2 * block - 1) = infinityRank - 1 := by decide
  have hs : ((2045 : ℕ) : ℤ) - 1074 = 971 := by decide
  rw [htop, hs] at h
  rw [h, Nat.cast_pred (by decide), two_block]

/-- Infinity begins half way between the largest double and its own rank's magnitude. -/
theorem magnitude_add_infinityRank :
    magnitude (infinityRank - 1) + magnitude infinityRank = 2 * overflow := by
  have hstep : (2 : ℚ) ^ (971 : ℤ) = 2 * 2 ^ 970 := (zpow_natCast 2 971).trans (pow_succ' 2 970)
  have htop : (2 : ℚ) ^ 1024 = 2 ^ 54 * 2 ^ 970 := pow_add 2 54 970
  rw [magnitude_largest, magnitude_infinityRank, overflow, hstep, htop]
  generalize (2 : ℚ) ^ 970 = t
  ring

/-! ### Values -/

theorem apply_sign (x : Float) (m : Int) :
    (Sign.ofBitVec (@unpackSign Format.binary64 x.toBits.toBitVec)).apply m =
      if isNegative x then -m else m := by
  have h := toNat_neg_sign x.toBits.toBitVec
  have hb : x.toBits.toBitVec.toNat = x.toBits.toNat := rfl
  unfold isNegative
  cases hs : Sign.ofBitVec (@unpackSign Format.binary64 x.toBits.toBitVec) with
  | negative =>
      rw [hs, hb] at h
      have hneg : signBit ≤ x.toBits.toNat := by
        by_contra hlt
        rw [Nat.div_eq_of_lt (Nat.lt_of_not_le hlt)] at h
        cases h
      rw [decide_eq_true hneg]
      rfl
  | positive =>
      rw [hs, hb] at h
      have hneg : ¬ signBit ≤ x.toBits.toNat := by
        intro hle
        have : 1 = 1 - x.toBits.toNat / signBit := h
        have := Nat.div_pos hle (by decide)
        omega
      rw [decide_eq_false hneg]
      rfl

/-- A significand among the steps of a block, with the sign of its double. -/
theorem apply_mul_zpow {x : Float} {s r : Nat} {e : ℤ} (hx : rank x = s * block + r)
    (h : s = 0 ∨ block ≤ r) (hr : r ≤ 2 * block) (he : e = s - 1074) :
    ((Sign.ofBitVec (@unpackSign Format.binary64 x.toBits.toBitVec)).apply r : ℚ) * 2 ^ e =
      if isNegative x then -magnitude (rank x) else magnitude (rank x) := by
  rw [hx, magnitude_block h hr, he, apply_sign]
  split
  · rw [Int.cast_neg, Int.cast_natCast, neg_mul]
  · rw [Int.cast_natCast]

/-- The rank is the exponent and the significand, as the word has them. -/
theorem rank_eq_components (x : Float) :
    rank x = (@unpackExponent Format.binary64 x.toBits.toBitVec).toNat * block +
      (@unpackMantissa Format.binary64 x.toBits.toBitVec).toNat := by
  rw [toNat_unpackExponent, toNat_unpackMantissa]
  change x.toBits.toNat % signBit = x.toBits.toNat / block % 2048 * block + x.toBits.toNat % block
  unfold signBit block
  omega

/-- The value of a double is the magnitude of its rank, with its sign. -/
theorem toRat_eq {x : Float} (h : rank x < infinityRank) :
    toRat x = if isNegative x then -magnitude (rank x) else magnitude (rank x) := by
  have hexp : @unpackExponent Format.binary64 x.toBits.toBitVec ≠ -1#11 := fun he =>
    absurd (unpackExponent_eq_iff.mp he) h.not_ge
  have hrank := rank_eq_components x
  have hbias : (Format.binary64.exponentBias : ℤ) + (52 : ℕ) = 1075 := by decide
  have hlt : (@unpackMantissa Format.binary64 x.toBits.toBitVec).toNat < block :=
    (@unpackMantissa Format.binary64 x.toBits.toBitVec).isLt
  change (match UnpackedFloat.unpack Format.binary64 x.toBits.toBitVec with
    | .finite s m e _ => (s.apply m : ℚ) * 2 ^ e
    | _ => 0) = _
  rw [UnpackedFloat.unpack]
  simp only [if_neg hexp, hbias]
  by_cases hsub : @unpackExponent Format.binary64 x.toBits.toBitVec = 0#11
  · have hx : rank x = 0 * block + (@unpackMantissa Format.binary64 x.toBits.toBitVec).toNat := by
      rw [hrank, hsub]
      rfl
    rw [if_pos hsub]
    by_cases hzero : @unpackMantissa Format.binary64 x.toBits.toBitVec = 0#52
    · rw [dif_pos hzero]
      rw [hzero] at hx
      rw [hx]
      simp [magnitude_zero]
    · rw [dif_neg hzero]
      refine apply_mul_zpow hx (.inl rfl) (by omega) ?_
      rw [hsub]
      rfl
  · obtain ⟨s, hs⟩ := Nat.exists_eq_succ_of_ne_zero fun h => hsub (BitVec.eq_of_toNat_eq h)
    rw [hs, Nat.succ_mul, Nat.add_assoc] at hrank
    rw [if_neg hsub]
    refine apply_mul_zpow (s := s) ?_ (.inr ?_) ?_ ?_
    · rw [hrank, toNat_implicit]
    · rw [toNat_implicit]
      omega
    · rw [toNat_implicit]
      omega
    · rw [hs]
      omega

theorem toRat_ofRank (negative : Bool) {n : Nat} (h : n < infinityRank) :
    toRat (ofRank negative n) = if negative then -magnitude n else magnitude n := by
  have hn : rank (ofRank negative n) = n := by rw [rank_ofRank, Nat.min_eq_left h.le]
  rw [toRat_eq (hn.symm ▸ h), isNegative_ofRank, hn]

theorem abs_toRat {x : Float} (h : rank x < infinityRank) : |toRat x| = magnitude (rank x) := by
  rw [toRat_eq h]
  split
  · rw [abs_neg, abs_of_nonneg (magnitude_nonneg _)]
  · exact abs_of_nonneg (magnitude_nonneg _)

theorem toRat_ne_zero_iff {x : Float} (h : rank x < infinityRank) : toRat x ≠ 0 ↔ 0 < rank x := by
  rw [← abs_pos, abs_toRat h, ← magnitude_zero, magnitude_strictMono.lt_iff_lt]

/-- A sign bit makes all but zero negative. -/
theorem toRat_lt_zero_iff {x : Float} (h : rank x < infinityRank) (h0 : toRat x ≠ 0) :
    toRat x < 0 ↔ isNegative x = true := by
  have hpos : 0 < magnitude (rank x) := magnitude_zero ▸
    magnitude_strictMono ((toRat_ne_zero_iff h).mp h0)
  rw [toRat_eq h]
  cases isNegative x with
  | false => exact iff_of_false hpos.not_gt Bool.false_ne_true
  | true => exact iff_of_true (neg_lt_zero.mpr hpos) rfl

/-! ### Rounding -/

theorem roundsTo_magnitude (a : Nat) {b : Nat} (hb : 0 < b) :
    RoundsTo magnitude (a / b) (unbounded (a * unitsPerOne) b) := by
  have hU : (0 : ℚ) < unitsPerOne := by exact_mod_cast unitsPerOne_pos
  have h := (roundsTo_unbounded (a * unitsPerOne) hb).mul_right (inv_pos.mpr hU)
  have hq : ((a * unitsPerOne : ℕ) : ℚ) / b * (unitsPerOne : ℚ)⁻¹ = a / b := by
    push_cast
    field_simp
  simp only [hq, ← div_eq_mul_inv] at h
  exact h

/-- No negative double is nearer to a number that is not negative than zero is. -/
theorem near_toRat {q : ℚ} {n : Nat} (hq : 0 ≤ q) (h : RoundsTo magnitude q n) {y : Float}
    (hy : rank y < infinityRank) :
    |magnitude n - q| ≤ |toRat y - q| ∧
      (|toRat y - q| = |magnitude n - q| → toRat y = magnitude n ∨ Even n) := by
  rw [toRat_eq hy]
  split
  · have hm := magnitude_nonneg (rank y)
    obtain ⟨hnear, htie⟩ := h 0
    have hneg : |-magnitude (rank y) - q| = magnitude (rank y) + q := by
      rw [abs_of_nonpos (by linarith)]
      ring
    rw [magnitude_zero, zero_sub, abs_neg, abs_of_nonneg hq] at hnear htie
    rw [hneg]
    refine ⟨by linarith, fun he => (htie (by linarith)).imp_left fun h0 => ?_⟩
    rw [← h0, magnitude_zero] at he ⊢
    rw [zero_sub, abs_neg, abs_of_nonneg hq] at he
    linarith
  · obtain ⟨hnear, htie⟩ := h (rank y)
    exact ⟨hnear, fun he => (htie he).imp_left (congrArg magnitude)⟩

theorem infinityRank_le_iff {q : ℚ} {n : Nat} (h : RoundsTo magnitude q n) :
    infinityRank ≤ n ↔ overflow ≤ q := by
  have hlast : infinityRank - 1 + 1 = infinityRank := by decide
  have hlt := h.lt_iff magnitude_strictMono (k := infinityRank - 1) (by decide)
  rw [hlast, magnitude_add_infinityRank, mul_le_mul_iff_right₀ two_pos] at hlt
  rw [← hlt]
  omega

/-- The double of the rank a number is rounded to, infinity's when there is none. -/
theorem nearest_of_roundsTo {q : ℚ} {n : Nat} (hq : 0 ≤ q) (h : RoundsTo magnitude q n) :
    Nearest q (ofRank false (min n infinityRank)) := by
  refine ⟨isNegative_ofRank false _, isNaN_ofRank false _, ?_, fun hlt => ?_⟩
  · rw [← infinityRank_le_iff h]
    constructor
    · intro he
      have hrank := congrArg rank he
      rw [infinity, rank_ofRank, rank_ofRank, Nat.min_self] at hrank
      omega
    · intro hle
      rw [Nat.min_eq_right hle, infinity]
  · have hn : n < infinityRank := by
      rw [← not_le, infinityRank_le_iff h]
      exact hlt.not_ge
    have hrank : rank (ofRank false n) < infinityRank := by
      rwa [rank_ofRank, Nat.min_eq_left hn.le]
    have hword : (ofRank false n).toBits.toNat = n := by
      rw [toNat_toBits_ofRank, word, Nat.min_eq_left hn.le]
      exact Nat.zero_add n
    rw [Nat.min_eq_left hn.le, toRat_ofRank false hn, hword]
    exact ⟨isFinite_iff.mpr hrank, fun y hy => near_toRat hq h (isFinite_iff.mp hy)⟩

/-- **The double of a quotient is the one it is rounded to.** -/
theorem nearest_ofRank (a : Nat) {b : Nat} (hb : 0 < b) :
    Nearest (a / b) (ofRank false (nearestRank a b)) := by
  rw [nearestRank_eq_min]
  exact nearest_of_roundsTo (by positivity) (roundsTo_magnitude a hb)

end Abacus.Binary64
