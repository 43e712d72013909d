import Abacus.Proofs.Binary64.Sign

/-!
# Binary64 — equality of doubles

Two doubles are the same when their words are; `==` compares them as numbers.  The two part in two
places only: `0` and `-0` are equal, and the value that is no number equals nothing.

* `beq_zero_iff`: what equals zero is `0` or `-0`.
* `beq_iff_eq_of_unsigned`: numbers without a sign bit are equal when they are the same.
* `eq_notNumber_of_rank`: there is one value that is no number, and it has no sign bit.
* `neg_eq_ofRank`: taking away a sign bit leaves the rank.
-/

namespace Abacus.Binary64
open Float.Model Float.Model.UnpackedFloat

/-! ### Comparing numbers -/

theorem beq_zero_iff {x : Float} : (x == 0) = true ↔ x = 0 ∨ x = -0 := by
  have hzero : (0 : Float) ≠ Float.nan := by decide
  have hsigned : (-0 : Float) ≠ Float.nan := by decide
  have hne : (0 : Float) ≠ -0 := by decide
  rw [Float.beq_iff_ne_nan_and_eq]
  constructor
  · rintro ⟨-, -, h | ⟨-, h⟩ | ⟨h, -⟩⟩
    · exact .inl h
    · exact absurd h hne
    · exact .inr h
  · rintro (rfl | rfl)
    · exact ⟨hzero, hzero, .inl rfl⟩
    · exact ⟨hsigned, hzero, .inr (.inr ⟨rfl, rfl⟩)⟩

theorem isNaN_iff {x : Float} : x.isNaN = true ↔ x = notNumber := by
  rw [Float.isNaN_eq_decide_eq_nan, decide_eq_true_eq]
  rfl

/-- Numbers without a sign bit are equal when they are the same. -/
theorem beq_iff_eq_of_unsigned {x y : Float} (hx : isNegative x = false) (hy : isNegative y = false)
    (hn : x.isNaN = false) : (x == y) = true ↔ x = y := by
  have hsign : isNegative (-0) = true := by decide
  have hx' : x ≠ Float.nan := fun h => by rw [isNaN_iff.mpr h] at hn; cases hn
  rw [Float.beq_iff_ne_nan_and_eq]
  constructor
  · rintro ⟨-, -, h | ⟨-, rfl⟩ | ⟨rfl, -⟩⟩
    · exact h
    · rw [hsign] at hy; cases hy
    · rw [hsign] at hx; cases hx
  · rintro rfl
    exact ⟨hx', hx', .inl rfl⟩

/-! ### Ranks above infinity's -/

/-- There is one value that is no number. -/
theorem eq_notNumber_of_rank {x : Float} (h : infinityRank < rank x) : x = notNumber := by
  have he : @unpackExponent Format.binary64 x.toBits.toBitVec = -1#11 :=
    unpackExponent_eq_iff.mpr h.le
  -- with the exponent of infinity and another rank, the significand is not zero
  have hm : @unpackMantissa Format.binary64 x.toBits.toBitVec ≠ 0#52 := by
    intro hm
    have he' := congrArg BitVec.toNat he
    have hm' := congrArg BitVec.toNat hm
    rw [toNat_unpackExponent] at he'
    rw [toNat_unpackMantissa] at hm'
    change x.toBits.toNat / block % 2048 = 2047 at he'
    change x.toBits.toNat % block = 0 at hm'
    unfold rank infinityRank signBit block at *
    omega
  exact Float.toBits_inj.mp (UInt64.toBitVec_inj.mp (x.toModel.valid.eq_packedNaN he hm))

theorem isNegative_of_rank {x : Float} (h : infinityRank < rank x) : isNegative x = false := by
  rw [eq_notNumber_of_rank h]
  decide

theorem isNaN_ofRank (negative : Bool) (n : Nat) : (ofRank negative n).isNaN = false := by
  rw [Bool.eq_false_iff]
  intro h
  have hr := rank_ofRank negative n
  rw [isNaN_iff.mp h] at hr
  have hn : infinityRank < rank notNumber := by decide
  omega

/-! ### Taking a sign away -/

theorem rank_le_of_isNegative {x : Float} (h : isNegative x = true) : rank x ≤ infinityRank := by
  by_contra hr
  rw [isNegative_of_rank (Nat.lt_of_not_le hr)] at h
  cases h

/-- The negation of a double with a sign bit is the double of its rank. -/
theorem neg_eq_ofRank {x : Float} (h : isNegative x = true) : -x = ofRank false (rank x) := by
  have hr := rank_le_of_isNegative h
  conv_lhs => rw [← ofRank_rank hr, h]
  rcases Nat.lt_or_eq_of_le hr with hlt | heq
  · rw [neg_ofRank true hlt, Bool.not_true]
  · rw [heq]
    decide

end Abacus.Binary64
