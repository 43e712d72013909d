import Abacus.Rounding

/-!
# Binary64 — ranks

A double is a sign and a *rank*, the place of its magnitude in the order of all magnitudes: `0`
is the rank of zero, `1` that of the least positive double, `infinityRank` that of infinity, and
above it stands the one value that is no number.  The rank is the word without its sign bit, so
`ofRank` and `rank` undo one another (`rank_ofRank`), and the significand of a double is even
exactly when its rank is.
-/

namespace Abacus.Binary64
open Float.Model Float.Model.UnpackedFloat

/-- The number of ranks that share an exponent, 2⁵². -/
def block : Nat := 0x10000000000000

/-- The word of the sign alone. -/
def signBit : Nat := 2048 * block

/-- The rank of infinity. -/
def infinityRank : Nat := 2047 * block

/-- The sign bit. -/
def isNegative (x : Float) : Bool := decide (signBit ≤ x.toBits.toNat)

/-- The place of a double's magnitude among all magnitudes. -/
def rank (x : Float) : Nat := x.toBits.toNat % signBit

/-- The word of a sign and a rank; ranks above infinity's are taken for it. -/
def word (negative : Bool) (n : Nat) : Nat :=
  (if negative then signBit else 0) + min n infinityRank

theorem word_lt (negative : Bool) (n : Nat) : word negative n < UInt64.size := by
  unfold word infinityRank signBit block UInt64.size; split <;> omega

theorem toNat_unpackMantissa (b : BitVec 64) :
    (@unpackMantissa Format.binary64 b).toNat = b.toNat % block := by
  simp [unpackMantissa, block]

theorem toNat_unpackExponent (b : BitVec 64) :
    (@unpackExponent Format.binary64 b).toNat = b.toNat / block % 2048 := by
  simp [unpackExponent, Nat.shiftRight_eq_div_pow, block]

/-- No word of a sign and a rank stands for a value that is no number. -/
theorem valid_word (negative : Bool) (n : Nat) :
    Format.binary64.Valid (UInt64.ofNat (word negative n)).toBitVec := by
  have hlt := word_lt negative n
  have hnat : (UInt64.ofNat (word negative n)).toBitVec.toNat = word negative n := by
    simp; omega
  refine ⟨fun he hm => absurd ?_ hm⟩
  have he' := congrArg BitVec.toNat he
  rw [toNat_unpackExponent, hnat] at he'
  apply BitVec.eq_of_toNat_eq
  rw [toNat_unpackMantissa, hnat]
  simp at he' ⊢
  unfold word infinityRank signBit block at he' ⊢
  split at he' <;> simp_all <;> omega

/-- The double of a sign and a rank. -/
def ofRank (negative : Bool) (n : Nat) : Float :=
  .ofModel ⟨UInt64.ofNat (word negative n), valid_word negative n⟩

theorem toNat_toBits_ofRank (negative : Bool) (n : Nat) :
    (ofRank negative n).toBits.toNat = word negative n := by
  show (UInt64.ofNat (word negative n)).toNat = word negative n
  exact UInt64.toNat_ofNat_of_lt' (word_lt negative n)

theorem rank_ofRank (negative : Bool) (n : Nat) :
    rank (ofRank negative n) = min n infinityRank := by
  unfold rank
  rw [toNat_toBits_ofRank]
  unfold word infinityRank signBit block
  split <;> omega

theorem isNegative_ofRank (negative : Bool) (n : Nat) :
    isNegative (ofRank negative n) = negative := by
  unfold isNegative
  rw [toNat_toBits_ofRank]
  unfold word infinityRank signBit block
  cases negative
  · exact decide_eq_false (by simp only [Bool.false_eq_true, if_false]; omega)
  · exact decide_eq_true (by simp only [if_true]; omega)

/-- Infinity. -/
def infinity (negative : Bool) : Float := ofRank negative infinityRank

/-- The value that is no number. -/
def notNumber : Float := 0 / 0

/-- The magnitude of a finite rank, in units of 2⁻¹⁰⁷⁴, the least positive double. -/
def units (n : Nat) : Nat := (n - (n / block - 1) * block) <<< (n / block - 1)

/-- The number of units in one. -/
def unitsPerOne : Nat := 1 <<< 1074

/-- The rank of the double nearest to `a / b`, a half going to the even rank, and infinity's when
the quotient is too large.  The quotient is counted in units and cut to the 53 leading binary
digits a significand holds; a carry out of them is a step into the next block. -/
def nearestRank (a b : Nat) : Nat :=
  let shift := (a * unitsPerOne / b).log2 - 52
  min (shift * block + divNearest (a * unitsPerOne) (b <<< shift)) infinityRank

end Abacus.Binary64
