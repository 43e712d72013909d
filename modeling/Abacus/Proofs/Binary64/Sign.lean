import Abacus.Binary64.Rank
import Mathlib

/-!
# Binary64 — negation and the sign bit

A finite double is the double of its sign and rank, and its negation that of the other sign and
the same rank.  Negation is defined by taking the word apart and putting it together again, so the
second part is a fact about words: `pack_neg_unpack`.
-/

namespace Abacus.Binary64
open Float.Model Float.Model.UnpackedFloat

/-! ### The parts of a word -/

theorem toNat_packComponents (s : Sign) (e : BitVec 11) (m : BitVec 52) :
    (packComponents Format.binary64 s e m).toNat =
      s.toBitVec.toNat * signBit + e.toNat * block + m.toNat := by
  have he := e.isLt
  have hm := m.isLt
  rw [packComponents, BitVec.toNat_append, BitVec.toNat_append, ← Nat.shiftLeft_add_eq_or_of_lt he,
    ← Nat.shiftLeft_add_eq_or_of_lt hm, Nat.shiftLeft_eq, Nat.shiftLeft_eq]
  unfold signBit block
  omega

/-- The significand of an exponent that is not the least has a digit that the word leaves out. -/
theorem toNat_implicit (m : BitVec 52) : (1#1 ++ m).toNat = block + m.toNat := by
  rw [BitVec.toNat_append, ← Nat.shiftLeft_add_eq_or_of_lt m.isLt]
  rfl

theorem pack_normal (s : Sign) {e : BitVec 11} {m : BitVec 52} {x : Int} (he : e ≠ 0#11)
    (he' : e ≠ -1#11) (hx : x = e.toNat - 1075) (hm : 0 < (1#1 ++ m).toNat) :
    UnpackedFloat.pack Format.binary64 (.finite s (1#1 ++ m).toNat x hm) =
      packComponents Format.binary64 s e m := by
  have hlt := m.isLt
  have hlog : (1#1 ++ m).toNat.log2 = 52 := by
    rw [Nat.log2_eq_iff (Nat.ne_of_gt hm), toNat_implicit]
    rw [block]
    omega
  have he0 : e.toNat ≠ 0 := fun h => he (BitVec.eq_of_toNat_eq h)
  have he1 : e.toNat ≠ 2047 := fun h => he' (BitVec.eq_of_toNat_eq h)
  have helt := e.isLt
  have hb : (x + Format.binary64.exponentBias + Format.binary64.mantissaBitsWithoutImplicit).toNat =
      e.toNat := by
    rw [hx]
    show ((e.toNat : Int) - 1075 + 1023 + 52).toNat = e.toNat
    omega
  -- the leading digit is cut off again
  have hm' : BitVec.ofNat 52 (1#1 ++ m).toNat = m := by
    rw [toNat_implicit]
    apply BitVec.eq_of_toNat_eq
    rw [BitVec.toNat_ofNat]
    rw [block]
    omega
  have hfits : ¬ 2 ^ Format.binary64.exponentBits ≤ e.toNat + 1 := by
    show ¬ 2 ^ 11 ≤ e.toNat + 1
    omega
  have hbits : 52 + 1 = Format.binary64.mantissaBits := rfl
  rw [UnpackedFloat.pack]
  simp only [hb, hlog]
  rw [if_neg hfits, if_pos hbits, BitVec.ofNat_toNat, BitVec.setWidth_eq]
  exact congrArg (packComponents Format.binary64 s e) hm'

theorem pack_subnormal (s : Sign) {m : BitVec 52} {x : Int} (hx : x = -1074) (hm : 0 < m.toNat) :
    UnpackedFloat.pack Format.binary64 (.finite s m.toNat x hm) =
      packComponents Format.binary64 s 0#11 m := by
  have hlog : m.toNat.log2 < 52 := (Nat.log2_lt (Nat.ne_of_gt hm)).mpr m.isLt
  have hb : (x + Format.binary64.exponentBias + Format.binary64.mantissaBitsWithoutImplicit).toNat =
      1 := by
    rw [hx]
    rfl
  have hbits : ¬ m.toNat.log2 + 1 = Format.binary64.mantissaBits := by
    show ¬ m.toNat.log2 + 1 = 53
    omega
  rw [UnpackedFloat.pack]
  simp only [hb]
  rw [if_neg (by decide), if_neg hbits, BitVec.ofNat_toNat, BitVec.setWidth_eq]

/-- Negation changes the sign of a word and nothing else. -/
theorem pack_neg_unpack {b : BitVec 64} (h : @unpackExponent Format.binary64 b ≠ -1#11) :
    UnpackedFloat.pack Format.binary64 (UnpackedFloat.unpack Format.binary64 b).neg =
      packComponents Format.binary64 (-Sign.ofBitVec (@unpackSign Format.binary64 b))
        (@unpackExponent Format.binary64 b) (@unpackMantissa Format.binary64 b) := by
  rw [UnpackedFloat.unpack]
  simp only [if_neg h]
  split
  · next he =>
      split
      · next hm =>
          rw [he, hm]
          rfl
      · next hm =>
          rw [he]
          exact pack_subnormal _ rfl _
  · next he => exact pack_normal _ he h rfl _

theorem toNat_neg_sign (b : BitVec 64) :
    (-Sign.ofBitVec (@unpackSign Format.binary64 b)).toBitVec.toNat = 1 - b.toNat / signBit := by
  have hb : (@unpackSign Format.binary64 b).toNat = b.toNat / signBit := by
    have hlt := b.isLt
    simp [unpackSign, Nat.shiftRight_eq_div_pow, signBit, block]
    omega
  rw [← hb]
  generalize @unpackSign Format.binary64 b = c
  revert c
  decide

/-! ### Doubles -/

theorem eq_of_toNat_toBits {x y : Float} (h : x.toBits.toNat = y.toBits.toNat) : x = y := by
  obtain ⟨⟨b, _⟩⟩ := x
  obtain ⟨⟨c, _⟩⟩ := y
  have hbc : b = c := UInt64.toNat_inj.mp h
  subst hbc
  rfl

/-- A double is that of its sign and its rank. -/
theorem ofRank_rank {x : Float} (h : rank x ≤ infinityRank) :
    ofRank (isNegative x) (rank x) = x := by
  apply eq_of_toNat_toBits
  have hlt := x.toBits.toNat_lt
  rw [toNat_toBits_ofRank, word, Nat.min_eq_left h]
  unfold isNegative rank
  by_cases hs : signBit ≤ x.toBits.toNat
  · rw [decide_eq_true hs, if_pos rfl]
    unfold signBit block at *
    omega
  · rw [decide_eq_false hs, if_neg Bool.false_ne_true]
    unfold signBit block at *
    omega

theorem unpackExponent_eq_iff {x : Float} :
    @unpackExponent Format.binary64 x.toBits.toBitVec = -1#11 ↔ infinityRank ≤ rank x := by
  have hlt := x.toBits.toNat_lt
  rw [← BitVec.toNat_inj, toNat_unpackExponent]
  show x.toBits.toNat / block % 2048 = 2047 ↔ _
  unfold rank infinityRank signBit block
  omega

/-- A double is finite when its rank is below infinity's. -/
theorem isFinite_iff {x : Float} : x.isFinite = true ↔ rank x < infinityRank := by
  rw [← Nat.not_le, ← unpackExponent_eq_iff]
  show (UnpackedFloat.unpack Format.binary64 x.toBits.toBitVec).isFinite = true ↔ _
  rw [UnpackedFloat.unpack]
  simp only
  split
  · next h => split <;> exact iff_of_false Bool.false_ne_true (not_not_intro h)
  · next h =>
      split
      · split <;> exact iff_of_true rfl h
      · exact iff_of_true rfl h

/-- Negation changes the sign and not the rank. -/
theorem neg_ofRank (negative : Bool) {n : Nat} (h : n < infinityRank) :
    -ofRank negative n = ofRank (!negative) n := by
  apply eq_of_toNat_toBits
  have hb : (ofRank negative n).toBits.toBitVec.toNat = word negative n :=
    toNat_toBits_ofRank negative n
  rw [toNat_toBits_ofRank]
  show (UnpackedFloat.pack Format.binary64
    (UnpackedFloat.unpack Format.binary64 (ofRank negative n).toBits.toBitVec).neg).toNat = _
  have he : @unpackExponent Format.binary64 (ofRank negative n).toBits.toBitVec ≠ -1#11 := by
    rw [ne_eq, unpackExponent_eq_iff, rank_ofRank]
    omega
  generalize (ofRank negative n).toBits.toBitVec = b at *
  rw [pack_neg_unpack he, toNat_packComponents, toNat_neg_sign, toNat_unpackExponent,
    toNat_unpackMantissa, hb]
  unfold word infinityRank signBit block at *
  cases negative <;> simp <;> omega

/-- A finite double is the negation of its negation. -/
theorem neg_neg_of_isFinite {x : Float} (h : x.isFinite = true) : - -x = x := by
  have hr := isFinite_iff.mp h
  have hx := ofRank_rank hr.le
  rw [← hx, neg_ofRank _ hr, neg_ofRank _ hr, Bool.not_not]

end Abacus.Binary64
