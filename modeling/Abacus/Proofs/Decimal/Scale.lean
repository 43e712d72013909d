import Abacus.Decimal.Basic
import Abacus.Proofs.Binary64.Nearest

/-!
# Decimal — a decimal's rank is that of its value

* `rank_eq`: beyond four hundred places `Decimal.rank` answers without the power what the power
  would have answered.
* `rank_congr`: the rank of a decimal is settled by the number it is.
* `rational_shift`: zeros may go from the digits to the exponent, and so `rational_trim`.
* `leadingExponent_le`: a quotient is no less than the power of ten at its first digit.
-/

namespace Abacus

theorem decimalLength_pos (n : Nat) : 0 < decimalLength n := by
  rw [decimalLength]
  split <;> omega

theorem lt_pow_decimalLength (n : Nat) : n < 10 ^ decimalLength n := by
  induction n using decimalLength.induct with
  | case1 n h =>
      rw [decimalLength, if_pos h]
      exact h
  | case2 n h ih =>
      rw [decimalLength, if_neg h, pow_succ]
      omega

theorem pow_decimalLength_le {n : Nat} (hn : n ≠ 0) : 10 ^ (decimalLength n - 1) ≤ n := by
  induction n using decimalLength.induct with
  | case1 n h =>
      rw [decimalLength, if_pos h]
      exact Nat.one_le_iff_ne_zero.mpr hn
  | case2 n h ih =>
      -- `n / 10` has a digit at least, which makes room for the factor ten
      have hpos := decimalLength_pos (n / 10)
      have hih := ih (by omega)
      have hsplit : decimalLength (n / 10) = decimalLength (n / 10) - 1 + 1 := by omega
      rw [decimalLength, if_neg h, Nat.add_sub_cancel, hsplit, pow_succ]
      omega

/-! ### Powers of ten -/

theorem tenTo_eq (x : Int) : tenTo x = 10 ^ x.toNat := rfl

theorem tenTo_pos (x : Int) : 0 < tenTo x := by
  rw [tenTo_eq]
  positivity

theorem tenTo_of_nonpos {x : Int} (h : x ≤ 0) : tenTo x = 1 := by
  rw [tenTo_eq, Int.toNat_of_nonpos h, pow_zero]

/-- A quotient is no less than the power of ten at its first digit. -/
theorem leadingExponent_le {a b : Nat} (ha : 0 < a) :
    b * tenTo (leadingExponent a b) ≤ a * tenTo (-leadingExponent a b) := by
  rw [leadingExponent]
  by_cases h : b ≤ a
  · rw [if_pos h]
    rcases Nat.eq_zero_or_pos b with rfl | hb
    · rw [Nat.zero_mul]
      exact Nat.zero_le _
    · have hq := pow_decimalLength_le (Nat.div_pos h hb).ne'
      have hx : ((decimalLength (a / b) : Int) - 1).toNat = decimalLength (a / b) - 1 := by omega
      calc b * tenTo ((decimalLength (a / b) : Int) - 1)
          = b * 10 ^ (decimalLength (a / b) - 1) := by rw [tenTo_eq, hx]
        _ ≤ b * (a / b) := Nat.mul_le_mul_left b hq
        _ ≤ a := Nat.mul_div_le a b
        _ ≤ a * tenTo (-((decimalLength (a / b) : Int) - 1)) :=
            Nat.le_mul_of_pos_right a (tenTo_pos _)
  · rw [if_neg h]
    have hq := (Nat.div_lt_iff_lt_mul ha).mp (lt_pow_decimalLength ((b - 1) / a))
    rw [tenTo_of_nonpos (by omega), neg_neg, tenTo_eq, Int.toNat_natCast, Nat.mul_one, mul_comm]
    omega

/-- A power of ten below a quotient stays below it with its last `j` zeros counted apart. -/
theorem scaled_le {a b j : Nat} {x y : Int} (hy : y + j = x)
    (h : b * tenTo x ≤ a * tenTo (-x)) : b * tenTo y * 10 ^ j ≤ a * tenTo (-y) := by
  have hx : y.toNat + j + (-x).toNat = x.toNat + (-y).toNat := by omega
  refine Nat.le_of_mul_le_mul_right ?_ (tenTo_pos (-x))
  calc b * tenTo y * 10 ^ j * tenTo (-x) = b * 10 ^ (y.toNat + j + (-x).toNat) := by
        rw [tenTo_eq, tenTo_eq, pow_add, pow_add, Nat.mul_assoc, Nat.mul_assoc, Nat.mul_assoc]
    _ = b * tenTo x * tenTo (-y) := by rw [hx, pow_add, Nat.mul_assoc, tenTo_eq, tenTo_eq]
    _ ≤ a * tenTo (-x) * tenTo (-y) := Nat.mul_le_mul_right _ h
    _ = a * tenTo (-y) * tenTo (-x) := Nat.mul_right_comm _ _ _

theorem two_pow_le_tenTo {k : Nat} {x : Int} (h : (k : Int) ≤ 3 * x) : 2 ^ k ≤ tenTo x := calc
  2 ^ k ≤ 2 ^ (3 * x.toNat) := Nat.pow_le_pow_right Nat.two_pos (by omega)
  _ = 8 ^ x.toNat := pow_mul 2 3 _
  _ ≤ tenTo x := Nat.pow_le_pow_left (by decide) _

/-- A power of ten is a quotient of whole ones. -/
theorem zpow_ten_eq (x : ℤ) : (10 : ℚ) ^ x = tenTo x / tenTo (-x) := by
  rcases le_total 0 x with h | h
  · lift x to ℕ using h
    rw [tenTo_of_nonpos (x := -x) (by omega), tenTo_eq, Int.toNat_natCast, zpow_natCast]
    push_cast
    rw [div_one]
  · obtain ⟨n, rfl⟩ := Int.exists_eq_neg_ofNat h
    rw [tenTo_of_nonpos h, neg_neg, tenTo_eq, Int.toNat_natCast, zpow_neg, zpow_natCast]
    push_cast
    rw [one_div]

/-- The first digit of a quotient stands at its leading exponent. -/
theorem zpow_leadingExponent_le {a b : Nat} (ha : 0 < a) (hb : 0 < b) :
    (10 : ℚ) ^ leadingExponent a b ≤ a / b := by
  rw [zpow_ten_eq, div_le_div_iff₀ (by exact_mod_cast tenTo_pos _) (by exact_mod_cast hb),
    mul_comm (tenTo _ : ℚ)]
  exact_mod_cast leadingExponent_le ha

theorem lt_zpow_leadingExponent {a b : Nat} (ha : 0 < a) (hb : 0 < b) :
    (a / b : ℚ) < 10 ^ (leadingExponent a b + 1) := by
  have hb' : (0 : ℚ) < b := by exact_mod_cast hb
  rw [leadingExponent, div_lt_iff₀ hb']
  split
  · have h := (Nat.div_lt_iff_lt_mul hb).mp (lt_pow_decimalLength (a / b))
    rw [sub_add_cancel, zpow_natCast]
    exact_mod_cast h
  · next hlt =>
      have hq : 0 < (b - 1) / a := Nat.div_pos (by omega) ha
      have h := (Nat.le_div_iff_mul_le ha).mp (pow_decimalLength_le hq.ne')
      have hlen := decimalLength_pos ((b - 1) / a)
      generalize decimalLength ((b - 1) / a) = l at *
      obtain ⟨j, rfl⟩ := Nat.exists_eq_succ_of_ne_zero hlen.ne'
      have hj : -((j.succ : ℕ) : ℤ) + 1 = -(j : ℤ) := by omega
      have hpow : 10 ^ j * a < b := by
        rw [Nat.succ_sub_one] at h
        omega
      rw [hj, zpow_neg, zpow_natCast, ← div_eq_inv_mul, lt_div_iff₀ (by positivity), mul_comm]
      exact_mod_cast hpow

namespace Decimal
open Binary64

/-- The number that a decimal is. -/
def rational (d : Decimal) : ℚ := d.digits * 10 ^ d.exponent

theorem denominator_pos (d : Decimal) : 0 < d.denominator := tenTo_pos _

theorem rational_eq_div (d : Decimal) : d.rational = d.numerator / d.denominator := by
  rw [rational, numerator, denominator, zpow_ten_eq]
  push_cast
  rw [mul_div_assoc]

theorem units_infinityRank_le {x : Int} (h : 400 < x) :
    units infinityRank ≤ tenTo x * unitsPerOne := by
  obtain ⟨u, hu, hU⟩ := exists_unitsPerOne
  obtain ⟨s, hs⟩ : ∃ s, s = 2045 := ⟨2045, rfl⟩
  have htop : infinityRank = s * block + 2 * block := by
    rw [hs, ← Nat.add_mul]
    rfl
  rw [htop, units_block (.inr (Nat.le_mul_of_pos_left block Nat.two_pos)) le_rfl, hU]
  calc 2 * block * 2 ^ s = 2 ^ (53 + s - u) * 2 ^ u := by
        have hx : 53 + s - u + u = 52 + 1 + s := by omega
        rw [block_eq, ← pow_succ', ← pow_add, ← pow_add, hx]
    _ ≤ tenTo x * 2 ^ u := Nat.mul_le_mul_right _ (two_pow_le_tenTo (by omega))

/-- A decimal of more than four hundred places is past every double. -/
theorem nearestRank_of_exponent {d : Decimal} (h0 : d.digits ≠ 0) (h : 400 < d.exponent) :
    nearestRank d.numerator d.denominator = infinityRank := by
  refine nearestRank_of_large (denominator_pos d) ?_
  rw [denominator, tenTo_of_nonpos (by omega), Nat.mul_one]
  calc units infinityRank ≤ tenTo d.exponent * unitsPerOne := units_infinityRank_le h
    _ ≤ d.numerator * unitsPerOne :=
        Nat.mul_le_mul_right _ (Nat.le_mul_of_pos_left _ (Nat.pos_of_ne_zero h0))

/-- A decimal more than four hundred places below its digits is next to zero. -/
theorem nearestRank_of_tiny {d : Decimal} (h : d.exponent < -(400 + (d.digits.log2 : Int))) :
    nearestRank d.numerator d.denominator = 0 := by
  obtain ⟨u, hu, hU⟩ := exists_unitsPerOne
  have hnum : d.numerator = d.digits := by
    rw [numerator, tenTo_of_nonpos (by omega), Nat.mul_one]
  have hsmall : 2 * (d.digits * unitsPerOne) < d.denominator := calc
    2 * (d.digits * unitsPerOne) < 2 * (2 ^ (d.digits.log2 + 1) * unitsPerOne) := by
        rw [hU]
        gcongr
        exact Nat.lt_log2_self
    _ = 2 ^ (d.digits.log2 + 1 + u + 1) := by rw [hU, ← pow_add, ← pow_succ']
    _ ≤ d.denominator := two_pow_le_tenTo (by omega)
  refine nearestRank_eq (denominator_pos d) (by decide) ?_ ?_
  · intro m hm
    exact absurd hm (Nat.not_lt_zero m)
  · intro m hm
    have hunit : 1 ≤ units m := Nat.succ_le_of_lt (units_zero ▸ units_strictMono hm)
    rw [hnum, units_zero, Nat.zero_add]
    exact hsmall.trans_le (Nat.le_mul_of_pos_left _ hunit)

/-- The rank is that of the value, whatever the exponent. -/
theorem rank_eq (d : Decimal) : d.rank = nearestRank d.numerator d.denominator := by
  rw [rank]
  by_cases h0 : d.digits = 0
  · rw [if_pos h0, numerator, h0, Nat.zero_mul]
    unfold nearestRank divNearest
    simp
  · rw [if_neg h0]
    by_cases hbig : 400 < d.exponent
    · rw [if_pos hbig, nearestRank_of_exponent h0 hbig]
    · rw [if_neg hbig]
      by_cases htiny : d.exponent < -(400 + (d.digits.log2 : Int))
      · rw [if_pos htiny, nearestRank_of_tiny htiny]
      · rw [if_neg htiny]

/-- Equal numbers have one rank. -/
theorem rank_congr {d e : Decimal} (h : d.rational = e.rational) : d.rank = e.rank := by
  have hd : (d.denominator : ℚ) ≠ 0 := by exact_mod_cast d.denominator_pos.ne'
  have he : (e.denominator : ℚ) ≠ 0 := by exact_mod_cast e.denominator_pos.ne'
  rw [rational_eq_div, rational_eq_div, div_eq_div_iff hd he] at h
  rw [rank_eq, rank_eq]
  exact nearestRank_congr d.denominator_pos e.denominator_pos (by exact_mod_cast h)

/-! ### Zeros -/

/-- Zeros may stand among the digits or in the exponent. -/
theorem rational_shift (n z : Nat) (x : Int) :
    rational ⟨n * 10 ^ z, x⟩ = rational ⟨n, x + z⟩ := by
  simp only [rational]
  rw [zpow_add₀ (by norm_num), zpow_natCast]
  push_cast
  ring

/-- The first digit of a decimal stands at its leading exponent. -/
theorem leading_spec {d : Decimal} (h : d.digits ≠ 0) :
    10 ^ d.leading ≤ d.rational ∧ d.rational < 10 ^ (d.leading + 1) := by
  have hlo := pow_decimalLength_le h
  have hhi := lt_pow_decimalLength d.digits
  have hlen := decimalLength_pos d.digits
  have hlead : d.leading = (decimalLength d.digits - 1 : ℕ) + d.exponent := by
    rw [leading]
    omega
  have hnext : d.leading + 1 = (decimalLength d.digits : ℕ) + d.exponent := by
    rw [leading]
    omega
  have h10 : (0 : ℚ) < 10 ^ d.exponent := zpow_pos (by norm_num) _
  rw [hnext, hlead, zpow_add₀ (by norm_num), zpow_add₀ (by norm_num), zpow_natCast, zpow_natCast,
    rational]
  constructor
  · exact mul_le_mul_of_nonneg_right (by exact_mod_cast hlo) h10.le
  · exact mul_lt_mul_of_pos_right (by exact_mod_cast hhi) h10

theorem rational_trim (d : Decimal) : d.trim.rational = d.rational := by
  induction d using trim.induct with
  | case1 d h ih =>
      have hd : d = ⟨d.digits / 10 * 10 ^ 1, d.exponent⟩ := by
        rw [pow_one, Nat.div_mul_cancel (Nat.dvd_of_mod_eq_zero h.2)]
      rw [trim, dif_pos h, ih]
      conv_rhs => rw [hd]
      exact (rational_shift _ 1 _).symm
  | case2 d h => rw [trim, dif_neg h]

theorem rank_trim (d : Decimal) : d.trim.rank = d.rank := rank_congr d.rational_trim

theorem mod_trim {d : Decimal} (h : d.digits ≠ 0) : d.trim.digits % 10 ≠ 0 := by
  induction d using trim.induct with
  | case1 d hd ih =>
      rw [trim, dif_pos hd]
      exact ih (Nat.div_ne_zero_iff.mpr (by omega))
  | case2 d hd =>
      rw [trim, dif_neg hd]
      exact fun h0 => hd ⟨h, h0⟩

end Decimal

end Abacus
