import Abacus.Proofs.Binary64.Exact
import Abacus.Proofs.Decimal.Layout

/-!
# Decimal — a value to a number of significant digits

`Rounds p q d` says of a number and a decimal, by distances alone, that the decimal is the number
rounded to `p` significant digits.  The text of a value is that decimal, in one of the two forms.

* `rounds_significant`: `significant` rounds to the number of digits asked for.
* `exists_grid`: eight hundred digits are all the digits of any double, so no more are ever
  needed.
* `valueText_significant`: what a value's text is, for every precision that is not refused.
-/

namespace Abacus
open Binary64

namespace Decimal

/-- The decimal is the number rounded to `p` significant digits: it counts the units in which the
number has `p` digits before the point, and no decimal of `p` digits, in whatever units, is nearer;
the count is even when another decimal is as near. -/
structure Rounds (p : Nat) (q : ℚ) (d : Decimal) : Prop where
  low : 10 ^ (d.exponent + p - 1) ≤ q
  high : q < 10 ^ (d.exponent + p)
  digits_le : d.digits ≤ 10 ^ p
  near : ∀ e : Decimal, e.digits < 10 ^ p → |d.rational - q| ≤ |e.rational - q| ∧
    (|e.rational - q| = |d.rational - q| → e.rational = d.rational ∨ Even d.digits)

theorem zpow_pos_ten (x : ℤ) : (0 : ℚ) < 10 ^ x := zpow_pos (by norm_num) x

theorem rational_pow (j : Nat) (k : ℤ) : rational ⟨10 ^ j, k⟩ = 10 ^ (k + j) := by
  rw [rational, zpow_add₀ (by norm_num), zpow_natCast, mul_comm]
  push_cast
  rfl

/-- Decimals in one unit are in the order of their counts. -/
theorem rational_strictMono (k : ℤ) : StrictMono fun m => rational ⟨m, k⟩ := fun _ _ h =>
  mul_lt_mul_of_pos_right (by exact_mod_cast h) (zpow_pos_ten k)

/-- A decimal of `p` digits is a whole number of units, or less than every number that has `p`
digits when counted in them. -/
theorem multiple_or_small {p : Nat} {e : Decimal} (he : e.digits < 10 ^ p) (k : ℤ) :
    (∃ m, rational ⟨m, k⟩ = e.rational) ∨ e.rational < 10 ^ (k + p - 1) := by
  obtain ⟨m, j⟩ := e
  by_cases hj : k ≤ j
  · obtain ⟨i, rfl⟩ := Int.le.dest hj
    exact .inl ⟨m * 10 ^ i, rational_shift m i k⟩
  · right
    calc
      rational ⟨m, j⟩ < rational ⟨10 ^ p, j⟩ := rational_strictMono j he
      _ = 10 ^ (j + p) := rational_pow p j
      _ ≤ 10 ^ (k + p - 1) := zpow_le_zpow_right₀ (by norm_num) (by omega)

/-- A quotient counted in units. -/
theorem quotient_mul_zpow (a : Nat) {b : Nat} (hb : 0 < b) (k : ℤ) :
    ((a * tenTo (-k) : ℕ) : ℚ) / (b * tenTo k : ℕ) * 10 ^ k = a / b := by
  have hk : (0 : ℚ) < tenTo k := by exact_mod_cast tenTo_pos k
  have hk' : (0 : ℚ) < tenTo (-k) := by exact_mod_cast tenTo_pos (-k)
  have hb' : (0 : ℚ) < b := by exact_mod_cast hb
  rw [zpow_ten_eq]
  push_cast
  field_simp

namespace Rounds

variable {p : Nat} {q : ℚ} {d : Decimal}

/-- To round in those units is to round among all decimals of `p` digits. -/
theorem of_roundsTo {c : Nat} {k : ℤ} (hp : 1 ≤ p) (hlo : 10 ^ (k + p - 1) ≤ q)
    (hhi : q < 10 ^ (k + p)) (h : RoundsTo (fun m => rational ⟨m, k⟩) q c) :
    Rounds p q ⟨c, k⟩ := by
  have hfirst : k + p - 1 = k + (p - 1 : ℕ) := by omega
  refine ⟨hlo, hhi, ?_, fun e he => ?_⟩
  · by_contra hlt
    have hnear := (h (10 ^ p)).1
    have hmono : rational ⟨10 ^ p, k⟩ < rational ⟨c, k⟩ :=
      rational_strictMono k (Nat.lt_of_not_le hlt)
    simp only [rational_pow] at hmono hnear
    rw [abs_of_pos (by linarith), abs_of_pos (by linarith)] at hnear
    linarith
  · rcases multiple_or_small he k with ⟨m, hm⟩ | hlt
    · obtain ⟨hnear, htie⟩ := h m
      rw [← hm]
      exact ⟨hnear, fun heq => (htie heq).imp_left fun hc => by rw [hc]⟩
    · have hfar : |(10 : ℚ) ^ (k + p - 1) - q| < |e.rational - q| := by
        rw [abs_of_nonpos (by linarith), abs_of_neg (by linarith)]
        linarith
      have hnear := (h (10 ^ (p - 1))).1
      simp only [rational_pow, ← hfirst] at hnear
      have hless := hnear.trans_lt hfar
      exact ⟨hless.le, fun heq => absurd heq hless.ne'⟩

theorem pos (h : Rounds p q d) : 0 < q := (zpow_pos_ten _).trans_le h.low

theorem digits_ne_zero (h : Rounds p q d) (hp : 1 ≤ p) : d.digits ≠ 0 := by
  intro h0
  have hfirst : d.exponent + p - 1 = d.exponent + (p - 1 : ℕ) := by omega
  have hnear := (h.near ⟨10 ^ (p - 1), d.exponent⟩ (Nat.pow_lt_pow_right (by decide) (by omega))).1
  have hlow := h.low
  have hpos := zpow_pos_ten (d.exponent + p - 1)
  rw [rational_pow, ← hfirst, rational, h0, Nat.cast_zero, zero_mul, zero_sub, abs_neg,
    abs_of_pos h.pos, abs_of_nonpos (by linarith)] at hnear
  linarith

/-- What the units measure exactly is not changed. -/
theorem exact_of_grid (h : Rounds p q d) {n : Nat} (hn : rational ⟨n, d.exponent⟩ = q) :
    d.rational = q := by
  have hlt : n < 10 ^ p := by
    have hhigh := h.high
    rw [← hn, ← rational_pow] at hhigh
    exact (rational_strictMono d.exponent).lt_iff_lt.mp hhigh
  have hnear := (h.near ⟨n, d.exponent⟩ hlt).1
  rw [hn, sub_self, abs_zero] at hnear
  exact sub_eq_zero.mp (abs_nonpos_iff.mp hnear)

/-- With more digits, an exact decimal has zeros at its end. -/
theorem widen (h : Rounds p q d) (hq : d.rational = q) (j : Nat) :
    Rounds (p + j) q ⟨d.digits * 10 ^ j, d.exponent - j⟩ := by
  have hd : rational ⟨d.digits * 10 ^ j, d.exponent - j⟩ = q := by
    rw [rational_shift, sub_add_cancel]
    exact hq
  have hexp : d.exponent - j + (p + j : ℕ) = d.exponent + p := by
    push_cast
    ring
  refine ⟨?_, ?_, ?_, fun e _ => ?_⟩
  · simp only [hexp]
    exact h.low
  · simp only [hexp]
    exact h.high
  · simp only [pow_add]
    exact Nat.mul_le_mul_right _ h.digits_le
  · rw [hd, sub_self, abs_zero]
    exact ⟨abs_nonneg _, fun he => .inl (sub_eq_zero.mp (abs_eq_zero.mp he))⟩

end Rounds

/-- **`significant` rounds to the number of digits asked for**, and drops the zeros at the end. -/
theorem rounds_significant {p a b : Nat} (hp : 1 ≤ p) (ha : 0 < a) (hb : 0 < b) :
    ∃ d, Rounds p (a / b) d ∧ significant p a b = d.trim := by
  refine ⟨_, ?_, rfl⟩
  have hlo := zpow_leadingExponent_le ha hb
  have hhi := lt_zpow_leadingExponent ha hb
  generalize leadingExponent a b = x at *
  have hexp : x - p + 1 + p = x + 1 := by ring
  refine Rounds.of_roundsTo hp ?_ ?_ ?_
  · rwa [hexp, add_sub_cancel_right]
  · rwa [hexp]
  · generalize x - p + 1 = k
    have h := (roundsTo_divNearest (a * tenTo (-k)) (Nat.mul_pos hb (tenTo_pos k))).mul_right
      (zpow_pos_ten k)
    rw [quotient_mul_zpow a hb] at h
    exact h

/-! ### The digits of a double -/

theorem two_zpow_le {k x : ℤ} (hx : 0 ≤ x) (h : k ≤ 3 * x) : (2 : ℚ) ^ k ≤ 10 ^ x := calc
  (2 : ℚ) ^ k ≤ 2 ^ (3 * x) := zpow_le_zpow_right₀ (by norm_num) h
  _ = 8 ^ x := by
      rw [zpow_mul]
      norm_num
  _ ≤ 10 ^ x := zpow_le_zpow_left₀ hx (by norm_num) (by norm_num)

theorem ten_zpow_le {k x : ℤ} (hx : 0 ≤ x) (h : 7 * x ≤ 2 * k) : (10 : ℚ) ^ x ≤ 2 ^ k := by
  have hsq : ((10 : ℚ) ^ x) ^ 2 ≤ (2 ^ k) ^ 2 := calc
    ((10 : ℚ) ^ x) ^ 2 = 100 ^ x := by
        rw [← zpow_natCast, ← zpow_mul, mul_comm, zpow_mul]
        norm_num
    _ ≤ 128 ^ x := zpow_le_zpow_left₀ hx (by norm_num) (by norm_num)
    _ = 2 ^ (7 * x) := by
        rw [zpow_mul]
        norm_num
    _ ≤ 2 ^ (k * 2) := zpow_le_zpow_right₀ (by norm_num) (by omega)
    _ = (2 ^ k) ^ 2 := by
        rw [zpow_mul]
        rfl
  exact le_of_sq_le_sq hsq (zpow_pos two_pos k).le

/-- **Eight hundred digits are all there are**: a double's magnitude is a whole number of the units
that put so many of its digits before the point. -/
theorem exists_grid {n : Nat} {k : ℤ} (hn : n < infinityRank) (hk : 10 ^ (k + 799) ≤ magnitude n) :
    ∃ c, rational ⟨c, k⟩ = magnitude n := by
  obtain ⟨s, r, hstep, hmag, hhigh⟩ := exists_magnitude hn
  -- the first digit is far above the last binary one, and not past the largest double's
  have hfirst : k + 799 < s - 274 := by
    by_contra hle
    have hlow : (10 : ℚ) ^ ((s : ℤ) - 274) < 2 ^ ((s : ℤ) - 1021) :=
      (zpow_le_zpow_right₀ (by norm_num) (not_lt.mp hle)).trans_lt (hk.trans_lt hhigh)
    rw [zpow_sub₀ (by norm_num), zpow_sub₀ two_ne_zero,
      div_lt_div_iff₀ (zpow_pos_ten _) (zpow_pos two_pos _)] at hlow
    refine absurd hlow (not_lt.mpr ?_)
    exact mul_le_mul (two_zpow_le (by omega) (by omega)) (ten_zpow_le (by omega) (by omega))
      (zpow_pos_ten _).le (zpow_pos_ten _).le
  have hneg : k < 0 := by
    by_contra hle
    have hlow : (10 : ℚ) ^ (799 : ℤ) < 2 ^ ((s : ℤ) - 1021) :=
      (zpow_le_zpow_right₀ (by norm_num) (by omega)).trans_lt (hk.trans_lt hhigh)
    exact absurd hlow (not_lt.mpr (two_zpow_le (by decide) (by omega)))
  obtain ⟨j, rfl⟩ := Int.exists_eq_neg_ofNat hneg.le
  obtain ⟨i, hi⟩ : ∃ i : ℕ, (s : ℤ) - 1074 + j = i := ⟨((s : ℤ) - 1074 + j).toNat, by omega⟩
  refine ⟨r * 2 ^ i * 5 ^ j, ?_⟩
  have hs' : (s : ℤ) - 1074 = i - j := by omega
  have hten : (10 : ℚ) ^ (-(j : ℤ)) = (2 ^ j)⁻¹ * (5 ^ j)⁻¹ := by
    rw [zpow_neg, zpow_natCast, ← mul_inv, ← mul_pow]
    norm_num
  rw [rational, hmag, hs', hten, zpow_sub₀ two_ne_zero, zpow_natCast, zpow_natCast]
  push_cast
  field_simp

/-- What is written for a double is its magnitude rounded to `p` digits, however large `p`. -/
theorem rounds_units {n p : Nat} (h0 : 0 < n) (hn : n < infinityRank) (hp : 1 ≤ p) :
    ∃ d, Rounds p (magnitude n) d ∧
      (significant (min p 800) (units n) unitsPerOne).rational = d.rational ∧
      (significant (min p 800) (units n) unitsPerOne).digits % 10 ≠ 0 := by
  have hpos : 0 < units n := units_zero ▸ units_strictMono h0
  have hmin : 1 ≤ min p 800 := le_min hp (by decide)
  obtain ⟨d, hd, htrim⟩ := rounds_significant hmin hpos unitsPerOne_pos
  rw [htrim, rational_trim]
  have hmod := mod_trim (hd.digits_ne_zero hmin)
  rcases le_total p 800 with hle | hle
  · rw [Nat.min_eq_left hle] at hd
    exact ⟨d, hd, rfl, hmod⟩
  · rw [Nat.min_eq_right hle] at hd
    have hlow : (10 : ℚ) ^ (d.exponent + 799) ≤ magnitude n := by
      have hexp : d.exponent + (800 : ℕ) - 1 = d.exponent + 799 := by
        push_cast
        ring
      exact hexp ▸ hd.low
    obtain ⟨c, hc⟩ := exists_grid hn hlow
    have hwide := hd.widen (hd.exact_of_grid hc) (p - 800)
    rw [Nat.add_sub_cancel' hle] at hwide
    refine ⟨_, hwide, ?_, hmod⟩
    rw [rational_shift, sub_add_cancel]

end Decimal

/-! ### Texts of values -/

theorem valueText_of_lt (x : Float) {p : Nat} (hp : p < 0x80000000) :
    valueText x p = .ok (String.ofList (valueChars p x)) := by
  rw [valueText, if_neg (by omega), if_neg (by omega), if_neg (by omega), Int.toNat_natCast]

/-- A precision of `2 ^ 31` or more is refused. -/
theorem valueText_of_large (x : Float) {p : Int} (hp : 0x80000000 ≤ p) :
    ∃ e, valueText x p = .error e := by
  rw [valueText, if_neg (by omega), if_pos hp]
  split <;> exact ⟨_, rfl⟩

/-- The text of a finite double to at least one digit. -/
theorem valueChars_of_finite {x : Float} {p : Nat} (h : rank x < infinityRank) (hp : 1 ≤ p) :
    ∃ w, valueChars p x = (if isNegative x then '-' :: w else w) ∧
      w = if rank x = 0 then ['0'] else
        (Decimal.significant (min p 800) (units (rank x)) unitsPerOne).chars p := by
  unfold valueChars
  simp only [Nat.max_eq_left hp]
  exact signedChars_of_finite _ h

/-- **The text of a value is the value rounded to `p` significant digits**, behind a minus sign
when it is negative: with the digits in their places while the first of them stands at `10 ^ -4` or
above and below `10 ^ p`, and with an exponent otherwise.  A precision of no digits acts as one, and
`2 ^ 31` digits or more are refused. -/
theorem valueText_significant (x : Float) (hx : x.isFinite = true) (h0 : toRat x ≠ 0) :
    (∀ p : Nat, 1 ≤ p → p < 0x80000000 → ∃ w d X,
      valueText x p = .ok (String.ofList (if toRat x < 0 then '-' :: w else w)) ∧
      Decimal.Rounds p |toRat x| d ∧ 10 ^ X ≤ d.rational ∧ d.rational < 10 ^ (X + 1) ∧
      (WithExponent w d.rational X ↔ X < -4 ∨ p ≤ X) ∧
      (InPlaces w d.rational ↔ ¬ (X < -4 ∨ p ≤ X))) ∧
    valueText x 0 = valueText x 1 ∧
    ∀ p : Int, 0x80000000 ≤ p → ∃ e, valueText x p = .error e := by
  have hn := isFinite_iff.mp hx
  have hpos := (toRat_ne_zero_iff hn).mp h0
  refine ⟨fun p hp hlt => ?_, rfl, fun p hp => valueText_of_large x hp⟩
  obtain ⟨d, hd, heq, hmod⟩ := Decimal.rounds_units hpos hn hp
  obtain ⟨w, htext, hw⟩ := valueChars_of_finite hn hp
  rw [if_neg hpos.ne'] at hw
  generalize Decimal.significant (min p 800) (units (rank x)) unitsPerOne = e at *
  obtain ⟨hlo, hhi⟩ := Decimal.leading_spec (d := e) fun he => hmod (by rw [he])
  rw [heq] at hlo hhi
  refine ⟨w, d, e.leading, ?_, abs_toRat hn ▸ hd, hlo, hhi, ?_⟩
  · rw [valueText_of_lt x hlt, htext]
    simp only [toRat_lt_zero_iff hn h0]
  · rw [← heq, hw, Decimal.chars]
    have hcond : (-4 ≤ e.leading ∧ e.leading < p) ↔ ¬ (e.leading < -4 ∨ p ≤ e.leading) := by omega
    split
    · next hplaces =>
        have hform := Decimal.inPlaces_positional hmod
        exact ⟨iff_of_false (fun h => h.not_inPlaces hform) (hcond.mp hplaces),
          iff_of_true hform (hcond.mp hplaces)⟩
    · next hplaces =>
        have hform := Decimal.withExponent_scientific hmod
        rw [hcond] at hplaces
        exact ⟨iff_of_true hform (not_not.mp hplaces), iff_of_false hform.not_inPlaces hplaces⟩

/-- A number half way between two digits, the even one of which has a carry. -/
def lessThanTen : Float := -9.5

/-- One digit of `-9.5` is that of ten, which has two places and so an exponent; with two digits
it is in its places. -/
theorem valueText_significant_carry :
    (lessThanTen.isFinite = true ∧ toRat lessThanTen ≠ 0) ∧
    ((∀ p : Nat, 1 ≤ p → p < 0x80000000 → ∃ w d X,
      valueText lessThanTen p =
        .ok (String.ofList (if toRat lessThanTen < 0 then '-' :: w else w)) ∧
      Decimal.Rounds p |toRat lessThanTen| d ∧ 10 ^ X ≤ d.rational ∧ d.rational < 10 ^ (X + 1) ∧
      (WithExponent w d.rational X ↔ X < -4 ∨ p ≤ X) ∧
      (InPlaces w d.rational ↔ ¬ (X < -4 ∨ p ≤ X))) ∧
    valueText lessThanTen 0 = valueText lessThanTen 1 ∧
    ∀ p : Int, 0x80000000 ≤ p → ∃ e, valueText lessThanTen p = .error e) ∧
    valueText lessThanTen 1 = .ok "-1e+01" ∧ valueText lessThanTen 2 = .ok "-9.5" := by
  have hx : lessThanTen.isFinite = true := by decide
  have h0 : toRat lessThanTen ≠ 0 := (toRat_ne_zero_iff (isFinite_iff.mp hx)).mpr (by decide)
  exact ⟨⟨hx, h0⟩, valueText_significant lessThanTen hx h0, by decide +kernel, by decide +kernel⟩

/-- With a precision of `2 ^ 31` not even `1` has a text. -/
theorem valueText_one_refused :
    ((1 : Float).isFinite = true ∧ toRat 1 ≠ 0) ∧ ∀ text, valueText 1 0x80000000 ≠ .ok text := by
  have hx : (1 : Float).isFinite = true := by decide
  refine ⟨⟨hx, (toRat_ne_zero_iff (isFinite_iff.mp hx)).mpr (by decide)⟩, fun text => ?_⟩
  obtain ⟨e, he⟩ := valueText_of_large 1 (p := 0x80000000) le_rfl
  rw [he]
  nofun

end Abacus
