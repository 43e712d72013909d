import Abacus.Numeral.Word
import Abacus.Proofs.Decimal.Point

/-!
# Decimal — a written number is a numeral

Whatever its layout, a written decimal is a word of the language of numerals, and the word writes
the number that the decimal is (`Tells`).

* `Decimal.tells_chars`: what `Decimal.chars` writes tells the decimal's number.
* `number_of_finite`: the text of a finite double is a numeral of its magnitude, behind a minus
  sign when its sign bit is set.
* `number_of_infinite`: any other text has a letter where a numeral would begin.
-/

namespace Abacus
open Text

/-! ### The number a numeral writes -/

namespace Numeral

/-- The number that a numeral writes. -/
def rational (n : Numeral) : ℚ :=
  (ofDigits n.whole + ofDigits n.fraction / 10 ^ n.fraction.length) * 10 ^ n.exponent

theorem ofDigits_append (ds es : List Nat) :
    ofDigits (ds ++ es) = ofDigits ds * 10 ^ es.length + ofDigits es := by
  induction es using List.reverseRecOn with
  | nil => simp [ofDigits]
  | append_singleton es e ih =>
      have hsnoc : ∀ fs : List Nat, ofDigits (fs ++ [e]) = 10 * ofDigits fs + e := fun fs => by
        rw [ofDigits, List.foldl_append]
        rfl
      rw [← List.append_assoc, hsnoc, hsnoc, ih, List.length_append, List.length_singleton,
        pow_succ]
      ring

/-- The digits behind the point count as if the point stood behind them. -/
theorem rational_decimal (n : Numeral) : n.decimal.rational = n.rational := by
  have h10 : (10 : ℚ) ≠ 0 := by norm_num
  rw [Decimal.rational, decimal, rational, ofDigits_append, zpow_sub₀ h10, zpow_natCast]
  push_cast
  field_simp

theorem value_of_rational {n : Numeral} {d : Decimal} (h : n.rational = d.rational) :
    n.value = Binary64.ofRank false d.rank := by
  rw [value, Decimal.toFloat, Decimal.rank_congr (n.rational_decimal.trans h)]

end Numeral

/-! ### Digits -/

/-- The value of a digit from `0` to `9`. -/
def ofDigit (c : Char) : Nat := c.toNat - '0'.toNat

theorem digitValue?_of_isDigit {c : Char} (h : c.isDigit = true) :
    digitValue? c = some (ofDigit c) := by
  have hc : 48 ≤ c.toNat ∧ c.toNat ≤ 57 := Char.isDigit_iff_toNat.mp h
  unfold digitValue? zeros digitAmong ofDigit
  rw [if_neg (by omega), if_pos (by omega)]
  rfl

theorem Digits.row {w : List Char} (h : Digits w) : Numeral.Row w (w.map ofDigit) := by
  induction w with
  | nil => exact .nil
  | cons c w ih =>
      obtain ⟨hc, hw⟩ := List.forall_mem_cons.mp h
      exact .cons (digitValue?_of_isDigit hc) (ih hw)

theorem ofDigits_map (w : List Char) : Numeral.ofDigits (w.map ofDigit) = ofChars w := by
  rw [Numeral.ofDigits, List.foldl_map]
  rfl

/-! ### Words -/

/-- A text is a numeral of a number. -/
def Tells (w : List Char) (q : ℚ) : Prop := ∃ n : Numeral, n.Writes w ∧ n.rational = q

theorem Sparing.mantissa {ws fs : List Char} (h : Sparing ws fs) :
    Numeral.Mantissa (pointed ws fs) (ws.map ofDigit) (fs.map ofDigit) := by
  have hne : ws.map ofDigit ≠ [] := by simp [h.ne_nil]
  unfold pointed
  split
  · next hf =>
      rw [hf]
      exact .whole h.whole.row hne
  · exact .pointed h.whole.row h.fraction.row (List.append_ne_nil_of_left_ne_nil hne _)

/-- Digits and an exponent make a numeral. -/
theorem Sparing.tells {ws fs v : List Char} {x : Int} (h : Sparing ws fs)
    (hv : Numeral.Power v x) : Tells (pointed ws fs ++ v) (pointedValue ws fs * 10 ^ x) := by
  refine ⟨_, .unsigned h.mantissa hv, ?_⟩
  rw [Numeral.rational, ofDigits_map, ofDigits_map, List.length_map, pointedValue]

theorem InPlaces.tells {w : List Char} {q : ℚ} (h : InPlaces w q) : Tells w q := by
  obtain ⟨ws, fs, hs, rfl, rfl⟩ := h
  have h := hs.tells .none
  rwa [List.append_nil, zpow_zero, mul_one] at h

theorem WithExponent.tells {w : List Char} {q : ℚ} {x : Int} (h : WithExponent w q x) :
    Tells w q := by
  obtain ⟨c, fs, es, hs, -, hes, hlen, -, habs, rfl, rfl⟩ := h
  refine hs.tells ?_
  have hne : es.map ofDigit ≠ [] := by
    rw [ne_eq, List.map_eq_nil_iff]
    rintro rfl
    cases hlen
  split
  · next hx =>
      have h := Numeral.Power.minus (c := 'e') rfl hes.row hne
      rwa [ofDigits_map, habs, Int.ofNat_natAbs_of_nonpos hx.le, neg_neg] at h
  · next hx =>
      have h := Numeral.Power.plus (c := 'e') rfl hes.row hne
      rwa [ofDigits_map, habs, Int.natAbs_of_nonneg (Int.not_lt.mp hx)] at h

/-- A decimal that ends with no zero is written as a numeral of its number. -/
theorem Decimal.tells_chars (limit : Int) {d : Decimal} (hd : d.digits % 10 ≠ 0) :
    Tells (d.chars limit) d.rational := by
  rw [chars]
  split
  · exact (inPlaces_positional hd).tells
  · exact (withExponent_scientific hd).tells

/-! ### Doubles -/

theorem number_zero :
    ∃ n : Numeral, n.Writes ['0'] ∧ n.value = Binary64.ofRank false 0 := by
  have hs : Sparing ['0'] [] :=
    ⟨Digits.zeros 1, Digits.nil, List.cons_ne_nil _ _, fun _ => rfl, by simp⟩
  obtain ⟨n, hn, hq⟩ := hs.tells .none
  have hzero : ofChars (['0'] ++ []) = 0 := rfl
  refine ⟨n, hn, Numeral.value_of_rational (d := ⟨0, 0⟩) (hq.trans ?_)⟩
  rw [pointedValue_eq, hzero, Decimal.rational, Nat.cast_zero, zero_mul, zero_mul]

/-- **A finite double's text is a numeral of its magnitude**, behind a minus sign when the sign
bit is set. -/
theorem number_of_finite {x : Float} (h : Binary64.rank x < Binary64.infinityRank) :
    ∃ w, ∃ n : Numeral, numberChars x = (if Binary64.isNegative x then '-' :: w else w) ∧
      n.Writes w ∧ n.value = Binary64.ofRank false (Binary64.rank x) := by
  obtain ⟨w, htext, hw⟩ := signedChars_of_finite (fun n => (Decimal.shortest n).chars 16) h
  have htext := (numberChars_eq_shortestChars x).trans htext
  by_cases h0 : Binary64.rank x = 0
  · rw [if_pos h0] at hw
    obtain ⟨n, hn, hvalue⟩ := number_zero
    exact ⟨w, n, htext, hw ▸ hn, h0 ▸ hvalue⟩
  · rw [if_neg h0] at hw
    have hpos := Nat.pos_of_ne_zero h0
    obtain ⟨n, hn, hq⟩ := Decimal.tells_chars 16 (Decimal.mod_shortest hpos h)
    refine ⟨w, n, htext, hw ▸ hn, ?_⟩
    rw [Numeral.value_of_rational hq, Decimal.rank_shortest hpos h]

/-- The text of a double that is not finite is a word. -/
theorem number_of_infinite {x : Float} (h : Binary64.infinityRank ≤ Binary64.rank x) :
    ∃ c w, c ∈ ['n', 'i'] ∧ (numberChars x = c :: w ∨ numberChars x = '-' :: c :: w) := by
  rcases Nat.lt_or_eq_of_le h with h | h
  · exact ⟨'n', ['a', 'n'], by simp, .inl (numberChars_of_notNumber h)⟩
  · rw [numberChars_of_infinity h.symm]
    split
    · exact ⟨'i', ['n', 'f'], by simp, .inr rfl⟩
    · exact ⟨'i', ['n', 'f'], by simp, .inl rfl⟩

end Abacus
