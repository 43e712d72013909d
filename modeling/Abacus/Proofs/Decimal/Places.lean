import Abacus.Decimal.Layout
import Abacus.Proofs.Decimal.Scale

/-!
# Decimal — digits in their places and behind an exponent

Two forms of writing a number, said of the text and the number alone: with the digits in their
places (`InPlaces`), and with one digit before the point and an exponent (`WithExponent`).  Neither
has a zero in it that could go, nor a point without digits behind it.

* `Significand.inPlaces`, `Significand.withExponent`: digits that neither begin nor end with a zero
  are laid out in the one form and in the other, and so is a decimal without zeros at its end.
* `WithExponent.not_inPlaces`: no text is in both forms.
-/

namespace Abacus

/-! ### Digits -/

/-- A row of the digits from `0` to `9`. -/
def Digits (w : List Char) : Prop := ∀ c ∈ w, c.isDigit = true

namespace Digits

theorem nil : Digits [] := fun _ hc => absurd hc List.not_mem_nil

theorem append {w v : List Char} (hw : Digits w) (hv : Digits v) : Digits (w ++ v) := by
  intro c hc
  rcases List.mem_append.mp hc with h | h
  · exact hw c h
  · exact hv c h

theorem zeros (n : Nat) : Digits (List.replicate n '0') := by
  intro c hc
  rw [List.eq_of_mem_replicate hc]
  rfl

theorem digitChars (n : Nat) : Digits (digitChars n) :=
  fun _ hc => Nat.isDigit_of_mem_toDigits (by decide) (by decide) hc

end Digits

/-- The number that a row of digits writes. -/
abbrev ofChars (w : List Char) : Nat := Nat.ofDigitChars 10 w 0

theorem ofChars_append (w v : List Char) :
    ofChars (w ++ v) = ofChars w * 10 ^ v.length + ofChars v := by
  rw [ofChars, Nat.ofDigitChars_append, Nat.ofDigitChars_eq_ofDigitChars_zero, Nat.mul_comm]

theorem ofChars_zeros (n : Nat) : ofChars (List.replicate n '0') = 0 :=
  Nat.ofDigitChars_replicate_zero

theorem ofChars_digitChars (n : Nat) : ofChars (digitChars n) = n := Nat.ofDigitChars_ten_toDigits

theorem length_digitChars (n : Nat) : (digitChars n).length = decimalLength n := by
  rw [digitChars]
  induction n using decimalLength.induct with
  | case1 n h => rw [Nat.toDigits_of_lt_base h, decimalLength, if_pos h, List.length_singleton]
  | case2 n h ih =>
      rw [Nat.toDigits_of_base_le (by decide) (Nat.le_of_not_lt h), decimalLength, if_neg h,
        List.length_append, List.length_singleton, ih]

theorem digitChar_ne_zero {n : Nat} (h : n < 10) (h0 : n ≠ 0) : n.digitChar ≠ '0' := by
  interval_cases n <;> simp_all

theorem head?_digitChars {n : Nat} (h0 : n ≠ 0) : (digitChars n).head? ≠ some '0' := by
  rw [digitChars]
  induction n using decimalLength.induct with
  | case1 n h =>
      rw [Nat.toDigits_of_lt_base h, List.head?_singleton, ne_eq, Option.some_inj]
      exact digitChar_ne_zero h h0
  | case2 n h ih =>
      rw [Nat.toDigits_of_base_le (by decide) (Nat.le_of_not_lt h),
        List.head?_append_of_ne_nil _ Nat.toDigits_ne_nil]
      exact ih (by omega)

theorem getLast?_digitChars {n : Nat} (h : n % 10 ≠ 0) :
    (digitChars n).getLast? ≠ some '0' := by
  rw [digitChars]
  by_cases hn : n < 10
  · rw [Nat.toDigits_of_lt_base hn, List.getLast?_singleton, ne_eq, Option.some_inj]
    exact digitChar_ne_zero hn (by omega)
  · rw [Nat.toDigits_of_base_le (by decide) (Nat.le_of_not_lt hn), List.getLast?_concat, ne_eq,
      Option.some_inj]
    exact digitChar_ne_zero (Nat.mod_lt n (by decide)) h

/-! ### Forms -/

/-- Digits, and a point with digits behind it if there are any. -/
def pointed (ws fs : List Char) : List Char := if fs = [] then ws else ws ++ '.' :: fs

/-- The number that digits write before a point and behind it. -/
def pointedValue (ws fs : List Char) : ℚ := ofChars ws + ofChars fs / 10 ^ fs.length

/-- Digits before a point and behind it, and no zero among them that could go. -/
structure Sparing (ws fs : List Char) : Prop where
  whole : Digits ws
  fraction : Digits fs
  ne_nil : ws ≠ []
  head : ws.head? = some '0' → ws = ['0']
  last : fs.getLast? ≠ some '0'

/-- The text writes the number with the digits in their places. -/
def InPlaces (w : List Char) (q : ℚ) : Prop :=
  ∃ ws fs, Sparing ws fs ∧ w = pointed ws fs ∧ pointedValue ws fs = q

/-- The text writes the number with one digit before the point, which is not zero, and the
exponent `x`: a sign and two digits at least, more of them only where two are not enough. -/
def WithExponent (w : List Char) (q : ℚ) (x : Int) : Prop :=
  ∃ c fs es, Sparing [c] fs ∧ c ≠ '0' ∧
    Digits es ∧ 2 ≤ es.length ∧ (2 < es.length → es.head? ≠ some '0') ∧ ofChars es = x.natAbs ∧
    w = pointed [c] fs ++ 'e' :: (if x < 0 then '-' else '+') :: es ∧
    pointedValue [c] fs * 10 ^ x = q

/-- The point may be left out of account. -/
theorem pointedValue_eq (ws fs : List Char) :
    pointedValue ws fs = ofChars (ws ++ fs) * 10 ^ (-(fs.length : ℤ)) := by
  rw [pointedValue, ofChars_append, zpow_neg, zpow_natCast]
  push_cast
  field_simp

theorem mem_pointed {ws fs : List Char} {c : Char} (hw : Digits ws) (hf : Digits fs)
    (h : c ∈ pointed ws fs) : c.isDigit = true ∨ c = '.' := by
  unfold pointed at h
  split at h
  · exact .inl (hw c h)
  · rcases List.mem_append.mp h with h | h
    · exact .inl (hw c h)
    · rcases List.mem_cons.mp h with rfl | h
      · exact .inr rfl
      · exact .inl (hf c h)

/-- No text is in both forms. -/
theorem WithExponent.not_inPlaces {w : List Char} {q r : ℚ} {x : Int} (h : WithExponent w q x) :
    ¬ InPlaces w r := by
  rintro ⟨ws, fs, hs, hw, -⟩
  obtain ⟨c, fs', es, -, -, -, -, -, -, hw', -⟩ := h
  have he : 'e' ∈ pointed ws fs := by
    rw [← hw, hw']
    simp
  have := mem_pointed hs.whole hs.fraction he
  revert this
  decide

namespace Decimal

/-! ### Layout -/

theorem leading_eq (d : Decimal) :
    d.leading = ((digitChars d.digits).length : Int) - 1 + d.exponent := by
  rw [length_digitChars]
  rfl

theorem exists_exponentChars (x : Int) : ∃ es,
    exponentChars x = (if x < 0 then '-' else '+') :: es ∧ Digits es ∧ 2 ≤ es.length ∧
      (2 < es.length → es.head? ≠ some '0') ∧ ofChars es = x.natAbs := by
  have hpos : 0 < (digitChars x.natAbs).length := Nat.length_toDigits_pos
  have hds := Digits.digitChars x.natAbs
  have hval := ofChars_digitChars x.natAbs
  refine ⟨_, rfl, ?_⟩
  split
  · next hlen =>
      refine ⟨(Digits.zeros 1).append hds, ?_, fun h => ?_, hval⟩
      · rw [List.length_cons]
        omega
      · rw [List.length_cons] at h
        omega
  · next hlen =>
      refine ⟨hds, Nat.le_of_not_lt hlen, fun h => head?_digitChars fun h0 => ?_, hval⟩
      rw [h0] at h
      exact absurd h (by decide)

/-- Digits that neither begin nor end with a zero. -/
structure Significand (ds : List Char) : Prop where
  digits : Digits ds
  ne_nil : ds ≠ []
  head : ds.head? ≠ some '0'
  last : ds.getLast? ≠ some '0'

namespace Significand

variable {ds : List Char} {x : Int}

/-- Zeros stand behind the point, and the digits after them. -/
theorem inPlaces_below (h : Significand ds) (hx : x < 0) :
    InPlaces ('0' :: '.' :: (List.replicate ((-x).toNat - 1) '0' ++ ds))
      (ofChars ds * 10 ^ (x + 1 - ds.length)) := by
  have hne : List.replicate ((-x).toNat - 1) '0' ++ ds ≠ [] := by simp [h.ne_nil]
  refine ⟨['0'], List.replicate ((-x).toNat - 1) '0' ++ ds, ?_, ?_, ?_⟩
  · refine ⟨Digits.zeros 1, (Digits.zeros _).append h.digits, List.cons_ne_nil _ _,
      fun _ => rfl, ?_⟩
    rw [List.getLast?_append_of_ne_nil _ h.ne_nil]
    exact h.last
  · rw [pointed, if_neg hne]
    rfl
  · have hexp : -((List.replicate ((-x).toNat - 1) '0' ++ ds).length : ℤ) = x + 1 - ds.length := by
      rw [List.length_append, List.length_replicate]
      omega
    have hzero : ofChars ['0'] = 0 := rfl
    rw [pointedValue_eq, hexp, ofChars_append, ofChars_append, ofChars_zeros, hzero,
      Nat.zero_mul, Nat.zero_mul, Nat.zero_add, Nat.zero_add]

/-- The last zeros of a whole number stand for the exponent. -/
theorem inPlaces_whole (h : Significand ds) (hx : 0 ≤ x) (hlen : ds.length ≤ x.toNat + 1) :
    InPlaces (ds ++ List.replicate (x.toNat + 1 - ds.length) '0')
      (ofChars ds * 10 ^ (x + 1 - ds.length)) := by
  refine ⟨ds ++ List.replicate (x.toNat + 1 - ds.length) '0', [], ?_, ?_, ?_⟩
  · refine ⟨h.digits.append (Digits.zeros _), Digits.nil, by simp [h.ne_nil], fun h0 => ?_, by simp⟩
    rw [List.head?_append_of_ne_nil _ h.ne_nil] at h0
    exact (h.head h0).elim
  · rw [pointed, if_pos rfl]
  · have hexp : x + 1 - ds.length = (x.toNat + 1 - ds.length : ℕ) := by omega
    rw [pointedValue_eq, List.append_nil, ofChars_append, ofChars_zeros, hexp,
      List.length_replicate, zpow_natCast]
    push_cast
    simp

/-- The point stands among the digits. -/
theorem inPlaces_among (h : Significand ds) (hx : 0 ≤ x) (hlen : x.toNat + 1 < ds.length) :
    InPlaces (ds.take (x.toNat + 1) ++ '.' :: ds.drop (x.toNat + 1))
      (ofChars ds * 10 ^ (x + 1 - ds.length)) := by
  refine ⟨ds.take (x.toNat + 1), ds.drop (x.toNat + 1), ?_, ?_, ?_⟩
  · refine ⟨fun c hc => h.digits c (List.mem_of_mem_take hc),
      fun c hc => h.digits c (List.mem_of_mem_drop hc), by simp [h.ne_nil], fun h0 => ?_, ?_⟩
    · rw [List.head?_take, if_neg (Nat.succ_ne_zero _)] at h0
      exact (h.head h0).elim
    · rw [List.getLast?_drop, if_neg hlen.not_ge]
      exact h.last
  · rw [pointed, if_neg (by simp [hlen])]
  · have hexp : -((ds.drop (x.toNat + 1)).length : ℤ) = x + 1 - ds.length := by
      rw [List.length_drop]
      omega
    rw [pointedValue_eq, List.take_append_drop, hexp]

/-- Digits with the first of them at `10 ^ x` are laid out in their places. -/
theorem inPlaces (h : Significand ds) (x : Int) :
    InPlaces (positional ds x) (ofChars ds * 10 ^ (x + 1 - ds.length)) := by
  rw [positional]
  split
  · next hx => exact h.inPlaces_below hx
  · next hx =>
      split
      · next hlen => exact h.inPlaces_whole (Int.not_lt.mp hx) hlen
      · next hlen => exact h.inPlaces_among (Int.not_lt.mp hx) (Nat.lt_of_not_le hlen)

/-- Digits with the first of them at `10 ^ x` are laid out with an exponent. -/
theorem withExponent (h : Significand ds) (x : Int) :
    WithExponent (scientific ds x) (ofChars ds * 10 ^ (x + 1 - ds.length)) x := by
  obtain ⟨es, hes, hrow, htwo, hzero, habs⟩ := exists_exponentChars x
  cases ds with
  | nil => exact (h.ne_nil rfl).elim
  | cons c w =>
      have hc : c ≠ '0' := fun h0 => h.head (congrArg some h0)
      obtain ⟨hcd, hw⟩ := List.forall_mem_cons.mp h.digits
      refine ⟨c, w, es, ?_, hc, hrow, htwo, hzero, habs, ?_, ?_⟩
      · refine ⟨List.forall_mem_singleton.mpr hcd, hw, List.cons_ne_nil _ _, fun h0 => ?_, ?_⟩
        · exact (h.head h0).elim
        · cases w with
          | nil => simp
          | cons b w =>
              rw [← List.getLast?_cons_cons]
              exact h.last
      · rw [← hes]
        cases w with
        | nil => rfl
        | cons b w =>
            rw [pointed, if_neg (List.cons_ne_nil b w), scientific]
            · simp
            · exact List.cons_ne_nil b w
      · have hexp : -(w.length : ℤ) + x = x + 1 - (c :: w).length := by
          rw [List.length_cons]
          omega
        rw [pointedValue_eq, mul_assoc, ← zpow_add₀ (by norm_num), hexp, List.singleton_append]

end Significand

/-- A decimal that ends with no zero is told by its digits. -/
theorem significand {d : Decimal} (hd : d.digits % 10 ≠ 0) : Significand (digitChars d.digits) :=
  ⟨Digits.digitChars _, Nat.toDigits_ne_nil, head?_digitChars fun h => hd (by rw [h]),
    getLast?_digitChars hd⟩

theorem rational_eq_ofChars (d : Decimal) :
    d.rational = ofChars (digitChars d.digits) *
      10 ^ (d.leading + 1 - (digitChars d.digits).length) := by
  have hexp : d.leading + 1 - ((digitChars d.digits).length : ℤ) = d.exponent := by
    rw [leading_eq]
    ring
  rw [hexp, ofChars_digitChars, rational]

/-- A decimal that ends with no zero is laid out in its places. -/
theorem inPlaces_positional {d : Decimal} (hd : d.digits % 10 ≠ 0) :
    InPlaces (positional (digitChars d.digits) d.leading) d.rational :=
  d.rational_eq_ofChars ▸ (significand hd).inPlaces d.leading

/-- A decimal that ends with no zero is laid out with an exponent. -/
theorem withExponent_scientific {d : Decimal} (hd : d.digits % 10 ≠ 0) :
    WithExponent (scientific (digitChars d.digits) d.leading) d.rational d.leading :=
  d.rational_eq_ofChars ▸ (significand hd).withExponent d.leading

end Decimal

end Abacus
