import Abacus.Proofs.Numeral.Scan

/-!
# Numerals — how far a scan looks ahead

Three characters behind the numeral it reads, and three where it reads none, are all that a scan
depends on: `e+` and a digit would go on with a numeral, and `+.` and a digit would begin one.

* `Alike n`: texts whose first `n` characters are the same.
* `scan_eq_none_of_alike`, `scan_of_alike`: a scan goes the same way on texts that are alike to
  three characters where it ends.

Each part of a numeral has a lemma of its own, with as many characters as that part looks at: one
behind a row of digits, a mantissa or an exponent that was read, two where a mantissa or the digits
of an exponent are missing.
-/

namespace Abacus.Text

/-- Texts that begin with the same `n` characters, or are equal and shorter. -/
def Alike (n : Nat) (s s' : List Char) : Prop := s'.take n = s.take n

namespace Alike

variable {n : Nat} {s s' : List Char}

theorem mono (h : Alike n s s') {m : Nat} (hm : m ≤ n) : Alike m s s' := by
  have h := congrArg (List.take m) h
  rwa [List.take_take, List.take_take, Nat.min_eq_left hm] at h

theorem cons (h : Alike n s s') (c : Char) : Alike (n + 1) (c :: s) (c :: s') := by
  rw [Alike, List.take_succ_cons, List.take_succ_cons, h]

theorem append (h : Alike n s s') (v : List Char) : Alike n (v ++ s) (v ++ s') := by
  induction v with
  | nil => exact h
  | cons c v ih => exact (ih.cons c).mono (Nat.le_succ n)

theorem tail {c : Char} (h : Alike (n + 1) (c :: s) s') : ∃ r, s' = c :: r ∧ Alike n s r := by
  cases s' with
  | nil => cases h
  | cons d r =>
      rw [Alike, List.take_succ_cons, List.take_succ_cons] at h
      obtain ⟨rfl, hr⟩ := List.cons.inj h
      exact ⟨r, rfl, hr⟩

/-- Behind a common beginning texts are alike as far as they were with it. -/
theorem drop {v : List Char} (h : Alike (v.length + n) (v ++ s) s') :
    ∃ r, s' = v ++ r ∧ Alike n s r := by
  induction v generalizing s' with
  | nil => exact ⟨s', rfl, by rwa [List.length_nil, Nat.zero_add] at h⟩
  | cons c v ih =>
      rw [List.length_cons, Nat.add_right_comm] at h
      obtain ⟨r, rfl, hr⟩ := tail h
      obtain ⟨k, rfl, hk⟩ := ih hr
      exact ⟨k, rfl, hk⟩

theorem symm (h : Alike n s s') : Alike n s' s := Eq.symm h

theorem head? (h : Alike (n + 1) s s') : s'.head? = s.head? := by
  cases s with
  | nil =>
      cases s' with
      | nil => rfl
      | cons => cases h
  | cons c s =>
      obtain ⟨r, rfl, -⟩ := h.tail
      rfl

end Alike

end Abacus.Text

namespace Abacus.Numeral
open Text

variable {w k k' : List Char}

/-! ### Rows of digits -/

/-- Digits are taken as far as they go. -/
theorem noDigit_rest : ∀ s : List Char, NoDigit (takeDigits s).2
  | []     => nofun
  | c :: s => by
      rw [takeDigits]
      split
      · exact noDigit_rest s
      · next h => exact noDigit_cons h

theorem noDigit_iff {s : List Char} : NoDigit s ↔ (takeDigits s).1 = [] := by
  refine ⟨fun h => by rw [takeDigits_of_noDigit h], fun h => ?_⟩
  obtain ⟨v, hs, hv⟩ := exists_row s
  rw [h] at hv
  cases hv
  rw [hs]
  exact noDigit_rest s

theorem NoDigit.alike {n : Nat} (h : NoDigit k) (ha : Alike (n + 1) k k') : NoDigit k' := by
  rw [NoDigit, ha.head?]
  exact h

theorem takeDigits_of_alike {ds : List Nat} (h : takeDigits (w ++ k) = (ds, k))
    (ha : Alike 1 k k') : takeDigits (w ++ k') = (ds, k') := by
  obtain ⟨w', hs, hw⟩ := exists_row (w ++ k)
  have hk := noDigit_rest (w ++ k)
  rw [h] at hs hw hk
  rw [List.append_cancel_right hs, takeDigits_append hw, takeDigits_of_noDigit (hk.alike ha),
    List.append_nil]

/-! ### Mantissas -/

/-- A mantissa is two rows of digits with a point between them, or one without a point. -/
theorem takeDigits_of_mantissa {s r : List Char} {ws fs : List Nat}
    (h : scanMantissa s = some (ws, fs, r)) :
    (∃ r₁, takeDigits s = (ws, '.' :: r₁) ∧ takeDigits r₁ = (fs, r) ∧ ws ++ fs ≠ []) ∨
      takeDigits s = (ws, r) ∧ fs = [] ∧ ws ≠ [] ∧ ∀ c ∈ r.head?, c ≠ '.' := by
  rw [scanMantissa] at h
  split at h
  · next r₁ e =>
      split at h
      · cases h
      · next hne e₁ => cases h; exact .inl ⟨r₁, e, e₁, fun hn => hne hn⟩
  · cases h
  · next r₁ hne e =>
      cases h
      exact .inl ⟨r₁, e, rfl, fun hn => hne (List.append_eq_nil_iff.mp hn).1⟩
  · next hne hp e =>
      cases h
      refine .inr ⟨e, rfl, hne, fun c hc hpoint => ?_⟩
      subst hpoint
      obtain ⟨r₁, hr⟩ := List.head?_eq_some_iff.mp hc
      exact hp r₁ hr

theorem scanMantissa_of_alike {ws fs : List Nat} (h : scanMantissa (w ++ k) = some (ws, fs, k))
    (ha : Alike 1 k k') : scanMantissa (w ++ k') = some (ws, fs, k') := by
  rcases takeDigits_of_mantissa h with ⟨r, hw, hf, hne⟩ | ⟨hw, rfl, hne, hp⟩
  · obtain ⟨u, hs, -⟩ := exists_row (w ++ k)
    obtain ⟨v, hr, -⟩ := exists_row r
    rw [hw] at hs
    rw [hf] at hr
    simp only at hs hr
    subst hr
    rw [show u ++ '.' :: (v ++ k) = (u ++ '.' :: v) ++ k by simp] at hs
    obtain rfl := List.append_cancel_right hs
    rw [List.append_assoc, List.cons_append] at hw ⊢
    have hw' : takeDigits (u ++ '.' :: (v ++ k')) = (_, '.' :: (v ++ k')) :=
      takeDigits_of_alike hw rfl
    have hf' := takeDigits_of_alike hf ha
    rw [scanMantissa_pointed hw' (by rwa [hf']), hf']
  · exact scanMantissa_whole (takeDigits_of_alike hw ha) hne (by rwa [ha.head?])

/-- A mantissa is missing where there is no digit, with or without a point before it. -/
theorem scanMantissa_eq_none_iff {s : List Char} :
    scanMantissa s = none ↔ NoDigit s ∧ ∀ r, s = '.' :: r → NoDigit r := by
  constructor
  · intro h
    have hs : NoDigit s := by
      rw [noDigit_iff]
      rw [scanMantissa] at h
      split at h
      · next e => rw [e]
      · next e => rw [e]
      · cases h
      · cases h
    refine ⟨hs, ?_⟩
    rintro r rfl
    refine noDigit_iff.mpr (Decidable.not_not.mp fun hr => ?_)
    rw [scanMantissa_pointed (takeDigits_of_noDigit hs) hr] at h
    cases h
  · rintro ⟨hs, hr⟩
    cases hm : scanMantissa s with
    | none => rfl
    | some p =>
        obtain ⟨ws, fs, k⟩ := p
        rcases takeDigits_of_mantissa hm with ⟨r, hw, hf, hne⟩ | ⟨hw, -, hne, -⟩
        · rw [takeDigits_of_noDigit hs] at hw
          cases hw
          rw [takeDigits_of_noDigit (hr r rfl)] at hf
          cases hf
          exact absurd rfl hne
        · rw [takeDigits_of_noDigit hs] at hw
          cases hw
          exact absurd rfl hne

theorem scanMantissa_eq_none_of_alike {s s' : List Char} (h : scanMantissa s = none)
    (ha : Alike 2 s s') : scanMantissa s' = none := by
  obtain ⟨hs, hp⟩ := scanMantissa_eq_none_iff.mp h
  refine scanMantissa_eq_none_iff.mpr ⟨hs.alike ha, ?_⟩
  rintro r rfl
  obtain ⟨r', rfl, hr⟩ := ha.symm.tail
  exact (hp r' rfl).alike hr.symm

/-! ### Exponents -/

theorem scanPower_eq_none_iff {s : List Char} : scanPower s = none ↔ NoDigit (takeSign s).2 := by
  rw [noDigit_iff, scanPower]
  simp only
  split
  · next e => simp [e]
  · next hne e => simpa [e] using hne

theorem takeSign_alike {n : Nat} {s s' : List Char} (ha : Alike (n + 1) s s') :
    Alike n (takeSign s).2 (takeSign s').2 := by
  cases s with
  | nil =>
      rw [List.head?_eq_none_iff.mp ha.head?]
      rfl
  | cons c s =>
      obtain ⟨r, rfl, hr⟩ := ha.tail
      by_cases hminus : c = '-'
      · subst hminus; exact hr
      · by_cases hplus : c = '+'
        · subst hplus; exact hr
        · rw [takeSign_of_ne hminus hplus, takeSign_of_ne hminus hplus]
          exact ha.mono (Nat.le_succ n)

theorem takeSign_append (hw : w ≠ []) (k : List Char) :
    takeSign (w ++ k) = ((takeSign w).1, (takeSign w).2 ++ k) := by
  cases w with
  | nil => exact absurd rfl hw
  | cons c w =>
      by_cases hminus : c = '-'
      · subst hminus; rfl
      · by_cases hplus : c = '+'
        · subst hplus; rfl
        · rw [List.cons_append, takeSign_of_ne hminus hplus, takeSign_of_ne hminus hplus]
          rfl

theorem scanPower_eq_none_of_alike {s s' : List Char} (h : scanPower s = none)
    (ha : Alike 2 s s') : scanPower s' = none := by
  rw [scanPower_eq_none_iff] at h ⊢
  exact h.alike (takeSign_alike ha)

/-- An exponent has digits. -/
theorem ne_nil_of_scanPower {x : Int} (h : scanPower (w ++ k) = some (x, k)) : w ≠ [] := by
  rintro rfl
  obtain ⟨v, hk, hv⟩ := power_of_scanPower h
  rw [List.nil_append] at hk
  obtain rfl : v = [] := List.append_cancel_right hk.symm
  cases hv 'e' rfl with
  | unsigned _ hd hne => cases hd; exact hne rfl

theorem scanPower_of_alike {x : Int} (h : scanPower (w ++ k) = some (x, k)) (ha : Alike 1 k k') :
    scanPower (w ++ k') = some (x, k') := by
  have hw := ne_nil_of_scanPower h
  rw [scanPower, takeSign_append hw] at h ⊢
  simp only at h ⊢
  split at h
  · cases h
  · next ds r hne e =>
      cases h
      rw [takeDigits_of_alike e ha]
      split
      · next e' => cases e'; exact absurd rfl hne
      · next e' => cases e'; rfl

/-- Where no exponent is read, a mark and a sign may be left, and digits are what is missing. -/
theorem scanExponent_of_alike {x : Int} (h : scanExponent (w ++ k) = (x, k)) (ha : Alike 3 k k') :
    scanExponent (w ++ k') = (x, k') := by
  have longer : ∀ (v : List Char) (c : Char), c :: (v ++ k) ≠ k := fun v c e => by
    have := congrArg List.length e
    simp only [List.length_cons, List.length_append] at this
    omega
  cases w with
  | nil =>
      rw [List.nil_append] at h ⊢
      cases k with
      | nil => rwa [List.head?_eq_none_iff.mp ha.head?]
      | cons c r =>
          obtain ⟨r', rfl, hr⟩ := ha.tail
          cases hc : isMark c with
          | false =>
              have hno : ∀ t : List Char, scanExponent (c :: t) = (0, c :: t) := fun t =>
                scanExponent_noMark (by rintro _ ⟨⟩; exact hc)
              rw [hno] at h ⊢
              cases h
              rfl
          | true =>
              rw [scanExponent_mark hc] at h ⊢
              cases hp : scanPower r with
              | none =>
                  rw [hp] at h
                  cases h
                  rw [scanPower_eq_none_of_alike hp hr]
                  rfl
              | some p =>
                  rw [hp] at h
                  cases h
                  exact absurd (length_scanPower_le hp) (Nat.not_succ_le_self _)
  | cons c v =>
      rw [List.cons_append] at h ⊢
      cases hc : isMark c with
      | false =>
          rw [scanExponent_noMark (by rintro _ ⟨⟩; exact hc)] at h
          exact absurd (Prod.mk.inj h).2 (longer v c)
      | true =>
          rw [scanExponent_mark hc] at h ⊢
          cases hp : scanPower (v ++ k) with
          | none => rw [hp] at h; exact absurd (Prod.mk.inj h).2 (longer v c)
          | some p =>
              rw [hp] at h
              cases h
              rw [scanPower_of_alike hp (ha.mono (by decide))]
              rfl

/-! ### Numerals -/

theorem scanUnsigned_eq_none_iff {s : List Char} :
    scanUnsigned s = none ↔ scanMantissa s = none := by
  rw [scanUnsigned]
  split
  · next e => simp [e]
  · next e => simp [e]

theorem scanUnsigned_of_alike {n : Numeral} (h : scanUnsigned (w ++ k) = some (n, k))
    (ha : Alike 3 k k') : scanUnsigned (w ++ k') = some (n, k') := by
  cases hm : scanMantissa (w ++ k) with
  | none => rw [scanUnsigned_eq_none_iff.mpr hm] at h; cases h
  | some p =>
      obtain ⟨ws, fs, r⟩ := p
      rw [scanUnsigned_of_mantissa hm] at h
      obtain ⟨u, hs, -⟩ := mantissa_of_scan hm
      obtain ⟨v, hr, -⟩ := power_of_scan r
      obtain ⟨hn, hk⟩ := Prod.mk.inj (Option.some.inj h)
      rw [hk] at hr
      subst hr
      rw [← List.append_assoc] at hs
      obtain rfl := List.append_cancel_right hs
      rw [List.append_assoc] at hm ⊢
      have hx : scanExponent (v ++ k) = ((scanExponent (v ++ k)).1, k) := Prod.ext rfl hk
      have hm' := scanMantissa_of_alike hm ((ha.mono (by decide)).append v)
      rw [scanUnsigned_of_mantissa hm', scanExponent_of_alike hx ha, hn]

theorem scanUnsigned_eq_none_of_alike {s s' : List Char} (h : scanUnsigned s = none)
    (ha : Alike 2 s s') : scanUnsigned s' = none :=
  scanUnsigned_eq_none_iff.mpr
    (scanMantissa_eq_none_of_alike (scanUnsigned_eq_none_iff.mp h) ha)

/-- **Where no numeral begins**, three characters say so. -/
theorem scan_eq_none_of_alike {s s' : List Char} (h : scan s = none) (ha : Alike 3 s s') :
    scan s' = none := by
  cases s with
  | nil => rwa [List.head?_eq_none_iff.mp ha.head?]
  | cons c s =>
      obtain ⟨r, rfl, hr⟩ := ha.tail
      by_cases hc : c = '+'
      · subst hc
        exact scanUnsigned_eq_none_of_alike (s := s) h hr
      · rw [scan_of_ne hc] at h ⊢
        exact scanUnsigned_eq_none_of_alike h (ha.mono (by decide))

/-- **Where a numeral ends**, three characters behind it say so. -/
theorem scan_of_alike {n : Numeral} (h : scan (w ++ k) = some (n, k)) (ha : Alike 3 k k') :
    scan (w ++ k') = some (n, k') := by
  cases w with
  | nil => exact absurd (length_scan h) (Nat.lt_irrefl _)
  | cons c w =>
      rw [List.cons_append] at h ⊢
      by_cases hc : c = '+'
      · subst hc
        exact scanUnsigned_of_alike (w := w) h ha
      · rw [scan_of_ne hc] at h ⊢
        exact scanUnsigned_of_alike (w := c :: w) h ha

end Abacus.Numeral
