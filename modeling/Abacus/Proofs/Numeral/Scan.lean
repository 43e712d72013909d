import Abacus.Numeral.Word

/-!
# Numerals — a scan takes the longest word

`Numeral.scan` reads greedily and never goes back; `Numeral.Writes` says which texts are numerals
and mentions no reader.  The two agree:

* `scan_eq_some_iff`: a scan succeeds with what the longest word at the beginning of the text
  writes, and leaves what follows that word;
* `scan_eq_none_iff`: a scan fails exactly when no word stands at the beginning of the text;
* `scan_append`: a word is read whole before a text that cannot go on with it (`Ends`);
* `scan_of_append`: cutting the text somewhere behind the numeral changes nothing;
* `Writes.notMem`: no word has a character in it that is foreign to numerals (`Foreign`);
* `scan_parted`: so a text with such a character at its end, or before what follows it, is scanned
  as if nothing followed it.

Each part of a numeral has two lemmas: what was read is a part of that kind, and a part of that
kind is read at least as far as it goes.
-/

namespace Abacus.Numeral
open Text

/-! ### Rows of digits -/

/-- A text that does not begin with a digit. -/
def NoDigit (k : List Char) : Prop := ∀ c ∈ k.head?, digitValue? c = none

theorem exists_row : ∀ s : List Char, ∃ w, s = w ++ (takeDigits s).2 ∧ Row w (takeDigits s).1
  | []     => ⟨[], rfl, .nil⟩
  | c :: s => by
      rw [takeDigits]
      split
      · next d hd =>
          obtain ⟨w, hs, hw⟩ := exists_row s
          exact ⟨c :: w, congrArg (c :: ·) hs, .cons hd hw⟩
      · exact ⟨[], rfl, .nil⟩

theorem takeDigits_append {w : List Char} {ds : List Nat} (h : Row w ds) (k : List Char) :
    takeDigits (w ++ k) = (ds ++ (takeDigits k).1, (takeDigits k).2) := by
  induction h with
  | nil => rfl
  | cons hd _ ih => rw [List.cons_append, takeDigits, hd, ih]; rfl

theorem takeDigits_of_noDigit {k : List Char} (h : NoDigit k) : takeDigits k = ([], k) := by
  cases k with
  | nil => rfl
  | cons c k => rw [takeDigits, h c rfl]

theorem noDigit_cons {c : Char} {k : List Char} (h : digitValue? c = none) : NoDigit (c :: k) := by
  intro d hd
  cases hd
  exact h

/-- The signs, points, marks, operators and parentheses of the language are no digits. -/
theorem digitValue?_sign :
    ∀ c ∈ ['+', '-', '*', '/', '(', ')', '.', 'e', 'E'], digitValue? c = none := by
  simp only [List.forall_mem_cons, List.not_mem_nil, false_implies, implies_true]
  decide

theorem digitValue?_of_isMark {c : Char} (h : isMark c = true) : digitValue? c = none := by
  simp only [isMark, Bool.or_eq_true, beq_iff_eq] at h
  rcases h with rfl | rfl <;> exact digitValue?_sign _ (by simp)

/-! ### Mantissas -/

/-- What a mantissa scan reads is a mantissa. -/
theorem mantissa_of_scan {s r : List Char} {ws fs : List Nat}
    (h : scanMantissa s = some (ws, fs, r)) : ∃ w, s = w ++ r ∧ Mantissa w ws fs := by
  obtain ⟨w, hs, hw⟩ := exists_row s
  rw [scanMantissa] at h
  split at h
  · next r₁ e =>
      obtain ⟨v, hr, hv⟩ := exists_row r₁
      rw [e] at hs hw
      split at h
      · cases h
      · next fs' r' hne e₁ =>
          cases h
          rw [e₁] at hr hv
          refine ⟨w ++ '.' :: v, by rw [hs, hr]; simp, .pointed hw hv fun hn => ?_⟩
          exact hne (List.append_eq_nil_iff.mp hn).2
  · cases h
  · next ws' r₁ hne e =>
      obtain ⟨v, hr, hv⟩ := exists_row r₁
      rw [e] at hs hw
      cases h
      refine ⟨w ++ '.' :: v, ?_, .pointed hw hv fun hn => ?_⟩
      · rw [List.append_assoc, List.cons_append, ← hr]; exact hs
      · exact hne (List.append_eq_nil_iff.mp hn).1
  · next hne _ e =>
      rw [e] at hs hw
      cases h
      exact ⟨w, hs, .whole hw hne⟩

/-- A text that a mantissa before it cannot go on into. -/
def EndsMantissa (k : List Char) : Prop := NoDigit k ∧ ∀ c ∈ k.head?, c ≠ '.'

theorem scanMantissa_pointed {s r : List Char} {ws : List Nat}
    (h : takeDigits s = (ws, '.' :: r)) (hne : ws ++ (takeDigits r).1 ≠ []) :
    scanMantissa s = some (ws, (takeDigits r).1, (takeDigits r).2) := by
  rw [scanMantissa, h]
  cases ws with
  | nil =>
      rcases e : takeDigits r with ⟨fs, r'⟩
      rw [e] at hne
      cases fs with
      | nil => exact absurd rfl hne
      | cons f fs => simp only [e]
  | cons d ds => rfl

theorem scanMantissa_whole {s r : List Char} {ws : List Nat} (h : takeDigits s = (ws, r))
    (hne : ws ≠ []) (hr : ∀ c ∈ r.head?, c ≠ '.') : scanMantissa s = some (ws, [], r) := by
  rw [scanMantissa, h]
  cases ws with
  | nil => exact absurd rfl hne
  | cons d ds =>
      split
      · next e => cases e
      · next e => cases e
      · next e => cases e; exact absurd rfl (hr '.' rfl)
      · next e => cases e; rfl

/-- A mantissa is scanned to its end at least, and no further before a text that cannot go on
with it. -/
theorem scanMantissa_append {w : List Char} {ws fs : List Nat} (h : Mantissa w ws fs)
    (k : List Char) : ∃ ws' fs' r, scanMantissa (w ++ k) = some (ws', fs', r) ∧
      r.length ≤ k.length ∧ (EndsMantissa k → ws' = ws ∧ fs' = fs ∧ r = k) := by
  cases h with
  | whole hw hne =>
      have ht := takeDigits_append hw k
      have hl := length_snd_takeDigits_le k
      -- a point right behind the digits makes the scan go on with what follows it
      by_cases hp : ∃ r, (takeDigits k).2 = '.' :: r
      · obtain ⟨r, hr⟩ := hp
        rw [hr] at ht hl
        have hl' := length_snd_takeDigits_le r
        simp only [List.length_cons] at hl
        refine ⟨_, _, _, scanMantissa_pointed ht (by simp [hne]), by omega, fun hk => ?_⟩
        rw [takeDigits_of_noDigit hk.1] at hr
        simp only at hr
        subst hr
        exact absurd rfl (hk.2 '.' rfl)
      · refine ⟨_, _, _, scanMantissa_whole ht (by simp [hne]) fun c hc e => hp ?_, hl,
          fun hk => ?_⟩
        · subst e
          cases hr : (takeDigits k).2 with
          | nil => rw [hr] at hc; cases hc
          | cons c r => rw [hr] at hc; cases hc; exact ⟨r, rfl⟩
        · rw [takeDigits_of_noDigit hk.1]
          exact ⟨List.append_nil _, rfl, rfl⟩
  | @pointed w v ws fs hw hv hne =>
      -- the point stops the first row of digits, so the second is scanned by itself
      have ht : takeDigits (w ++ '.' :: v ++ k) = (ws, '.' :: (v ++ k)) := by
        rw [List.append_assoc, takeDigits_append hw, List.cons_append,
          takeDigits_of_noDigit (noDigit_cons (digitValue?_sign _ (by simp)))]
        simp
      have hf := takeDigits_append hv k
      have hl := length_snd_takeDigits_le k
      refine ⟨_, _, _, scanMantissa_pointed ht ?_, ?_, fun hk => ?_⟩
      · rw [hf]
        intro hn
        simp only [List.append_eq_nil_iff] at hn
        exact hne (List.append_eq_nil_iff.mpr ⟨hn.1, hn.2.1⟩)
      · rw [hf]; exact hl
      · rw [hf, takeDigits_of_noDigit hk.1]
        exact ⟨rfl, List.append_nil _, rfl⟩

/-! ### Exponents -/

theorem takeSign_of_ne {c : Char} (hminus : c ≠ '-') (hplus : c ≠ '+') (s : List Char) :
    takeSign (c :: s) = (false, c :: s) := by
  unfold takeSign
  split
  · next e => cases e; exact absurd rfl hminus
  · next e => cases e; exact absurd rfl hplus
  · rfl

/-- An exponent begins with a mark. -/
theorem scanExponent_mark {c : Char} (hc : isMark c = true) (s : List Char) :
    scanExponent (c :: s) = (scanPower s).getD (0, c :: s) := by
  simp only [isMark, Bool.or_eq_true, beq_iff_eq] at hc
  rcases hc with rfl | rfl <;> rfl

theorem scanExponent_noMark {s : List Char} (h : ∀ c ∈ s.head?, isMark c = false) :
    scanExponent s = (0, s) := by
  unfold scanExponent
  split
  · exact absurd (h 'e' rfl) (by decide)
  · exact absurd (h 'E' rfl) (by decide)
  · rfl

/-- What is read after a mark makes an exponent with that mark. -/
theorem power_of_scanPower {s r : List Char} {x : Int} (h : scanPower s = some (x, r)) :
    ∃ v, s = v ++ r ∧ ∀ c, isMark c = true → Power (c :: v) x := by
  obtain ⟨w, hs, hw⟩ := exists_row (takeSign s).2
  rw [scanPower] at h
  simp only at h
  split at h
  · cases h
  · next ds r' hne e =>
      rw [e] at hs hw
      cases h
      unfold takeSign at hs ⊢
      split at hs
      · next r => exact ⟨'-' :: w, congrArg ('-' :: ·) hs, fun c hc => .minus hc hw hne⟩
      · next r => exact ⟨'+' :: w, congrArg ('+' :: ·) hs, fun c hc => .plus hc hw hne⟩
      · exact ⟨w, hs, fun c hc => .unsigned hc hw hne⟩

/-- What an exponent scan reads is an exponent. -/
theorem power_of_scan (s : List Char) :
    ∃ v, s = v ++ (scanExponent s).2 ∧ Power v (scanExponent s).1 := by
  cases s with
  | nil => exact ⟨[], rfl, .none⟩
  | cons c r =>
      cases hc : isMark c with
      | false =>
          rw [scanExponent_noMark (by rintro _ ⟨⟩; exact hc)]
          exact ⟨[], rfl, .none⟩
      | true =>
          rw [scanExponent_mark hc]
          cases h : scanPower r with
          | none => exact ⟨[], rfl, .none⟩
          | some p =>
              obtain ⟨v, hr, hv⟩ := power_of_scanPower (x := p.1) (r := p.2) h
              exact ⟨c :: v, congrArg (c :: ·) hr, hv c hc⟩

theorem scanPower_of_takeSign {s w k : List Char} {b : Bool} {ds : List Nat}
    (h : takeSign s = (b, w ++ k)) (hw : Row w ds) (hne : ds ≠ []) :
    ∃ x, scanPower s = some (x, (takeDigits k).2) ∧
      (NoDigit k → x = if b then -(ofDigits ds : Int) else ofDigits ds) := by
  rw [scanPower]
  rw [h]
  simp only
  rw [takeDigits_append hw]
  cases ds with
  | nil => exact absurd rfl hne
  | cons d ds =>
      refine ⟨_, rfl, fun hk => ?_⟩
      rw [takeDigits_of_noDigit hk, List.append_nil]

/-- A row of digits has no sign. -/
theorem takeSign_row {w : List Char} {ds : List Nat} (h : Row w ds) (hne : ds ≠ [])
    (k : List Char) : takeSign (w ++ k) = (false, w ++ k) := by
  cases h with
  | nil => exact absurd rfl hne
  | @cons c _ _ _ hd _ =>
      refine takeSign_of_ne ?_ ?_ _
      · rintro rfl; rw [digitValue?_sign _ (by simp)] at hd; cases hd
      · rintro rfl; rw [digitValue?_sign _ (by simp)] at hd; cases hd

/-- An exponent is scanned to its end at least, and no further before a text that begins with no
digit and no mark. -/
theorem scanExponent_append {v : List Char} {x : Int} (h : Power v x) (k : List Char) :
    (scanExponent (v ++ k)).2.length ≤ k.length ∧
      (NoDigit k → (∀ c ∈ k.head?, isMark c = false) → scanExponent (v ++ k) = (x, k)) := by
  have key : ∀ {c : Char} {s w : List Char} {b : Bool} {ds : List Nat}, isMark c = true →
      takeSign (s ++ k) = (b, w ++ k) → Row w ds → ds ≠ [] →
      (scanExponent (c :: s ++ k)).2.length ≤ k.length ∧
        (NoDigit k → scanExponent (c :: s ++ k) =
          (if b then -(ofDigits ds : Int) else ofDigits ds, k)) := by
    intro c s w b ds hc hs hw hne
    obtain ⟨x, hx, hk⟩ := scanPower_of_takeSign hs hw hne
    rw [List.cons_append, scanExponent_mark hc, hx, Option.getD_some]
    refine ⟨length_snd_takeDigits_le k, fun hn => ?_⟩
    rw [hk hn, takeDigits_of_noDigit hn]
  cases h with
  | none =>
      refine ⟨length_scanExponent_le k, fun _ hm => ?_⟩
      exact scanExponent_noMark hm
  | unsigned hc hw hne =>
      obtain ⟨hl, he⟩ := key hc (takeSign_row hw hne k) hw hne
      exact ⟨hl, fun hn _ => he hn⟩
  | plus hc hw hne =>
      obtain ⟨hl, he⟩ := key (s := '+' :: _) hc rfl hw hne
      exact ⟨hl, fun hn _ => he hn⟩
  | minus hc hw hne =>
      obtain ⟨hl, he⟩ := key (s := '-' :: _) hc rfl hw hne
      exact ⟨hl, fun hn _ => he hn⟩

/-! ### Numerals -/

/-- A text that no numeral before it can go on into. -/
def Ends (k : List Char) : Prop :=
  ∀ c ∈ k.head?, digitValue? c = none ∧ c ≠ '.' ∧ isMark c = false

theorem scanUnsigned_of_mantissa {s r : List Char} {ws fs : List Nat}
    (h : scanMantissa s = some (ws, fs, r)) :
    scanUnsigned s = some (⟨ws, fs, (scanExponent r).1⟩, (scanExponent r).2) := by
  rw [scanUnsigned, h]

/-- What a scan reads is what a word writes. -/
theorem writes_of_scan {s r : List Char} {n : Numeral} (h : scan s = some (n, r)) :
    ∃ w, s = w ++ r ∧ Writes w n := by
  have key : ∀ {s : List Char}, scanUnsigned s = some (n, r) →
      ∃ w v, s = w ++ v ++ r ∧ Mantissa w n.whole n.fraction ∧ Power v n.exponent := by
    intro s h
    cases hm : scanMantissa s with
    | none => rw [scanUnsigned, hm] at h; cases h
    | some p =>
        obtain ⟨ws, fs, r₁⟩ := p
        rw [scanUnsigned_of_mantissa hm] at h
        cases h
        obtain ⟨w, hs, hw⟩ := mantissa_of_scan hm
        obtain ⟨v, hr, hv⟩ := power_of_scan r₁
        exact ⟨w, v, by rw [List.append_assoc, ← hr]; exact hs, hw, hv⟩
  unfold scan at h
  split at h
  · obtain ⟨w, v, rfl, hw, hv⟩ := key h
    exact ⟨'+' :: (w ++ v), rfl, .plus hw hv⟩
  · obtain ⟨w, v, rfl, hw, hv⟩ := key h
    exact ⟨w ++ v, rfl, .unsigned hw hv⟩

/-- An exponent, or its absence, ends the mantissa before it. -/
theorem endsMantissa_power {v : List Char} {x : Int} (h : Power v x) (hv : v ≠ [])
    (k : List Char) : EndsMantissa (v ++ k) := by
  have key : ∀ {c : Char} (s : List Char), isMark c = true → EndsMantissa (c :: s) := by
    intro c s hc
    refine ⟨noDigit_cons (digitValue?_of_isMark hc), fun d hd e => ?_⟩
    cases hd
    subst e
    cases hc
  cases h with
  | none => exact absurd rfl hv
  | unsigned hc _ _ | plus hc _ _ | minus hc _ _ => exact key _ hc

theorem scanUnsigned_append {w v : List Char} {ws fs : List Nat} {x : Int}
    (hw : Mantissa w ws fs) (hv : Power v x) (k : List Char) :
    ∃ n r, scanUnsigned (w ++ v ++ k) = some (n, r) ∧ r.length ≤ k.length ∧
      (Ends k → n = ⟨ws, fs, x⟩ ∧ r = k) := by
  obtain ⟨ws', fs', r, hm, hl, he⟩ := scanMantissa_append hw (v ++ k)
  rw [← List.append_assoc] at hm
  obtain ⟨hx, hk⟩ := scanExponent_append hv k
  refine ⟨_, _, scanUnsigned_of_mantissa hm, ?_, fun h => ?_⟩
  · -- without an exponent the mantissa stands right before `k`, and may go on into it
    by_cases hn : v = []
    · subst hn
      exact Nat.le_trans (length_scanExponent_le r) hl
    · obtain ⟨-, -, rfl⟩ := he (endsMantissa_power hv hn k)
      exact hx
  · have hd : NoDigit k := fun c hc => (h c hc).1
    have hend : EndsMantissa (v ++ k) := by
      by_cases hn : v = []
      · subst hn
        exact ⟨hd, fun c hc => (h c hc).2.1⟩
      · exact endsMantissa_power hv hn k
    obtain ⟨rfl, rfl, rfl⟩ := he hend
    rw [hk hd fun c hc => (h c hc).2.2]
    exact ⟨rfl, rfl⟩

/-- Without a plus sign a numeral is one without sign. -/
theorem scan_of_ne {c : Char} (h : c ≠ '+') (s : List Char) :
    scan (c :: s) = scanUnsigned (c :: s) := by
  unfold scan
  split
  · next e => cases e; exact absurd rfl h
  · rfl

/-- No mantissa begins with a plus sign. -/
theorem scan_mantissa {w : List Char} {ws fs : List Nat} (h : Mantissa w ws fs) (k : List Char) :
    scan (w ++ k) = scanUnsigned (w ++ k) := by
  have digit : ∀ {c : Char} {d : Nat}, digitValue? c = some d → c ≠ '+' := by
    rintro c d hd rfl
    rw [digitValue?_sign _ (by simp)] at hd
    cases hd
  cases h with
  | whole hw hne =>
      cases hw with
      | nil => exact absurd rfl hne
      | cons hd _ => exact scan_of_ne (digit hd) _
  | pointed hw _ _ =>
      cases hw with
      | nil => exact scan_of_ne (by decide) _
      | cons hd _ => exact scan_of_ne (digit hd) _

theorem scanMantissa_eq_none_of_head {c : Char} (hd : digitValue? c = none) (hp : c ≠ '.')
    (s : List Char) : scanMantissa (c :: s) = none := by
  rw [scanMantissa, takeDigits_of_noDigit (noDigit_cons hd)]
  split
  · next e => cases e; exact absurd rfl hp
  · rfl
  · next e => cases e; exact absurd rfl hp
  · next hn _ e => cases e; exact absurd rfl hn

/-- A numeral begins with a digit, a point or a plus sign. -/
theorem scan_eq_none_of_head {c : Char} (hd : digitValue? c = none) (hp : c ≠ '.') (hs : c ≠ '+')
    (s : List Char) : scan (c :: s) = none := by
  rw [scan_of_ne hs, scanUnsigned, scanMantissa_eq_none_of_head hd hp]

/-- A word is scanned to its end at least, and no further before a text that ends it. -/
theorem scan_word {w : List Char} {n : Numeral} (h : Writes w n) (k : List Char) :
    ∃ n' r, scan (w ++ k) = some (n', r) ∧ r.length ≤ k.length ∧ (Ends k → n' = n ∧ r = k) := by
  cases h with
  | @unsigned w v _ _ _ hw hv =>
      rw [List.append_assoc, scan_mantissa hw, ← List.append_assoc]
      exact scanUnsigned_append hw hv k
  | plus hw hv => exact scanUnsigned_append hw hv k

/-- A word is read whole before a text that ends it. -/
theorem scan_append {w k : List Char} {n : Numeral} (h : Writes w n) (hk : Ends k) :
    scan (w ++ k) = some (n, k) := by
  obtain ⟨n', r, hs, -, he⟩ := scan_word h k
  obtain ⟨rfl, rfl⟩ := he hk
  exact hs

theorem ends_nil : Ends [] := by
  intro c hc
  cases hc

/-- A word writes one numeral. -/
theorem Writes.functional {w : List Char} {n n' : Numeral} (h : Writes w n) (h' : Writes w n') :
    n = n' := by
  have hs := scan_append h ends_nil
  rw [scan_append h' ends_nil] at hs
  cases hs
  rfl

/-! ### Characters of numerals -/

/-- A character that stands in no numeral. -/
def Foreign (c : Char) : Prop := digitValue? c = none ∧ c ∉ ['+', '-', '.', 'e', 'E']

/-- Parentheses and the operators that are no signs are foreign to numerals. -/
theorem foreign_delimiter : ∀ c ∈ ['(', ')', '*', '/'], Foreign c := by
  intro c hc
  refine ⟨digitValue?_sign c ?_, ?_⟩ <;> revert c <;>
    simp only [List.forall_mem_cons, List.not_mem_nil, false_implies, implies_true] <;> decide

/-- No numeral goes on into a foreign character. -/
theorem Foreign.ends {c : Char} (h : Foreign c) (s : List Char) : Ends (c :: s) := by
  obtain ⟨hd, hs⟩ := h
  simp only [List.mem_cons, List.not_mem_nil, or_false, not_or] at hs
  rintro _ ⟨⟩
  exact ⟨hd, hs.2.2.1, by simp [isMark, hs]⟩

/-- A row of digits holds nothing else. -/
theorem Row.notMem {c : Char} {w : List Char} {ds : List Nat} (h : Row w ds)
    (hc : digitValue? c = none) : c ∉ w := by
  induction h with
  | nil => exact List.not_mem_nil
  | cons hd _ ih =>
      intro hw
      rcases List.mem_cons.mp hw with rfl | hw
      · rw [hc] at hd
        cases hd
      · exact ih hw

/-- A numeral holds digits, points, marks and signs, and nothing else. -/
theorem Writes.notMem {c : Char} {w : List Char} {n : Numeral} (h : n.Writes w) (hc : Foreign c) :
    c ∉ w := by
  obtain ⟨hc, hs⟩ := hc
  simp only [List.mem_cons, List.not_mem_nil, or_false, not_or] at hs
  obtain ⟨hplus, hminus, hpoint, he, hE⟩ := hs
  have hmark : ∀ {d : Char}, isMark d = true → c ≠ d := by
    rintro d hd rfl
    simp [isMark, he, hE] at hd
  have hmantissa : ∀ {w ws fs}, Mantissa w ws fs → c ∉ w := by
    intro w ws fs h
    cases h with
    | whole hw _ => exact hw.notMem hc
    | pointed hw hv _ => simp [hw.notMem hc, hv.notMem hc, hpoint]
  have hpower : ∀ {v x}, Power v x → c ∉ v := by
    intro v x h
    cases h with
    | none => exact List.not_mem_nil
    | unsigned hd hw _ => simp [hmark hd, hw.notMem hc]
    | plus hd hw _ => simp [hmark hd, hplus, hw.notMem hc]
    | minus hd hw _ => simp [hmark hd, hminus, hw.notMem hc]
  cases h with
  | unsigned hw hv => simp [hmantissa hw, hpower hv]
  | plus hw hv => simp [hplus, hmantissa hw, hpower hv]

/-! ### The longest word -/

/-- `w` is the longest word at the beginning of `s`. -/
def Longest (w s : List Char) : Prop := ∀ v, Word v → v <+: s → v.length ≤ w.length

/-- **A scan takes the longest word**, reads what that word writes, and leaves what follows it. -/
theorem scan_eq_some_iff {s r : List Char} {n : Numeral} :
    scan s = some (n, r) ↔ ∃ w, s = w ++ r ∧ Writes w n ∧ Longest w s := by
  constructor
  · intro h
    obtain ⟨w, rfl, hw⟩ := writes_of_scan h
    refine ⟨w, rfl, hw, ?_⟩
    rintro v ⟨n', hv⟩ ⟨k, hk⟩
    obtain ⟨n₁, r₁, hs, hl, -⟩ := scan_word hv k
    rw [hk, h] at hs
    cases hs
    have := congrArg List.length hk
    simp only [List.length_append] at this
    omega
  · -- what the scan reads is a word at least as long as `w`, which is the longest
    rintro ⟨w, rfl, hw, hmax⟩
    obtain ⟨n', r', hs, hl, -⟩ := scan_word hw r
    obtain ⟨v, hv, hn'⟩ := writes_of_scan hs
    have hlen := hmax v ⟨n', hn'⟩ ⟨r', hv.symm⟩
    have hsum := congrArg List.length hv
    simp only [List.length_append] at hsum
    obtain ⟨rfl, rfl⟩ := List.append_inj hv (by omega)
    rw [hs, hn'.functional hw]

/-- **A scan fails** exactly when no word stands at the beginning of the text. -/
theorem scan_eq_none_iff {s : List Char} : scan s = none ↔ ∀ w, Word w → ¬ w <+: s := by
  constructor
  · rintro h w ⟨n, hw⟩ ⟨k, rfl⟩
    obtain ⟨n', r, hs, -⟩ := scan_word hw k
    rw [h] at hs
    cases hs
  · intro h
    cases hs : scan s with
    | none => rfl
    | some p =>
        obtain ⟨w, rfl, hw⟩ := writes_of_scan (n := p.1) (r := p.2) hs
        exact absurd (List.prefix_append w _) (h w ⟨_, hw⟩)

/-- **Cutting the text behind the numeral** leaves the numeral as it was. -/
theorem scan_of_append {s k x : List Char} {n : Numeral} (h : scan (s ++ x) = some (n, k ++ x)) :
    scan s = some (n, k) := by
  obtain ⟨w, hs, hw, hmax⟩ := scan_eq_some_iff.mp h
  rw [← List.append_assoc] at hs
  refine scan_eq_some_iff.mpr ⟨w, List.append_cancel_right hs, hw, fun v hv hp => ?_⟩
  exact hmax v hv (hp.trans (List.prefix_append s x))

/-- No numeral goes from `a` on into `x`, for there is a foreign character on one of the two sides
of the place between them. -/
def Parted (a x : List Char) : Prop :=
  x = [] ∨ (∃ c ∈ a.getLast?, Foreign c) ∨ ∃ c ∈ x.head?, Foreign c

theorem Parted.length_le {a x v : List Char} (h : Parted a x) (hv : Word v) (hp : v <+: a ++ x) :
    v.length ≤ a.length := by
  obtain ⟨n, hv⟩ := hv
  refine Nat.le_of_not_lt fun hlen => ?_
  -- a longer word would hold both characters beside the place
  obtain ⟨u, rfl⟩ := List.prefix_of_prefix_length_le (List.prefix_append a x) hp (by omega)
  cases u with
  | nil => simp at hlen
  | cons d u =>
      obtain ⟨y, rfl⟩ := (List.prefix_append_right_inj a).mp hp
      rcases h with h | ⟨c, hc, hf⟩ | ⟨c, hc, hf⟩
      · cases h
      · exact hv.notMem hf (List.mem_append_left _ (List.mem_of_mem_getLast? hc))
      · cases hc
        exact hv.notMem hf (List.mem_append_right a List.mem_cons_self)

/-- **A text that is parted from what follows it** is scanned as if nothing followed. -/
theorem scan_parted {a x : List Char} (h : Parted a x) :
    scan (a ++ x) = (scan a).map fun p => (p.1, p.2 ++ x) := by
  cases hs : scan (a ++ x) with
  | none =>
      have hnone : scan a = none := scan_eq_none_iff.mpr fun w hw hp =>
        scan_eq_none_iff.mp hs w hw (hp.trans (List.prefix_append a x))
      rw [hnone]
      rfl
  | some p =>
      obtain ⟨n, k⟩ := p
      obtain ⟨w, hk, hw⟩ := writes_of_scan hs
      have hle := h.length_le ⟨n, hw⟩ ⟨k, hk.symm⟩
      obtain ⟨r, rfl⟩ := List.prefix_of_prefix_length_le ⟨k, hk.symm⟩ (List.prefix_append a x) hle
      rw [List.append_assoc] at hk
      rw [← List.append_cancel_left hk] at hs ⊢
      rw [scan_of_append hs]
      rfl

end Abacus.Numeral
