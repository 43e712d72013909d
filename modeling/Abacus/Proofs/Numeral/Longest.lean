import Abacus.Proofs.Numeral.Nearest
import Abacus.Proofs.Numeral.Pattern

/-!
# Numerals — the longest one is read

Where no word stands at a cursor, nothing is read and the cursor stays.  Otherwise it is the longest
word that is read, and all of it.

* `Writes.power_of_mark`: from the first mark of a word on there is an exponent.
* `Writes.before_point`: in front of the point of a word there is no point, and no mark.
* `longest_of_mark`, `longest_of_point`: so a mark without digits behind it, and a second point,
  belong to no word that begins there.
* `readNumeral_longest`: the whole of it, with the match of the pattern.
-/

namespace Abacus.Numeral
open Text

/-! ### Marks and points in a word -/

/-- A word is a mantissa and an exponent, and a plus sign may stand before them. -/
theorem Writes.parts {w : List Char} {n : Numeral} (h : Writes w n) : ∃ g m v,
    w = g ++ m ++ v ∧ g ⊆ ['+'] ∧ Mantissa m n.whole n.fraction ∧ Power v n.exponent := by
  cases h with
  | @unsigned m v _ _ _ hm hv => exact ⟨[], m, v, rfl, List.nil_subset _, hm, hv⟩
  | @plus m v _ _ _ hm hv => exact ⟨['+'], m, v, rfl, List.Subset.refl _, hm, hv⟩

theorem ne_of_isMark {c d : Char} (hc : isMark c = true) (hd : isMark d = false) : c ≠ d := by
  rintro rfl
  rw [hc] at hd
  cases hd

/-- A mantissa has no mark. -/
theorem Mantissa.notMem_mark {w : List Char} {ws fs : List Nat} {c : Char} (h : Mantissa w ws fs)
    (hc : isMark c = true) : c ∉ w := by
  have hd := digitValue?_of_isMark hc
  cases h with
  | whole hw _ => exact hw.notMem hd
  | pointed hw hv _ => simp [hw.notMem hd, hv.notMem hd, ne_of_isMark hc (d := '.') rfl]

/-- An exponent has no point. -/
theorem Power.notMem_point {v : List Char} {x : Int} (h : Power v x) : '.' ∉ v := by
  have hpoint := digitValue?_sign '.' (by simp)
  have hmark {c : Char} (hc : isMark c = true) : '.' ≠ c := (ne_of_isMark hc rfl).symm
  cases h with
  | none => exact List.not_mem_nil
  | unsigned hc hw _ => simp [hmark hc, hw.notMem hpoint]
  | plus hc hw _ => simp [hmark hc, hw.notMem hpoint]
  | minus hc hw _ => simp [hmark hc, hw.notMem hpoint]

theorem Power.isMark_head {c : Char} {v : List Char} {x : Int} (h : Power (c :: v) x) :
    isMark c = true := by
  cases h with
  | unsigned hc _ _ => exact hc
  | plus hc _ _ => exact hc
  | minus hc _ _ => exact hc

/-- A plus sign in front adds no other character. -/
theorem notMem_signed {g w : List Char} {c : Char} (hg : g ⊆ ['+']) (hw : c ∉ w) (hc : c ≠ '+') :
    c ∉ g ++ w := by
  intro h
  rcases List.mem_append.mp h with h | h
  · exact hc (List.mem_singleton.mp (hg h))
  · exact hw h

/-- From the first mark of a word on there is an exponent. -/
theorem Writes.power_of_mark {a b : List Char} {c : Char} {n : Numeral} (h : Writes (a ++ c :: b) n)
    (hc : isMark c = true) (ha : ∀ d ∈ a, isMark d = false) :
    Power (c :: b) n.exponent := by
  obtain ⟨g, m, v, hw, hg, hm, hv⟩ := h.parts
  have hgm : c ∉ g ++ m := notMem_signed hg (hm.notMem_mark hc) (ne_of_isMark hc rfl)
  rcases List.append_eq_append_iff.mp hw with ⟨u, hu, hb⟩ | ⟨u, hu, hb⟩
  · cases u with
    | nil => exact hb ▸ hv
    | cons d u =>
        obtain ⟨rfl, -⟩ := List.cons.inj hb
        exact absurd (hu ▸ List.mem_append_right a List.mem_cons_self) hgm
  · cases u with
    | nil => exact (List.nil_append (c :: b) ▸ hb) ▸ hv
    | cons d u =>
        rw [hb] at hv
        have hd := ha d (hu ▸ List.mem_append_right _ List.mem_cons_self)
        rw [hv.isMark_head] at hd
        cases hd

/-- In front of the point of a word there is no point, and no mark. -/
theorem Writes.before_point {a b : List Char} {n : Numeral} (h : Writes (a ++ '.' :: b) n) :
    ∀ d ∈ a, d ≠ '.' ∧ isMark d = false := by
  obtain ⟨ws, fs, x⟩ := n
  obtain ⟨g, m, v, hw, hg, hm, hv⟩ := h.parts
  have hpoint := digitValue?_sign '.' (by simp)
  have hfront {p : List Char} {ds : List Nat} (hp : Row p ds) : '.' ∉ g ++ p :=
    notMem_signed hg (hp.notMem hpoint) (by decide)
  cases hm with
  | whole hrow _ =>
      have hmem : '.' ∈ g ++ m ++ v := hw ▸ List.mem_append_right a List.mem_cons_self
      exact ((List.mem_append.mp hmem).elim (hfront hrow) hv.notMem_point).elim
  | @pointed p q _ _ hp hq _ =>
      have hbehind : '.' ∉ q ++ v := by
        rw [List.mem_append, not_or]
        exact ⟨hq.notMem hpoint, hv.notMem_point⟩
      have hsplit : g ++ (p ++ '.' :: q) ++ v = (g ++ p) ++ '.' :: (q ++ v) := by simp
      rw [hsplit] at hw
      obtain ⟨rfl, -⟩ := (List.append_cons_inj_of_notMem (hfront hp) hbehind).mp hw.symm
      intro d hd
      refine ⟨fun h => hfront hp (h ▸ hd), Bool.eq_false_iff.mpr fun hmark => ?_⟩
      exact notMem_signed hg (hp.notMem (digitValue?_of_isMark hmark))
        (ne_of_isMark hmark rfl) hd

/-! ### Words that are the longest -/

/-- No exponent goes on from a mark into the text: there is no digit next, nor behind a sign. -/
def NoPower (k : List Char) : Prop := ∀ g ∈ [[], ['+'], ['-']], ∀ r, k = g ++ r → NoDigit r

theorem Row.not_noDigit {w : List Char} {ds : List Nat} (h : Row w ds) (hne : ds ≠ [])
    (k : List Char) : ¬ NoDigit (w ++ k) := by
  intro hno
  cases h with
  | nil => exact hne rfl
  | cons hd _ =>
      rw [hno _ rfl] at hd
      cases hd

theorem Power.not_noPower {c : Char} {v : List Char} {x : Int} (h : Power (c :: v) x)
    (k : List Char) : ¬ NoPower (v ++ k) := by
  intro hno
  cases h with
  | unsigned _ hw hne => exact hw.not_noDigit hne k (hno [] (by simp) _ rfl)
  | plus _ hw hne => exact hw.not_noDigit hne k (hno ['+'] (by simp) _ rfl)
  | minus _ hw hne => exact hw.not_noDigit hne k (hno ['-'] (by simp) _ rfl)

/-- A word is the longest when no word goes on into the next character. -/
theorem longest_of_next {w k : List Char} {c : Char}
    (h : ∀ u, u <+: k → ¬ Word (w ++ c :: u)) : Longest w (w ++ c :: k) := by
  intro v hv hp
  refine Nat.le_of_not_lt fun hlt => ?_
  obtain ⟨u, rfl⟩ := List.prefix_of_prefix_length_le (List.prefix_append w _) hp hlt.le
  cases u with
  | nil => simp at hlt
  | cons d u =>
      obtain ⟨rfl, hu⟩ := List.cons_prefix_cons.mp ((List.prefix_append_right_inj w).mp hp)
      exact h u hu hv

/-- A mark that no digits follow is left. -/
theorem longest_of_mark {w k : List Char} {c : Char} (hw : ∀ d ∈ w, isMark d = false)
    (hc : isMark c = true) (hk : NoPower k) : Longest w (w ++ c :: k) := by
  refine longest_of_next ?_
  rintro u ⟨r, rfl⟩ ⟨n, hn⟩
  exact (hn.power_of_mark hc hw).not_noPower r hk

/-- A point behind a point or a mark is left. -/
theorem longest_of_point {w : List Char} (hw : ∃ d ∈ w, d = '.' ∨ isMark d = true)
    (k : List Char) : Longest w (w ++ '.' :: k) := by
  refine longest_of_next fun u _ ⟨n, hn⟩ => ?_
  obtain ⟨d, hd, h⟩ := hw
  obtain ⟨hpoint, hmark⟩ := hn.before_point d hd
  rcases h with h | h
  · exact hpoint h
  · rw [h] at hmark
    cases hmark

end Abacus.Numeral

namespace Abacus.Grammar
open Numeral Text

namespace Cursor

variable {c : Cursor}

/-- Where the scan finds no numeral the cursor stays. -/
theorem readNumeral_of_none (hc : c.pos ≤ c.source.length) (h : scan c.rest = none) :
    c.readNumeral = (.error ⟨.expectedNumber, c.pos⟩, c) := by
  have hpos : c.source.length - c.rest.length = c.pos := by
    rw [length_rest]
    omega
  have hdepth : c.maxDepth - c.room = c.depth := Int.sub_sub_self _ _
  rw [readNumeral, numeral]
  split
  · next h' => rw [h] at h'; cases h'
  · simp only [read, stopped, goTo, hpos, hdepth]
    rfl

/-- The longest word is read. -/
theorem readNumeral_of_longest {w r : List Char} {n : Numeral} (hw : c.rest = w ++ r)
    (hn : n.Writes w) (hl : Longest w c.rest) :
    c.readNumeral = (.ok (.const n.value), { c with pos := c.pos + w.length }) :=
  readNumeral_of_scan hw (scan_eq_some_iff.mpr ⟨w, hw, hn, hl⟩)

end Cursor

/-- **The longest numeral is read**, and none exactly where no word of the language stands.
* Where none is read, the error is at the cursor, and the cursor stays.
* The pattern has a match exactly where there is a word, and the match is the longest word.
* A mark that no digits follow is left behind a word, and so is a point behind one that has a point
  or an exponent. -/
theorem readNumeral_longest (c : Cursor) (hc : c.pos ≤ c.source.length) :
    ((∃ e c', c.readNumeral = (.error e, c')) ↔ ∀ w, Word w → ¬ w <+: c.rest) ∧
    (∀ e c', c.readNumeral = (.error e, c') → e = ⟨.expectedNumber, c.pos⟩ ∧ c' = c) ∧
    (pattern.rest? c.rest = none ↔ ∀ w, Word w → ¬ w <+: c.rest) ∧
    ((∃ w, Word w ∧ w <+: c.rest) → ∃ w r n, c.rest = w ++ r ∧ pattern.rest? c.rest = some r ∧
      Longest w c.rest ∧ Writes w n ∧
      c.readNumeral = (.ok (.const n.value), { c with pos := c.pos + w.length })) ∧
    (∀ w m k, c.rest = w ++ m :: k → Word w → (∀ d ∈ w, isMark d = false) → isMark m = true →
      NoPower k → c.readNumeral.2 = { c with pos := c.pos + w.length }) ∧
    ∀ w k, c.rest = w ++ '.' :: k → Word w → (∃ d ∈ w, d = '.' ∨ isMark d = true) →
      c.readNumeral.2 = { c with pos := c.pos + w.length } := by
  have hpattern : pattern.rest? c.rest = none ↔ ∀ w, Word w → ¬ w <+: c.rest := by
    rw [rest?_pattern, Option.map_eq_none_iff, scan_eq_none_iff]
  have hleft : ∀ w r, c.rest = w ++ r → Word w → Longest w c.rest →
      c.readNumeral.2 = { c with pos := c.pos + w.length } := by
    rintro w r hw ⟨n, hn⟩ hl
    rw [Cursor.readNumeral_of_longest hw hn hl]
  have hread : (∃ w, Word w ∧ w <+: c.rest) → ∃ w r n, c.rest = w ++ r ∧
      pattern.rest? c.rest = some r ∧ Longest w c.rest ∧ Writes w n ∧
      c.readNumeral = (.ok (.const n.value), { c with pos := c.pos + w.length }) := by
    rintro ⟨v, hv, hp⟩
    cases hs : scan c.rest with
    | none => exact (scan_eq_none_iff.mp hs v hv hp).elim
    | some q =>
        obtain ⟨n, r⟩ := q
        obtain ⟨w, hw, hn, hl⟩ := scan_eq_some_iff.mp hs
        exact ⟨w, r, n, hw, by rw [rest?_pattern, hs]; rfl, hl, hn,
          Cursor.readNumeral_of_longest hw hn hl⟩
  have hnone : (∀ w, Word w → ¬ w <+: c.rest) →
      c.readNumeral = (.error ⟨.expectedNumber, c.pos⟩, c) := fun h =>
    Cursor.readNumeral_of_none hc (scan_eq_none_iff.mpr h)
  have herror : ∀ e c', c.readNumeral = (.error e, c') → ∀ w, Word w → ¬ w <+: c.rest := by
    intro e c' h w hw hp
    obtain ⟨_, _, _, _, _, _, _, hok⟩ := hread ⟨w, hw, hp⟩
    rw [hok] at h
    cases h
  refine ⟨⟨fun ⟨e, c', h⟩ => herror e c' h, fun h => ⟨_, _, hnone h⟩⟩, fun e c' h => ?_, hpattern,
    hread, fun w m k hw hword hno hm hk => ?_, fun w k hw hword hp => ?_⟩
  · rw [hnone (herror e c' h)] at h
    cases h
    exact ⟨rfl, rfl⟩
  · exact hleft w _ hw hword (hw ▸ longest_of_mark hno hm hk)
  · exact hleft w _ hw hword (hw ▸ longest_of_point hp k)

/-- A cursor at a numeral whose exponent has no digits. -/
def unfinished : Cursor := { source := "(+2.e-)".toList, pos := 1 }

/-- A cursor at a numeral with a point in it and one behind it. -/
def twicePointed : Cursor := { source := "١.5e0.5".toList }

/-- A cursor at a mark and digits. -/
def markAlone : Cursor := { source := "(e5)".toList, pos := 1 }

/-- Of `+2.e-` the mark is left and of `١.5e0.5` the second point, and at `e5` nothing is read. -/
theorem readNumeral_longest_unfinished :
    (unfinished.pos ≤ unfinished.source.length ∧
      unfinished.rest = "+2.".toList ++ 'e' :: ['-', ')'] ∧ Word "+2.".toList ∧
      (∀ d ∈ "+2.".toList, isMark d = false) ∧ isMark 'e' = true ∧ NoPower ['-', ')'] ∧
      unfinished.readNumeral.2 = { unfinished with pos := 4 }) ∧
    (twicePointed.pos ≤ twicePointed.source.length ∧
      twicePointed.rest = "١.5e0".toList ++ '.' :: ['5'] ∧ Word "١.5e0".toList ∧
      (∃ d ∈ "١.5e0".toList, d = '.' ∨ isMark d = true) ∧
      twicePointed.readNumeral.2 = { twicePointed with pos := 5 } ∧
      ∃ w r n, twicePointed.rest = w ++ r ∧ pattern.rest? twicePointed.rest = some r ∧
        Longest w twicePointed.rest ∧ Writes w n ∧ twicePointed.readNumeral =
          (.ok (.const n.value), { twicePointed with pos := twicePointed.pos + w.length })) ∧
    markAlone.pos ≤ markAlone.source.length ∧
      markAlone.readNumeral = (.error ⟨.expectedNumber, 1⟩, markAlone) ∧
      ∀ w, Word w → ¬ w <+: markAlone.rest := by
  have word {w : List Char} {n : Numeral} (h : scan w = some (n, [])) : Word w := by
    obtain ⟨v, rfl, hv⟩ := writes_of_scan h
    rw [List.append_nil]
    exact ⟨n, hv⟩
  have htwo : Word "+2.".toList := word rfl
  have hhalf : Word "١.5e0".toList := word rfl
  have hplain : ∀ d ∈ "+2.".toList, isMark d = false := by simp [isMark]
  have hpoint : ∃ d ∈ "١.5e0".toList, d = '.' ∨ isMark d = true := ⟨'.', by simp, .inl rfl⟩
  have hno : NoPower ['-', ')'] := by
    intro g hg r hr
    simp only [List.mem_cons, List.not_mem_nil, or_false] at hg
    rcases hg with rfl | rfl | rfl
    · cases hr
      exact noDigit_cons (digitValue?_sign '-' (by simp))
    · cases hr
    · cases hr
      exact noDigit_cons (digitValue?_sign ')' (by simp))
  have hpre : "١.5e0".toList <+: twicePointed.rest := ⟨".5".toList, rfl⟩
  have hstop : markAlone.readNumeral = (.error ⟨.expectedNumber, 1⟩, markAlone) := rfl
  obtain ⟨-, -, -, -, hmark, -⟩ := readNumeral_longest unfinished (by decide)
  obtain ⟨-, -, -, hread, -, hsecond⟩ := readNumeral_longest twicePointed (Nat.zero_le _)
  obtain ⟨herror, -⟩ := readNumeral_longest markAlone (by decide)
  exact ⟨⟨by decide, rfl, htwo, hplain, rfl, hno, hmark _ _ _ rfl htwo hplain rfl hno⟩,
    ⟨Nat.zero_le _, rfl, hhalf, hpoint, hsecond _ _ rfl hhalf hpoint, hread ⟨_, hhalf, hpre⟩⟩,
    by decide, hstop, herror.mp ⟨_, _, hstop⟩⟩

end Abacus.Grammar
