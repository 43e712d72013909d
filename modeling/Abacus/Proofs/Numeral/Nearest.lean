import Abacus.Proofs.Binary64.Exact
import Abacus.Proofs.Decimal.Scale
import Abacus.Proofs.Expr.Readable
import Abacus.Proofs.Grammar.Cursor
import Abacus.Proofs.Numeral.Scan

/-!
# Numerals — a numeral is read as the double nearest to it

A numeral writes a rational number, whatever its length and its exponent.

* `Decimal.nearest_toFloat`: a decimal's double is the one its value is rounded to.
* `readNumeral_nearest`: where a numeral begins, the longest one is read, as the double nearest to
  the number it writes; so no tree that was read holds a signed constant or one that is no number.
-/

namespace Abacus
open Binary64

/-- A decimal's double is the one its value is rounded to. -/
theorem Decimal.nearest_toFloat (d : Decimal) : Nearest d.rational d.toFloat := by
  rw [rational_eq_div, toFloat, rank_eq]
  exact nearest_ofRank d.numerator d.denominator_pos

namespace Numeral

theorem nearest_value (n : Numeral) : Nearest n.rational n.value :=
  rational_decimal n ▸ n.decimal.nearest_toFloat

end Numeral

namespace Grammar
open Numeral Text

namespace Cursor

/-- Where the scan finds a numeral the cursor reads it. -/
theorem readNumeral_of_scan {c : Cursor} {w r : List Char} {n : Numeral} (hw : c.rest = w ++ r)
    (h : scan c.rest = some (n, r)) :
    c.readNumeral = (.ok (.const n.value), { c with pos := c.pos + w.length }) := by
  have hlt := length_scan h
  have hrest := length_rest c
  rw [hw, List.length_append] at hlt hrest
  have hgo : c.goTo r = { c with pos := c.pos + w.length } := by
    have hpos : c.source.length - r.length = c.pos + w.length := by omega
    rw [goTo, hpos]
  rw [readNumeral, numeral]
  split
  · next n' r' h' =>
      rw [h] at h'
      cases h'
      exact congrArg _ hgo
  · next h' =>
      rw [h] at h'
      cases h'

end Cursor

/-- **A numeral is read as the double nearest to it.**  Where one begins, the longest that begins
there is read, and nothing else is said of its length, its exponent or its digits.  So every
constant of a tree that was read is a number without a sign. -/
theorem readNumeral_nearest :
    (∀ c : Cursor, (∃ w, Word w ∧ w <+: c.rest) → ∃ w n v,
      w <+: c.rest ∧ Longest w c.rest ∧ Writes w n ∧
      c.readNumeral = (.ok (.const v), { c with pos := c.pos + w.length }) ∧
      Nearest n.rational v) ∧
    ∀ source o t, parse source o = .ok t → t.IsUnsigned ∧ t.IsNumeric := by
  refine ⟨fun c hc => ?_, fun source o t h => ⟨isUnsigned_of_parse h, isNumeric_of_parse h⟩⟩
  cases hs : scan c.rest with
  | none =>
      obtain ⟨w, hw, hpre⟩ := hc
      exact (scan_eq_none_iff.mp hs w hw hpre).elim
  | some p =>
      obtain ⟨n, r⟩ := p
      obtain ⟨w, hw, hn, hlong⟩ := scan_eq_some_iff.mp hs
      exact ⟨w, n, n.value, ⟨r, hw.symm⟩, hlong, hn, Cursor.readNumeral_of_scan hw hs,
        n.nearest_value⟩

/-- A cursor before `2 ^ 53 + 1`, which no double is; one of its digits is of another script. -/
def halfway : Cursor := { source := "(+٩007199254740993.)".toList, pos := 1 }

/-- The tree of `3`. -/
def three : Expr := .const (value ⟨[3], [], 0⟩)

/-- Half way between two doubles the even one is read, `2 ^ 53`. -/
theorem readNumeral_nearest_halfway :
    (∃ w, Word w ∧ w <+: halfway.rest) ∧
    (∃ w n v, w <+: halfway.rest ∧ Longest w halfway.rest ∧ Writes w n ∧
      halfway.readNumeral = (.ok (.const v), { halfway with pos := halfway.pos + w.length }) ∧
      Nearest n.rational v) ∧
    halfway.readNumeral = (.ok (.const 9007199254740992), { halfway with pos := 19 }) ∧
    parse "٣" {} = .ok three ∧ three.IsUnsigned ∧ three.IsNumeric := by
  have hscan : scan halfway.rest =
      some (⟨[9, 0, 0, 7, 1, 9, 9, 2, 5, 4, 7, 4, 0, 9, 9, 3], [], 0⟩, [')']) := rfl
  obtain ⟨w, hw, hn, -⟩ := scan_eq_some_iff.mp hscan
  have hword : ∃ w, Word w ∧ w <+: halfway.rest := ⟨w, ⟨_, hn⟩, ⟨_, hw.symm⟩⟩
  have hvalue : value ⟨[9, 0, 0, 7, 1, 9, 9, 2, 5, 4, 7, 4, 0, 9, 9, 3], [], 0⟩ =
      9007199254740992 := by decide +kernel
  have hread := Cursor.readNumeral_of_scan (w := "+٩007199254740993.".toList) rfl hscan
  rw [hvalue] at hread
  have hthree : parse "٣" {} = .ok three := by
    have h : Reads true 100 (.level .expression) "٣".toList (.ok (three, [])) :=
      Reads.lone (k := []) (.numeral rfl) (by simp [skipBlanks])
    rw [parse, parseChars_of_ok (o := {}) h.eq]
    rfl
  exact ⟨hword, readNumeral_nearest.1 halfway hword, hread,
    hthree, readNumeral_nearest.2 _ _ _ hthree⟩

end Grammar

end Abacus
