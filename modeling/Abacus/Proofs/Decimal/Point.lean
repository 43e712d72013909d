import Abacus.Proofs.Decimal.Places
import Abacus.Proofs.Decimal.Shortest

/-!
# Decimal — the point at the end of a text

The exact text of a whole number in its places has a point and a zero behind it, and the text of a
number is what is left without them.

* `InPlaces.no_point_zero`, `WithExponent.no_point_zero`: the fewest digits are written with no `.0`
  at the end, in either form.
* `numberChars_eq_shortestChars`: so it is these that are left, whatever the number.
* `dropPoint_of_exponent`: from a text with an exponent nothing is taken.
-/

namespace Abacus
open Binary64

/-! ### Signs -/

/-- The text of a finite double is that of its magnitude, behind a minus sign when the sign bit is
set. -/
theorem signedChars_of_finite (write : Nat → List Char) {x : Float}
    (h : Binary64.rank x < Binary64.infinityRank) : ∃ w,
      signedChars write x = (if Binary64.isNegative x then '-' :: w else w) ∧
      w = if Binary64.rank x = 0 then ['0'] else write (Binary64.rank x) := by
  unfold signedChars
  simp only [if_neg h.not_gt, if_neg h.ne]
  exact ⟨_, rfl, rfl⟩

theorem signedChars_of_infinity (write : Nat → List Char) {x : Float} (h : rank x = infinityRank) :
    signedChars write x = if isNegative x then ['-', 'i', 'n', 'f'] else ['i', 'n', 'f'] := by
  unfold signedChars
  simp only [h, Nat.lt_irrefl, if_false, if_true]

theorem signedChars_of_notNumber (write : Nat → List Char) {x : Float} (h : infinityRank < rank x) :
    signedChars write x = ['n', 'a', 'n'] := by
  unfold signedChars
  simp only [if_pos h]

/-! ### The two forms -/

/-- A number in one of the two forms. -/
def Formed (w : List Char) : Prop := (∃ q, InPlaces w q) ∨ ∃ q x, WithExponent w q x

theorem Decimal.formed_chars (limit : Int) {d : Decimal} (hd : d.digits % 10 ≠ 0) :
    Formed (d.chars limit) := by
  rw [chars]
  split
  · exact .inl ⟨_, inPlaces_positional hd⟩
  · exact .inr ⟨_, _, withExponent_scientific hd⟩

theorem formed_zero : Formed ['0'] :=
  .inl ⟨_, ['0'], [], ⟨Digits.zeros 1, Digits.nil, List.cons_ne_nil _ _, fun _ => rfl, by simp⟩,
    rfl, rfl⟩

/-- The fewest digits of a finite double are in one of the two forms, behind its sign. -/
theorem formed_shortestChars {x : Float} (h : rank x < infinityRank) : ∃ w,
    shortestChars x = (if isNegative x then '-' :: w else w) ∧ Formed w := by
  obtain ⟨w, htext, hw⟩ := signedChars_of_finite (fun n => (Decimal.shortest n).chars 16) h
  refine ⟨w, htext, ?_⟩
  by_cases h0 : rank x = 0
  · rw [hw, if_pos h0]
    exact formed_zero
  · rw [hw, if_neg h0]
    exact Decimal.formed_chars 16 (Decimal.mod_shortest (Nat.pos_of_ne_zero h0) h)

/-! ### The ends of a text -/

theorem Digits.notMem_point {w : List Char} (h : Digits w) : '.' ∉ w := fun hp =>
  absurd (h '.' hp) (by decide)

/-- Digits in their places end with no zero behind the point. -/
theorem InPlaces.no_point_zero {w : List Char} {q : ℚ} (h : InPlaces w q) : ¬ ['.', '0'] <:+ w := by
  obtain ⟨ws, fs, hs, rfl, -⟩ := h
  intro hend
  cases fs with
  | nil => exact hs.whole.notMem_point (hend.subset (by simp))
  | cons c fs =>
      have hrow : c :: fs <:+ pointed ws (c :: fs) := ⟨ws ++ ['.'], by simp [pointed]⟩
      have hlast : ['0'] <:+ c :: fs :=
        List.suffix_of_suffix_length_le ((List.suffix_cons '.' ['0']).trans hend) hrow (by simp)
      obtain ⟨v, hv⟩ := hlast
      exact hs.last (by rw [← hv, List.getLast?_concat])

/-- Behind an exponent's sign there are two digits at least. -/
theorem WithExponent.no_point_zero {w : List Char} {q : ℚ} {x : Int} (h : WithExponent w q x) :
    ¬ ['.', '0'] <:+ w := by
  obtain ⟨c, fs, es, -, -, hes, hlen, -, -, rfl, -⟩ := h
  intro hend
  have hrow : es <:+ pointed [c] fs ++ 'e' :: (if x < 0 then '-' else '+') :: es :=
    ⟨pointed [c] fs ++ ['e', if x < 0 then '-' else '+'], by simp⟩
  have hsuffix := List.suffix_of_suffix_length_le hend hrow hlen
  exact hes.notMem_point (hsuffix.subset (by simp))

theorem Formed.no_point_zero {w : List Char} (h : Formed w) : ¬ ['.', '0'] <:+ w := by
  rcases h with ⟨q, h⟩ | ⟨q, x, h⟩
  · exact h.no_point_zero
  · exact h.no_point_zero

/-- The fewest digits of a double, of any at all, do not end with `.0`. -/
theorem no_point_zero_shortestChars (x : Float) : ¬ ['.', '0'] <:+ shortestChars x := by
  rcases Nat.lt_trichotomy (rank x) infinityRank with h | h | h
  · obtain ⟨w, htext, hw⟩ := formed_shortestChars h
    rw [htext]
    split
    · rw [List.suffix_cons_iff]
      rintro (h | h)
      · cases h
      · exact hw.no_point_zero h
    · exact hw.no_point_zero
  · rw [shortestChars, signedChars_of_infinity _ h]
    split <;> decide
  · rw [shortestChars, signedChars_of_notNumber _ h]
    decide

/-! ### Taking the point away -/

theorem dropPoint_of_point (w : List Char) :
    dropPoint (String.ofList (w ++ ['.', '0'])) = String.ofList w := by
  rw [dropPoint, String.toList_ofList, if_pos (List.suffix_append w _)]
  simp

theorem dropPoint_of_not {w : List Char} (h : ¬ ['.', '0'] <:+ w) :
    dropPoint (String.ofList w) = String.ofList w := by
  rw [dropPoint, String.toList_ofList, if_neg h]

/-- An exact text has the fewest digits that read back and either `.0` behind them, if they have no
more than a sign besides, or nothing. -/
theorem exactText_cases (x : Float) :
    exactText x = String.ofList (shortestChars x ++ ['.', '0']) ∧ 'e' ∉ shortestChars x ∨
      exactText x = String.ofList (shortestChars x) := by
  have hdef : exactText x = if (shortestChars x).all fun c => c.isDigit || c == '-' then
      String.ofList (shortestChars x ++ ['.', '0']) else String.ofList (shortestChars x) := rfl
  generalize shortestChars x = cs at hdef ⊢
  cases hall : cs.all fun c => c.isDigit || c == '-' with
  | false =>
      rw [hall] at hdef
      exact .inr hdef
  | true =>
      rw [hall] at hdef
      exact .inl ⟨hdef, fun he => absurd (List.all_eq_true.mp hall 'e' he) (by decide)⟩

/-- **The text of a number** is the fewest digits that read back, and no more. -/
theorem numberChars_eq_shortestChars (x : Float) : numberChars x = shortestChars x := by
  rw [numberChars, numberText]
  rcases exactText_cases x with ⟨h, -⟩ | h
  · rw [h, dropPoint_of_point, String.toList_ofList]
  · rw [h, dropPoint_of_not (no_point_zero_shortestChars x), String.toList_ofList]

/-- From an exact text with an exponent nothing is taken. -/
theorem dropPoint_of_exponent {x : Float} (he : 'e' ∈ (exactText x).toList) :
    dropPoint (exactText x) = exactText x := by
  rcases exactText_cases x with ⟨h, hnone⟩ | h
  · rw [h, String.toList_ofList, List.mem_append] at he
    exact absurd he (not_or.mpr ⟨hnone, by decide⟩)
  · rw [h, dropPoint_of_not (no_point_zero_shortestChars x)]

/-! ### Numbers without digits -/

theorem numberChars_of_infinity {x : Float} (h : rank x = infinityRank) :
    numberChars x = if isNegative x then ['-', 'i', 'n', 'f'] else ['i', 'n', 'f'] :=
  (numberChars_eq_shortestChars x).trans (signedChars_of_infinity _ h)

theorem numberChars_of_notNumber {x : Float} (h : infinityRank < rank x) :
    numberChars x = ['n', 'a', 'n'] :=
  (numberChars_eq_shortestChars x).trans (signedChars_of_notNumber _ h)

end Abacus
