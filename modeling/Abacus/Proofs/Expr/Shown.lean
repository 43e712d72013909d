import Abacus.Proofs.Decimal.Significant
import Abacus.Proofs.Expr.RoundTrip
import Abacus.Proofs.Value.Simulation

/-!
# Expr — a shown value is an expression

The text of a finite value is an expression of the language, in the basic grammar as in the
extended one.

* `value_is_numeral`: to whatever number of digits, the text is one numeral, behind a minus sign
  when the sign bit is set; from seventeen digits on the numeral is read as the value's magnitude.
* `parse_valueText`: so the text parses as one constant or the negation of one, and the tree has the
  value back.
-/

namespace Abacus
open Binary64 Grammar

/-- The text of a finite double to `p` digits is a numeral behind its sign. -/
theorem value_is_numeral {x : Float} {p : Nat} (h : rank x < infinityRank) (hp : 1 ≤ p) :
    ∃ w, ∃ n : Numeral, valueChars p x = (if isNegative x then '-' :: w else w) ∧ n.Writes w ∧
      (17 ≤ p → n.value = ofRank false (rank x)) := by
  obtain ⟨w, htext, hw⟩ := valueChars_of_finite h hp
  rcases Nat.eq_zero_or_pos (rank x) with h0 | h0
  · rw [if_pos h0] at hw
    obtain ⟨n, hn, hvalue⟩ := number_zero
    exact ⟨w, n, htext, hw ▸ hn, fun _ => h0 ▸ hvalue⟩
  · rw [if_neg h0.ne'] at hw
    obtain ⟨d, -, -, hmod⟩ := Decimal.rounds_units h0 h hp
    obtain ⟨n, hn, hq⟩ := Decimal.tells_chars p hmod
    refine ⟨w, n, htext, hw ▸ hn, fun h17 => ?_⟩
    rw [Numeral.value_of_rational hq, Decimal.rank_significant h0 h (le_min h17 (by decide))]

/-- A numeral and its negation are sentences where one minus sign may stand. -/
theorem sentence_signed {w : List Char} {n : Numeral} (hn : n.Writes w)
    (extended negative : Bool) : Sentence extended 1 (if negative then '-' :: w else w)
      (if negative then .neg (.const n.value) else .const n.value) := by
  refine ⟨[], _, [], (List.append_nil _).symm, blanks_nil, .summand (.factor ?_), blanks_nil⟩
  cases negative with
  | false => exact .numeral hn
  | true => exact .neg (b := []) blanks_nil (.numeral hn)

/-- **A shown value is an expression.**  Its text parses, with nothing left over and with room for
one minus sign, as one constant, or as the negation of one when the sign bit is set; and if
seventeen digits or more are shown, the value of that tree is the value that was shown, the zeros
with their signs and the least doubles too.  A precision of `2 ^ 31` or more is refused. -/
theorem parse_valueText (x : Float) (hx : x.isFinite = true) (extended : Bool) (m : Int)
    (hm : 1 ≤ m) :
    (∀ p : Nat, 1 ≤ p → p < 0x80000000 → ∃ text t v,
      valueText x p = .ok text ∧
      parse text { strict := true, extended, maxDepth := m } = .ok t ∧
      t = (if isNegative x then .neg (.const v) else .const v) ∧
      (17 ≤ p → evaluate t = .ok x)) ∧
    ∀ p : Int, 0x80000000 ≤ p → ∃ e, valueText x p = .error e := by
  have hr := isFinite_iff.mp hx
  refine ⟨fun p hp hlt => ?_, fun p hp => valueText_of_large x hp⟩
  obtain ⟨w, n, htext, hn, hvalue⟩ := value_is_numeral hr hp
  refine ⟨_, _, n.value, valueText_of_lt x hlt, ?_, rfl, fun h17 => ?_⟩
  · have hs := sentence_signed hn extended (isNegative x)
    rw [← htext] at hs
    rw [parse, String.toList_ofList,
      parseChars_of_ok (o := { strict := true, extended, maxDepth := m })
        (read_of_sentence hs hm), if_neg (by simp)]
  · have hback := ofRank_rank hr.le
    rw [evaluate_eq_eval, hvalue h17]
    cases hsign : isNegative x with
    | false =>
        rw [hsign] at hback
        exact congrArg Except.ok hback
    | true =>
        rw [hsign] at hback
        exact congrArg Except.ok ((neg_ofRank false hr).trans hback)

/-- The negative double next to zero. -/
def leastNegative : Float := ofRank true 1

/-- The text of the negative double next to zero has an exponent and parses in the basic grammar,
with room for its sign alone. -/
theorem parse_valueText_leastNegative :
    leastNegative.isFinite = true ∧ (1 : Int) ≤ 1 ∧
    ((∀ p : Nat, 1 ≤ p → p < 0x80000000 → ∃ text t v,
      valueText leastNegative p = .ok text ∧
      parse text { strict := true, extended := false, maxDepth := 1 } = .ok t ∧
      t = (if isNegative leastNegative then .neg (.const v) else .const v) ∧
      (17 ≤ p → evaluate t = .ok leastNegative)) ∧
    ∀ p : Int, 0x80000000 ≤ p → ∃ e, valueText leastNegative p = .error e) ∧
    valueText leastNegative 17 = .ok "-4.9406564584124654e-324" := by
  have hx : leastNegative.isFinite = true := by decide
  exact ⟨hx, le_rfl, parse_valueText leastNegative hx false 1 le_rfl, by decide +kernel⟩

/-- With a precision of `2 ^ 31` one half has no text, and so none that parses. -/
theorem parse_valueText_half_refused :
    ((0.5 : Float).isFinite = true ∧ (1 : Int) ≤ 0x80000000) ∧ ∀ text t,
      ¬ (valueText 0.5 0x80000000 = .ok text ∧
        parse text { strict := true, extended := true, maxDepth := 1 } = .ok t) := by
  refine ⟨⟨by decide, by decide⟩, fun text t h => ?_⟩
  obtain ⟨e, he⟩ := valueText_of_large 0.5 (p := 0x80000000) le_rfl
  rw [he] at h
  cases h.1

end Abacus
