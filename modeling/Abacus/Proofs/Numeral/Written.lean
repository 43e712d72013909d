import Abacus.Proofs.Decimal.Fewest
import Abacus.Proofs.Numeral.Longest

/-!
# Numerals — the text of a number is one

The text of a finite number without a sign is a single literal that reads back as the number, and
the sign of a negative number is written before it.

* `brief_of_finite`: the text has the fewest digits that read back, in the form that the place of
  the first digit asks for.
* `numberText_literal`: all of it together.
-/

namespace Abacus
open Binary64 Grammar Numeral Text

/-! ### The ends of a text -/

theorem Sparing.exists_head {ws fs : List Char} (h : Sparing ws fs) (v : List Char) :
    ∃ c r, pointed ws fs ++ v = c :: r ∧ c.isDigit = true := by
  cases ws with
  | nil => exact (h.ne_nil rfl).elim
  | cons c ws =>
      have hc := h.whole c List.mem_cons_self
      unfold pointed
      split
      · exact ⟨c, _, rfl, hc⟩
      · exact ⟨c, _, rfl, hc⟩

/-- Either form begins with a digit. -/
theorem Formed.exists_head {w : List Char} (h : Formed w) :
    ∃ c r, w = c :: r ∧ c.isDigit = true := by
  rcases h with ⟨q, ws, fs, hs, rfl, -⟩ | ⟨q, x, c, fs, es, hs, -, -, -, -, -, rfl, -⟩
  · have hhead := hs.exists_head []
    rwa [List.append_nil] at hhead
  · exact hs.exists_head _

/-! ### The fewest digits -/

/-- The text writes a decimal that reads back as the number, as none of fewer digits does: with its
digits in their places when the first of them stands between `10 ^ -4` and `10 ^ 15`, and with an
exponent otherwise. -/
structure Brief (w : List Char) (x : Float) (d : Decimal) : Prop where
  reads_back : d.toFloat = x
  fewest : ∀ e : Decimal, e.toFloat = x → decimalLength d.digits ≤ decimalLength e.digits
  inPlaces : 10 ^ (-4 : ℤ) ≤ d.rational → d.rational < 10 ^ (16 : ℤ) → InPlaces w d.rational
  withExponent : d.rational < 10 ^ (-4 : ℤ) ∨ 10 ^ (16 : ℤ) ≤ d.rational →
    ∃ X, WithExponent w d.rational X

theorem Decimal.leading_lt_iff {d : Decimal} (h : d.digits ≠ 0) {X : ℤ} :
    d.leading < X ↔ d.rational < 10 ^ X := by
  obtain ⟨hlo, hhi⟩ := leading_spec h
  have hten : StrictMono fun X : ℤ => (10 : ℚ) ^ X := zpow_right_strictMono₀ (by norm_num)
  constructor
  · exact fun hlt => hhi.trans_le (hten.monotone (Int.add_one_le_of_lt hlt))
  · exact fun hlt => hten.lt_iff_lt.mp (hlo.trans_lt hlt)

/-- A finite number without a sign is written as briefly as can be. -/
theorem brief_of_finite {x : Float} (h : rank x < infinityRank) (hs : isNegative x = false)
    (h0 : 0 < rank x) : Brief (numberChars x) x (Decimal.shortest (rank x)) := by
  have hx : ofRank false (rank x) = x := hs ▸ ofRank_rank h.le
  have hmod := Decimal.mod_shortest h0 h
  have htext : numberChars x = (Decimal.shortest (rank x)).chars 16 := by
    obtain ⟨w, hw, hwrite⟩ := signedChars_of_finite (fun n => (Decimal.shortest n).chars 16) h
    rw [numberChars_eq_shortestChars, shortestChars, hw, hs, if_neg Bool.false_ne_true, hwrite,
      if_neg h0.ne']
  have hlead := @Decimal.leading_lt_iff (Decimal.shortest (rank x)) fun hd => hmod (by rw [hd])
  rw [htext, Decimal.chars]
  constructor
  case reads_back => rw [Decimal.toFloat, Decimal.rank_shortest h0 h, hx]
  case fewest =>
      intro e he
      have hrank := congrArg rank he
      rw [Decimal.toFloat, rank_ofRank] at hrank
      exact Decimal.decimalLength_shortest_le h0 h (by omega)
  case inPlaces =>
      intro hlo hhi
      rw [← not_lt, ← hlead] at hlo
      rw [if_pos ⟨not_lt.mp hlo, hlead.mpr hhi⟩]
      exact Decimal.inPlaces_positional hmod
  case withExponent =>
      intro hout
      rw [← not_lt, ← hlead, ← hlead] at hout
      rw [if_neg (by omega)]
      exact ⟨_, Decimal.withExponent_scientific hmod⟩

/-! ### Literals -/

/-- The text is one literal, in front of whatever can follow an operand, and is read as the
number. -/
structure Literal (w : List Char) (x : Float) : Prop where
  head : ∃ c r, w = c :: r ∧ c.isDigit = true
  value : ∃ n : Numeral, n.Writes w ∧ n.value = x
  matched : ∀ k, Expr.Follows k → pattern.rest? (w ++ k) = some k
  read : ∀ (c : Cursor) (k : List Char), c.rest = w ++ k → Expr.Follows k →
    c.readNumeral = (.ok (.const x), { c with pos := c.pos + w.length })

theorem Expr.Follows.ends {k : List Char} (h : Expr.Follows k) : Ends k := by
  cases k with
  | nil => exact ends_nil
  | cons c k =>
      refine Foreign.ends ?_ k
      rcases List.mem_cons.mp (h c rfl) with rfl | hc
      · exact foreign_of_isBlank rfl
      · exact foreign_delimiter c (by simp_all)

/-- A finite number without a sign is written as a literal. -/
theorem literal_of_finite {x : Float} (h : rank x < infinityRank) (hs : isNegative x = false) :
    Literal (numberChars x) x := by
  have hx : ofRank false (rank x) = x := hs ▸ ofRank_rank h.le
  obtain ⟨w, hw, hformed⟩ := formed_shortestChars h
  rw [← numberChars_eq_shortestChars] at hw
  obtain ⟨v, n, hv, hn, hvalue⟩ := number_of_finite h
  rw [hs, if_neg Bool.false_ne_true] at hw hv
  rw [← hw] at hformed
  rw [← hv] at hn
  rw [hx] at hvalue
  have hscan : ∀ k, Expr.Follows k → scan (numberChars x ++ k) = some (n, k) :=
    fun k hk => scan_append hn hk.ends
  refine ⟨hformed.exists_head, ⟨n, hn, hvalue⟩, fun k hk => ?_, fun c k hc hk => ?_⟩
  · rw [rest?_pattern, hscan k hk]
    rfl
  · rw [Cursor.readNumeral_of_scan hc (hc ▸ hscan k hk), hvalue]

/-- The negation of a finite number without a sign is written behind a minus sign. -/
theorem numberText_neg {x : Float} (hx : x.isFinite = true) (hs : isNegative x = false) :
    numberText (-x) = "-" ++ numberText x := by
  have h := isFinite_iff.mp hx
  have hneg : isNegative (-x) = true := by
    rw [← ofRank_rank h.le, hs, neg_ofRank false h, isNegative_ofRank]
    rfl
  have htext : (numberText (-x)).toList = '-' :: (numberText (- -x)).toList :=
    numberChars_of_isNegative hneg
  rw [← String.toList_inj, htext, neg_neg_of_isFinite hx]
  simp

/-- **The text of a finite number without a sign is a literal of it.**
* It begins with a digit, is matched to its end, and reads back as the number, bit for bit.
* The text of the negated number is the same behind a minus sign.
* Texts are the exact ones without `.0` at the end, which one with an exponent never has.
* The text of any number but zero has the fewest digits that read back. -/
theorem numberText_literal (x : Float) (hx : x.isFinite = true) (hs : isNegative x = false) :
    Literal (numberText x).toList x ∧
    numberText (-x) = "-" ++ numberText x ∧
    (∀ y, numberText y = dropPoint (exactText y) ∧
      ('e' ∈ (exactText y).toList → dropPoint (exactText y) = exactText y)) ∧
    (x ≠ 0 → ∃ d, Brief (numberText x).toList x d) := by
  have h := isFinite_iff.mp hx
  refine ⟨literal_of_finite h hs, numberText_neg hx hs, fun _ => ⟨rfl, dropPoint_of_exponent⟩,
    fun h0 => ⟨_, brief_of_finite h hs ?_⟩⟩
  refine Nat.pos_of_ne_zero fun hr => h0 ?_
  rw [← ofRank_rank h.le, hs, hr]
  decide

/-- The double next to zero. -/
def leastPositive : Float := ofRank false 1

/-- The double next to zero is written with one digit and an exponent of three, which is left alone.
The exact text of fourteen has a point and a zero behind it, and its text has not. -/
theorem numberText_literal_least :
    (leastPositive.isFinite = true ∧ isNegative leastPositive = false) ∧
    Literal (numberText leastPositive).toList leastPositive ∧
    numberText (-leastPositive) = "-" ++ numberText leastPositive ∧
    (leastPositive ≠ 0 ∧ ∃ d, Brief (numberText leastPositive).toList leastPositive d) ∧
    ('e' ∈ (exactText leastPositive).toList ∧
      dropPoint (exactText leastPositive) = exactText leastPositive) ∧
    numberText leastPositive = "5e-324" ∧ exactText leastPositive = "5e-324" ∧
    numberText 14 = "14" ∧ exactText 14 = "14.0" := by
  have hx : leastPositive.isFinite = true := by decide
  have hs : isNegative leastPositive = false := by decide
  have h0 : leastPositive ≠ 0 := by decide
  have he : exactText leastPositive = "5e-324" := by decide +kernel
  have hexponent : 'e' ∈ (exactText leastPositive).toList := by
    rw [he]
    decide
  obtain ⟨hliteral, hneg, hdrop, hbrief⟩ := numberText_literal leastPositive hx hs
  exact ⟨⟨hx, hs⟩, hliteral, hneg, ⟨h0, hbrief h0⟩, ⟨hexponent, (hdrop leastPositive).2 hexponent⟩,
    by decide +kernel, he, by decide +kernel, by decide +kernel⟩

end Abacus
