import Abacus.Expr.Draft
import Abacus.Proofs.Expr.Readable

/-!
# Expr — what a text tells about a draft

The constants of a draft are words, and all words of what is no number come to one value.

* `Word.toFloat_eq_iff`: no other words come to the same double.
* `toExpr_eq_iff`: so drafts come to the same tree when they are the same but for such words, and
  every tree is one that a draft comes to (`exists_toExpr`).
* `toExpr_unsigned`: taking away the signs of numbers is the same before and after.
* `render_eq_render_iff`: hence a text tells the draft without signs of numbers, and no more.

A sign bit of what is no number is not told by any text, not even as a negation
(`render_signed_notNumber`).
-/

namespace Abacus
open Binary64 Grammar

namespace Binary64.Word

variable {v w : Word}

theorem toFloat_of_isNaN (h : w.isNaN = true) : w.toFloat = notNumber := if_pos h

theorem toFloat_of_not (h : w.isNaN = false) : w.toFloat = ofRank w.isNegative w.rank :=
  if_neg (Bool.eq_false_iff.mp h)

theorem rank_le (h : w.isNaN = false) : w.rank ≤ infinityRank :=
  Nat.le_of_not_lt (of_decide_eq_false h)

theorem rank_toFloat (h : w.isNaN = false) : Binary64.rank w.toFloat = w.rank := by
  rw [toFloat_of_not h, rank_ofRank, Nat.min_eq_left (rank_le h)]

theorem isNegative_toFloat (h : w.isNaN = false) :
    Binary64.isNegative w.toFloat = w.isNegative := by
  rw [toFloat_of_not h, isNegative_ofRank]

/-- A word is its sign bit and its rank. -/
theorem eq_of_sign_of_rank (hs : v.isNegative = w.isNegative) (hr : v.rank = w.rank) : v = w := by
  apply UInt64.toNat_inj.mp
  have hv := v.toNat_lt
  have hw := w.toNat_lt
  unfold isNegative at hs
  rw [decide_eq_decide] at hs
  unfold rank signBit block at *
  omega

theorem ne_toFloat (hv : v.isNaN = true) (hw : w.isNaN = false) : v.toFloat ≠ w.toFloat := by
  intro h
  have hr := rank_toFloat hw
  have hle := rank_le hw
  have hnone : infinityRank < Binary64.rank notNumber := by decide
  rw [← h, toFloat_of_isNaN hv] at hr
  omega

/-- **Words come to the same double** when they are the same, or when both are no number. -/
theorem toFloat_eq_iff : v.toFloat = w.toFloat ↔ v = w ∨ v.isNaN = true ∧ w.isNaN = true := by
  cases hv : v.isNaN with
  | true =>
      cases hw : w.isNaN with
      | true => simp [toFloat_of_isNaN hv, toFloat_of_isNaN hw]
      | false =>
          have hne : v ≠ w := by
            rintro rfl
            simp [hv] at hw
          simp [ne_toFloat hv hw, hne]
  | false =>
      cases hw : w.isNaN with
      | true =>
          have hne : v ≠ w := by
            rintro rfl
            simp [hv] at hw
          simp [(ne_toFloat hw hv).symm, hne]
      | false =>
          simp only [Bool.false_eq_true, and_self, or_false]
          refine ⟨fun h => eq_of_sign_of_rank ?_ ?_, fun h => by rw [h]⟩
          · rw [← isNegative_toFloat hv, ← isNegative_toFloat hw, h]
          · rw [← rank_toFloat hv, ← rank_toFloat hw, h]

/-- Every double has a word. -/
theorem toFloat_toBits (x : Float) : Word.toFloat x.toBits = x := by
  have hrank : Word.rank x.toBits = Binary64.rank x := rfl
  rcases Nat.lt_or_ge infinityRank (Binary64.rank x) with h | h
  · rw [toFloat_of_isNaN (decide_eq_true (hrank ▸ h)), eq_notNumber_of_rank h]
  · rw [toFloat_of_not (decide_eq_false (hrank ▸ h.not_gt))]
    exact ofRank_rank h

theorem toNat_magnitude (w : Word) : w.magnitude.toNat = w.rank := by
  have hlt := Nat.mod_lt w.toNat (show 0 < signBit by decide)
  refine UInt64.toNat_ofNat_of_lt' (Nat.lt_trans hlt ?_)
  decide

/-- The word without its sign bit comes to the magnitude. -/
theorem toFloat_magnitude (h : w.isNegative = true) (hw : w.isNaN = false) :
    w.magnitude.toFloat = -w.toFloat := by
  have hnat := w.toNat_magnitude
  have hlt := Nat.mod_lt w.toNat (show 0 < signBit by decide)
  have hrank : w.magnitude.rank = w.rank := by
    rw [rank, hnat]
    exact Nat.mod_eq_of_lt hlt
  have hsign : w.magnitude.isNegative = false :=
    decide_eq_false (by rw [hnat]; exact Nat.not_le.mpr hlt)
  have hnone : w.magnitude.isNaN = false := by rw [isNaN, hrank]; exact hw
  have hneg : Binary64.isNegative w.toFloat = true := (isNegative_toFloat hw).trans h
  rw [neg_eq_ofRank hneg, rank_toFloat hw, toFloat_of_not hnone, hsign, hrank]

end Binary64.Word

namespace Draft

/-- **Drafts come to the same tree** when they are the same but for the words of what is no
number. -/
theorem toExpr_eq_iff {a : Draft} : ∀ {b : Draft}, a.toExpr = b.toExpr ↔ a.Same b := by
  induction a with
  | const v =>
      intro b
      cases b with
      | const w => rw [toExpr, toExpr, Expr.const.injEq, Word.toFloat_eq_iff, Same]
      | neg | binary => exact ⟨nofun, False.elim⟩
  | neg a ih =>
      intro b
      cases b with
      | neg b => rw [toExpr, toExpr, Expr.neg.injEq, ih, Same]
      | const | binary => exact ⟨nofun, False.elim⟩
  | binary o l r ihl ihr =>
      intro b
      cases b with
      | binary o' l' r' => rw [toExpr, toExpr, Expr.binary.injEq, ihl, ihr, Same]
      | const | neg => exact ⟨nofun, False.elim⟩

/-- Every tree is one that a draft comes to. -/
theorem exists_toExpr (t : Expr) : ∃ a : Draft, a.toExpr = t := by
  induction t with
  | const x => exact ⟨.const x.toBits, congrArg Expr.const (Word.toFloat_toBits x)⟩
  | neg t ih =>
      obtain ⟨a, rfl⟩ := ih
      exact ⟨.neg a, rfl⟩
  | binary o l r ihl ihr =>
      obtain ⟨a, rfl⟩ := ihl
      obtain ⟨b, rfl⟩ := ihr
      exact ⟨.binary o a b, rfl⟩

/-- The signs of numbers are taken away before a draft comes to a tree, or after. -/
theorem toExpr_unsigned (a : Draft) : a.unsigned.toExpr = a.toExpr.unsigned := by
  unfold unsigned
  induction a with
  | const w =>
      rw [spell, toExpr, Expr.unsigned]
      cases hw : w.isNaN with
      | true =>
          have hsign : isNegative w.toFloat = false := by
            rw [Word.toFloat_of_isNaN hw]
            decide
          simp [hsign, toExpr]
      | false =>
          rw [Word.isNegative_toFloat hw]
          cases hs : w.isNegative with
          | true => simp [toExpr, Word.toFloat_magnitude hs hw]
          | false => simp [toExpr]
  | neg a ih => rw [spell, toExpr, ih, toExpr, Expr.unsigned]
  | binary o l r ihl ihr => rw [spell, toExpr, ihl, ihr, toExpr, Expr.unsigned]

/-- **The text of a draft tells the draft without signs of numbers**, and no more: what is no number
has one text, whatever its word.  The constants of trees that were read are numbers without a sign
bit, so such trees are equal, and the same, exactly when their texts are. -/
theorem render_eq_render_iff :
    (∀ a b : Draft, a.render = b.render ↔ a.unsigned.Same b.unsigned) ∧
    ∀ s o s' o' t u, parse s o = .ok t → parse s' o' = .ok u →
      (t.IsUnsigned ∧ t.IsNumeric) ∧ (u.IsUnsigned ∧ u.IsNumeric) ∧
      ((t == u) = true ↔ t.render = u.render) ∧ (t = u ↔ t.render = u.render) := by
  refine ⟨fun a b => ?_, fun s o s' o' t u ht hu => eq_iff_render_of_parse ht hu⟩
  rw [render, render, Expr.render_inj_iff, ← toExpr_unsigned, ← toExpr_unsigned, toExpr_eq_iff]

/-- `-0` with its sign in the constant, and with its sign in front. -/
def signedZero : Draft := .const 0x8000000000000000

@[inherit_doc signedZero]
def negatedZero : Draft := .neg (.const 0)

/-- What is no number, with its sign bit set and without. -/
def signedNaN : Draft := .const 0xFFF8000000000000

@[inherit_doc signedNaN]
def plainNaN : Draft := .const 0x7FF8000000000000

/-- The tree of `1`. -/
def one : Expr := .const (Numeral.value ⟨[1], [], 0⟩)

/-- The two drafts of `-0` have one text, and so have two words of what is no number; the texts `1`
and `(1)` have one tree. -/
theorem render_eq_render_zeros :
    (signedZero.unsigned.Same negatedZero.unsigned ∧ signedZero.render = negatedZero.render) ∧
    (signedNaN.unsigned.Same plainNaN.unsigned ∧ signedNaN.render = plainNaN.render) ∧
    (parse "1" {} = .ok one ∧ parse "(1)" {} = .ok one ∧
      (one.IsUnsigned ∧ one.IsNumeric) ∧ (one == one) = true) := by
  have hzero : signedZero.unsigned.Same negatedZero.unsigned := by
    have h : signedZero.unsigned = negatedZero.unsigned := by decide
    rw [h]
    exact .inl rfl
  have hnone : signedNaN.unsigned.Same plainNaN.unsigned := .inr (by decide)
  have hread : Reads true 100 (.level .expression) "1".toList (.ok (one, [])) :=
    Reads.lone (k := []) (.numeral rfl) (by simp [Text.skipBlanks])
  have hinner : Reads true (100 - 1) (.level .expression) "1)".toList (.ok (one, ")".toList)) :=
    Reads.lone (k := [')']) (.numeral rfl) (by rintro (_ | _) _ ⟨⟩ <;> rfl)
  have hgroup : Reads true 100 (.level .expression) "(1)".toList (.ok (one, [])) :=
    Reads.lone (k := []) (.group rfl (by decide) hinner rfl) (by simp [Text.skipBlanks])
  have hplain : parse "1" {} = .ok one := by
    rw [parse, parseChars_of_ok (o := {}) hread.eq]
    rfl
  have hgrouped : parse "(1)" {} = .ok one := by
    rw [parse, parseChars_of_ok (o := {}) hgroup.eq]
    rfl
  obtain ⟨hdrafts, htrees⟩ := render_eq_render_iff
  obtain ⟨hplainOne, -, hbeq, -⟩ := htrees _ _ _ _ _ _ hplain hgrouped
  exact ⟨⟨hzero, (hdrafts _ _).mpr hzero⟩, ⟨hnone, (hdrafts _ _).mpr hnone⟩, hplain, hgrouped,
    hplainOne, hbeq.mpr rfl⟩

/-- **A sign that no text tells.**  With a negation in place of every sign bit, the two words of
what is no number would be two trees, which have one text; and the one with the sign bit would be
the negation of the other, which has another text. -/
theorem render_signedNaN :
    (signedNaN.render = plainNaN.render ∧
      ¬ (signedNaN.spell fun _ => true).Same (plainNaN.spell fun _ => true)) ∧
    (signedNaN.spell fun _ => true).Same ((neg plainNaN).spell fun _ => true) ∧
      signedNaN.render ≠ (neg plainNaN).render := by
  have hsigned : (signedNaN.spell fun _ => true) = neg plainNaN := by decide
  have hplain : (plainNaN.spell fun _ => true) = plainNaN := by decide
  have hneg : ((neg plainNaN).spell fun _ => true) = neg plainNaN := congrArg neg hplain
  have htree : signedNaN.toExpr = plainNaN.toExpr := toExpr_eq_iff.mpr (.inr (by decide))
  rw [hsigned, hplain, hneg]
  refine ⟨⟨congrArg Expr.render htree, id⟩, .inl rfl, ?_⟩
  rw [render, render, htree, ne_eq, Expr.render_inj_iff]
  decide

end Draft

end Abacus
