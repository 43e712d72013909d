import Abacus.Proofs.Binary64.Equality
import Abacus.Proofs.Expr.RoundTrip

/-!
# Expr — what a text tells about its tree

Two trees have the same text only when they differ in nothing but how a sign is written: as the
sign of a constant, or as the negation of its magnitude.

* `magnitude_of_unsigned`: a number without a sign bit is written as a numeral of its value, or as
  one of two names.  Such a word writes one number only, begins neither with a minus sign nor with
  a parenthesis, and holds no blank and no closing parenthesis.
* `textChars_append_inj`: hence the text of a tree without signed constants tells where it ends.
  Two such texts in front of what can follow an operand are the same text of the same tree.
* `Expr.render_inj_iff`: trees have the same text exactly when they are the same without signed
  constants.
* `eq_iff_render_of_parse`: trees that were read have none, and no constant that is not a number, so
  there equal texts, equal trees and the same tree are one thing.
-/

namespace Abacus
open Binary64 Grammar Numeral Text

/-! ### Numbers without a sign -/

/-- The sign of a number is written before the text of its magnitude. -/
theorem numberChars_of_isNegative {x : Float} (h : isNegative x = true) :
    numberChars x = '-' :: numberChars (-x) := by
  have hr := rank_le_of_isNegative h
  rw [numberChars_eq_shortestChars, numberChars_eq_shortestChars]
  unfold shortestChars signedChars
  simp only [neg_eq_ofRank h, rank_ofRank, isNegative_ofRank, Nat.min_eq_left hr, h, if_true,
    Bool.false_eq_true, if_false, if_neg hr.not_gt]

/-- The words of numbers without a sign. -/
inductive Magnitude : List Char → Float → Prop where
  | numeral {w : List Char} {n : Numeral} : n.Writes w → Magnitude w n.value
  | infinity : Magnitude ['i', 'n', 'f'] (infinity false)
  | notNumber : Magnitude ['n', 'a', 'n'] notNumber

/-- A number without a sign is written as such a word. -/
theorem magnitude_of_unsigned {x : Float} (h : isNegative x = false) :
    Magnitude (numberChars x) x := by
  rcases Nat.lt_trichotomy (rank x) infinityRank with hr | hr | hr
  · obtain ⟨w, n, hw, hn, hv⟩ := number_of_finite hr
    rw [h, if_neg Bool.false_ne_true] at hw
    rw [← h, ofRank_rank hr.le] at hv
    rw [hw, ← hv]
    exact .numeral hn
  · have hx : x = Binary64.infinity false := by
      rw [Binary64.infinity, ← hr, ← h, ofRank_rank hr.le]
    rw [numberChars_of_infinity hr, h, if_neg Bool.false_ne_true, hx]
    exact .infinity
  · rw [numberChars_of_notNumber hr, eq_notNumber_of_rank hr]
    exact .notNumber

namespace Magnitude

theorem foreign_n : Foreign 'n' := by
  constructor <;> decide

/-- A word writes one number, for the names are no numerals. -/
theorem functional {w : List Char} {x y : Float} (h : Magnitude w x) (h' : Magnitude w y) :
    x = y := by
  cases h with
  | numeral hn =>
      cases h' with
      | numeral hn' => rw [hn.functional hn']
      | infinity | notNumber => exact absurd (by simp) (hn.notMem foreign_n)
  | infinity =>
      cases h' with
      | numeral hn => exact absurd (by simp) (hn.notMem foreign_n)
      | infinity => rfl
  | notNumber =>
      cases h' with
      | numeral hn => exact absurd (by simp) (hn.notMem foreign_n)
      | notNumber => rfl

/-- A word begins with neither a minus sign nor a parenthesis. -/
theorem append_ne_cons {w k s : List Char} {x : Float} {c : Char} {st : Stage}
    (h : Magnitude w x) (hc : inside? c = some st) : w ++ k ≠ c :: s := by
  intro hw
  have hin : inside? c = none := by
    cases h with
    | @numeral w n hn =>
        have hs := scan_append hn ends_nil
        rw [List.append_nil] at hs
        cases w with
        | nil => cases hs
        | cons d v => cases hw; exact inside?_of_scan hs
    | infinity | notNumber => cases hw; rfl
  rw [hin] at hc
  cases hc

/-- A word holds no blank and no closing parenthesis. -/
theorem notMem {w : List Char} {x : Float} (h : Magnitude w x) : ∀ c ∈ [' ', ')'], c ∉ w := by
  cases h with
  | numeral hn =>
      intro c hc
      refine hn.notMem ?_
      rcases List.mem_cons.mp hc with rfl | hc
      · exact foreign_of_isBlank rfl
      · exact foreign_delimiter c (by simp_all)
  | infinity | notNumber =>
      simp only [List.forall_mem_cons, List.not_mem_nil, false_implies, implies_true]
      decide

end Magnitude

/-! ### Texts in front of other texts -/

namespace Expr

/-- What can follow an operand in the text of a tree. -/
def Follows (k : List Char) : Prop := ∀ c ∈ k.head?, c ∈ [' ', ')']

theorem follows_nil : Follows [] := by
  intro c hc
  cases hc

theorem follows_cons {c : Char} (h : c ∈ [' ', ')']) (k : List Char) : Follows (c :: k) := by
  rintro _ ⟨⟩
  exact h

/-- Words end where what follows them begins. -/
theorem word_append_inj {w w' k k' : List Char} (hw : ∀ c ∈ [' ', ')'], c ∉ w)
    (hw' : ∀ c ∈ [' ', ')'], c ∉ w') (hk : Follows k) (hk' : Follows k')
    (h : w ++ k = w' ++ k') : w = w' ∧ k = k' := by
  rcases List.append_eq_append_iff.mp h with ⟨v, rfl, rfl⟩ | ⟨v, rfl, rfl⟩
  · cases v with
    | nil => simp
    | cons c v => exact absurd (by simp) (hw' c (hk c rfl))
  · cases v with
    | nil => simp
    | cons c v => exact absurd (by simp) (hw c (hk' c rfl))

theorem symbol_inj {op op' : Op} (h : op.symbol = op'.symbol) : op = op' := by
  revert h
  cases op <;> cases op' <;> decide

/-- The text of a tree without signed constants tells the tree and where it ends. -/
theorem textChars_append_inj {a : Expr} (ha : a.IsUnsigned) : ∀ {b : Expr} {k k' : List Char},
    b.IsUnsigned → Follows k → Follows k' → a.textChars ++ k = b.textChars ++ k' →
      a = b ∧ k = k' := by
  induction a with
  | const x =>
      intro b k k' hb hk hk' h
      have hx := magnitude_of_unsigned ha
      cases b with
      | const y =>
          have hy := magnitude_of_unsigned hb
          obtain ⟨hw, rfl⟩ := word_append_inj hx.notMem hy.notMem hk hk' h
          rw [hw] at hx
          exact ⟨by rw [hx.functional hy], rfl⟩
      | neg b => exact absurd h (hx.append_ne_cons (c := '-') rfl)
      | binary op l r => exact absurd h (hx.append_ne_cons (c := '(') rfl)
  | neg a ih =>
      intro b k k' hb hk hk' h
      cases b with
      | const y => exact absurd h.symm ((magnitude_of_unsigned hb).append_ne_cons (c := '-') rfl)
      | neg b =>
          have h : a.textChars ++ k = b.textChars ++ k' := (List.cons.inj h).2
          obtain ⟨rfl, rfl⟩ := ih (b := b) ha hb hk hk' h
          exact ⟨rfl, rfl⟩
      | binary op l r => cases h
  | binary op l r ihl ihr =>
      intro b k k' hb hk hk' h
      cases b with
      | const y => exact absurd h.symm ((magnitude_of_unsigned hb).append_ne_cons (c := '(') rfl)
      | neg b => cases h
      | binary op' l' r' =>
          -- a blank ends the left operand, and a parenthesis the right one
          simp only [textChars, List.cons_append, List.append_assoc, List.cons.injEq, true_and] at h
          obtain ⟨rfl, hl⟩ := ihl ha.1 hb.1 (follows_cons (by simp) _) (follows_cons (by simp) _) h
          simp only [List.cons.injEq, true_and] at hl
          obtain ⟨hop, hr⟩ := hl
          obtain ⟨rfl, he⟩ := ihr ha.2 hb.2 (follows_cons (by simp) _) (follows_cons (by simp) _) hr
          exact ⟨by rw [symbol_inj hop], (List.cons.inj he).2⟩

/-! ### Texts of trees -/

theorem isUnsigned_unsigned (t : Expr) : t.unsigned.IsUnsigned := by
  induction t with
  | const v =>
      rw [unsigned]
      split
      · next hv => rw [IsUnsigned, IsUnsigned, neg_eq_ofRank hv, isNegative_ofRank]
      · next hv => exact Bool.eq_false_iff.mpr hv
  | neg e ih => exact ih
  | binary op l r ihl ihr => exact ⟨ihl, ihr⟩

/-- A text does not tell how a sign stands in the tree. -/
theorem textChars_unsigned (t : Expr) : t.unsigned.textChars = t.textChars := by
  induction t with
  | const v =>
      rw [unsigned]
      split
      · next hv => rw [textChars, textChars, textChars, numberChars_of_isNegative hv]
      · rfl
  | neg e ih => rw [unsigned, textChars, textChars, ih]
  | binary op l r ihl ihr => rw [unsigned, textChars, textChars, ihl, ihr]

theorem render_inj_iff {a b : Expr} : a.render = b.render ↔ a.unsigned = b.unsigned := by
  rw [← String.toList_inj, toList_render, toList_render, ← a.textChars_unsigned,
    ← b.textChars_unsigned]
  constructor
  · intro h
    refine (textChars_append_inj a.isUnsigned_unsigned b.isUnsigned_unsigned follows_nil
      follows_nil ?_).1
    rw [h]
  · exact fun h => by rw [h]

/-! ### Trees that were read -/

/-- Every constant of the tree is a number, infinity included. -/
def IsNumeric : Expr → Prop
  | .const v      => v.isNaN = false
  | .neg e        => e.IsNumeric
  | .binary _ l r => l.IsNumeric ∧ r.IsNumeric

/-- Trees of unsigned numbers are equal when they are the same. -/
theorem agrees_iff_eq {a : Expr} (ha : a.IsUnsigned) (hn : a.IsNumeric) :
    ∀ {b : Expr}, b.IsUnsigned → ((a == b) = true ↔ a = b) := by
  induction a with
  | const x =>
      intro b hb
      cases b with
      | const y =>
          show (x == y) = true ↔ _
          rw [beq_iff_eq_of_unsigned ha hb hn, Expr.const.injEq]
      | neg | binary => exact ⟨nofun, nofun⟩
  | neg a ih =>
      intro b hb
      cases b with
      | neg b =>
          show (a == b) = true ↔ _
          rw [ih (b := b) ha hn hb, Expr.neg.injEq]
      | const | binary => exact ⟨nofun, nofun⟩
  | binary op l r ihl ihr =>
      intro b hb
      cases b with
      | binary op' l' r' =>
          show (op == op' && l == l' && r == r') = true ↔ _
          rw [Bool.and_eq_true, Bool.and_eq_true, ihl ha.1 hn.1 hb.1, ihr ha.2 hn.2 hb.2,
            beq_iff_eq, Expr.binary.injEq, and_assoc]
      | const | neg => exact ⟨nofun, nofun⟩

end Expr

namespace Grammar

/-- What is read has numbers for constants. -/
theorem isNumeric_of_derives {extended : Bool} {r : Rule} {m : Nat} {w : List Char}
    {t : Expr} (h : Derives extended r m w t) : t.IsNumeric := by
  induction h with
  | numeral => exact isNaN_ofRank false _
  | neg _ _ ih => exact ih
  | group _ _ _ ih => exact ih
  | factor _ ih => exact ih
  | summand _ ih => exact ih
  | product _ _ _ _ _ ihl ihr => exact ⟨ihl, ihr⟩
  | sum _ _ _ _ _ ihl ihr => exact ⟨ihl, ihr⟩

theorem isNumeric_of_parse {source : String} {o : Options} {t : Expr}
    (h : parse source o = .ok t) : t.IsNumeric := by
  obtain ⟨w, hw⟩ := derives_of_parse h
  exact isNumeric_of_derives hw

end Grammar

/-- **The text of a tree that was read tells the tree.**  The constants of such trees are numbers
without a sign bit. -/
theorem eq_iff_render_of_parse {s s' : String} {o o' : Options} {a b : Expr}
    (ha : parse s o = .ok a) (hb : parse s' o' = .ok b) :
    (a.IsUnsigned ∧ a.IsNumeric) ∧ (b.IsUnsigned ∧ b.IsNumeric) ∧
      ((a == b) = true ↔ a.render = b.render) ∧ (a = b ↔ a.render = b.render) := by
  have hau := isUnsigned_of_parse ha
  have hbu := isUnsigned_of_parse hb
  have han := isNumeric_of_parse ha
  rw [Expr.agrees_iff_eq hau han hbu, Expr.render_inj_iff, Expr.unsigned_of_isUnsigned hau,
    Expr.unsigned_of_isUnsigned hbu]
  exact ⟨⟨hau, han⟩, ⟨hbu, isNumeric_of_parse hb⟩, Iff.rfl, Iff.rfl⟩

end Abacus
