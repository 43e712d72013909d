import Abacus.Grammar.Descent
import Abacus.Numeral.Word

/-!
# Grammar — derivations

The grammar as a relation between texts and trees, said without a reader of any kind.
`Derives extended r m w t` holds when the phrase `w`, which begins and ends with a token, derives
the tree `t` by the rule `r`, no more than `m` minus signs and groups standing inside one another.
`Sentence` adds the blanks around an expression.
-/

namespace Abacus.Grammar
open Text

/-- The rules of the grammar. -/
inductive Rule where
  | primary
  | term
  | expression
  deriving Repr, DecidableEq

/-- Any run of blanks. -/
def Blanks (w : List Char) : Prop := w.all isBlank = true

/-- The phrases of a rule and their trees. -/
inductive Derives (extended : Bool) : Rule → Nat → List Char → Expr → Prop where
  | numeral {m : Nat} {w : List Char} {n : Numeral} :
      n.Writes w → Derives extended .primary m w (.const n.value)
  | neg {m : Nat} {b w : List Char} {e : Expr} :
      Blanks b → Derives extended .primary m w e →
        Derives extended .primary (m + 1) ('-' :: (b ++ w)) (.neg e)
  | group {m : Nat} {b w b' : List Char} {e : Expr} :
      Blanks b → Derives extended .expression m w e → Blanks b' →
        Derives extended .primary (m + 1) ('(' :: (b ++ w ++ b' ++ [')'])) e
  | factor {m : Nat} {w : List Char} {e : Expr} :
      Derives extended .primary m w e → Derives extended .term m w e
  | product {m : Nat} {v b b' w : List Char} {c : Char} {op : Op} {l r : Expr} :
      Derives extended .term m v l → Blanks b → multiplicative extended c = some op → Blanks b' →
        Derives extended .primary m w r →
        Derives extended .term m (v ++ b ++ c :: (b' ++ w)) (.binary op l r)
  | summand {m : Nat} {w : List Char} {e : Expr} :
      Derives extended .term m w e → Derives extended .expression m w e
  | sum {m : Nat} {v b b' w : List Char} {c : Char} {op : Op} {l r : Expr} :
      Derives extended .expression m v l → Blanks b → additive extended c = some op → Blanks b' →
        Derives extended .term m w r →
        Derives extended .expression m (v ++ b ++ c :: (b' ++ w)) (.binary op l r)

/-- A whole text that derives a tree. -/
def Sentence (extended : Bool) (m : Nat) (s : List Char) (e : Expr) : Prop :=
  ∃ b w b', s = b ++ w ++ b' ∧ Blanks b ∧ Derives extended .expression m w e ∧ Blanks b'

end Abacus.Grammar
