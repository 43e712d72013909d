import Abacus.Expr.Basic
import Abacus.Binary64.Rank

/-!
# Expr — trees without signed constants

A text writes a negative constant as it writes the negation of a positive one.  `unsigned` is the
tree that a text can tell: every number with its sign bit set, `-0` and `-inf` too, stands as the
negation of its magnitude.  What is no number stays as it is.  It has one value here, without a
sign, and one text; the words that stand for it may have a sign bit, which a text does not tell
(`Draft.unsigned`).
-/

namespace Abacus.Expr

/-- A tree with a negation in place of every sign of a constant. -/
def unsigned : Expr → Expr
  | .const v      => if Binary64.isNegative v then .neg (.const (-v)) else .const v
  | .neg e        => .neg e.unsigned
  | .binary o l r => .binary o l.unsigned r.unsigned

/-- No constant of the tree has its sign bit set. -/
def IsUnsigned : Expr → Prop
  | .const v      => Binary64.isNegative v = false
  | .neg e        => e.IsUnsigned
  | .binary _ l r => l.IsUnsigned ∧ r.IsUnsigned

end Abacus.Expr
