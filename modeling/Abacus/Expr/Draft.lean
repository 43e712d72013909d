import Abacus.Binary64.Rank
import Abacus.Expr.Text

/-!
# Expr — drafts

A double is a word of 64 bits.  A number has one word, but what is no number has many, with the sign
bit set or not, and a `Float` keeps one value for all of them.  A draft is a tree as it is built by
hand, with the words of its constants, and `toExpr` is the tree that it comes to.  The two part in
nothing else: no text shows the word of what is no number, and no operation looks at it.
-/

namespace Abacus

namespace Binary64

/-- The word of a double. -/
abbrev Word := UInt64

namespace Word

/-- The sign bit. -/
def isNegative (w : Word) : Bool := decide (signBit ≤ w.toNat)

/-- The rank of the magnitude, above infinity's for what is no number. -/
def rank (w : Word) : Nat := w.toNat % signBit

/-- A word of what is no number. -/
def isNaN (w : Word) : Bool := decide (infinityRank < w.rank)

/-- The word without its sign bit. -/
def magnitude (w : Word) : Word := UInt64.ofNat w.rank

/-- The double of a word. -/
def toFloat (w : Word) : Float := if w.isNaN then notNumber else ofRank w.isNegative w.rank

end Word

end Binary64

open Binary64

/-- Expressions with the words of their constants. -/
inductive Draft where
  | const (word : Word)
  | neg (operand : Draft)
  | binary (op : Op) (left right : Draft)
  deriving Repr, DecidableEq, Inhabited

namespace Draft

/-- The tree of a draft. -/
def toExpr : Draft → Expr
  | .const w      => .const w.toFloat
  | .neg a        => .neg a.toExpr
  | .binary o l r => .binary o l.toExpr r.toExpr

/-- The text of a draft. -/
def render (a : Draft) : String := a.toExpr.render

/-- A draft with a negation in place of the sign of each constant that is chosen. -/
def spell (chosen : Word → Bool) : Draft → Draft
  | .const w      => if w.isNegative && chosen w then .neg (.const w.magnitude) else .const w
  | .neg a        => .neg (a.spell chosen)
  | .binary o l r => .binary o (l.spell chosen) (r.spell chosen)

/-- A draft with a negation in place of the sign of each number. -/
def unsigned (a : Draft) : Draft := a.spell fun w => !w.isNaN

/-- The same draft, whatever the words of what is no number. -/
def Same : Draft → Draft → Prop
  | .const v,      .const w         => v = w ∨ v.isNaN = true ∧ w.isNaN = true
  | .neg a,        .neg b           => a.Same b
  | .binary o l r, .binary o' l' r' => o = o' ∧ l.Same l' ∧ r.Same r'
  | _,             _                => False

end Draft

end Abacus
