import Abacus.Expr.Basic
import Abacus.Decimal.Layout

/-!
# Expr — the text of a tree

Fully parenthesized infix: a binary tree is `(left op right)`, a negation is `-operand`, a
constant is its shortest number text.  `textChars` is the definition; `render` writes the same
with a list of what is still to be written, so a tall tree costs no stack.
-/

namespace Abacus.Expr

/-- The text of a tree. -/
def textChars : Expr → List Char
  | .const v      => numberChars v
  | .neg e        => '-' :: e.textChars
  | .binary o l r => '(' :: (l.textChars ++ ' ' :: o.symbol :: ' ' :: (r.textChars ++ [')']))

/-- What is still to be written: a piece of text or a tree. -/
inductive Item where
  | piece (cs : List Char)
  | tree (e : Expr)

/-- A measure of what is still to be written. -/
def Item.weight : Item → Nat
  | .piece _ => 1
  | .tree e  => 4 * e.size

/-- The weight of pending items together. -/
def itemsWeight : List Item → Nat
  | []      => 0
  | i :: is => i.weight + itemsWeight is

theorem itemsWeight_cons (i : Item) (is : List Item) :
    itemsWeight (i :: is) = i.weight + itemsWeight is := rfl

/-- Writes the pending items in order; `written` is the pieces so far, last first. -/
def renderFrom (written : List (List Char)) : List Item → List Char
  | []                          => written.reverse.flatten
  | .piece cs :: is             => renderFrom (cs :: written) is
  | .tree (.const v) :: is      => renderFrom (numberChars v :: written) is
  | .tree (.neg e) :: is        => renderFrom written (.piece ['-'] :: .tree e :: is)
  | .tree (.binary o l r) :: is =>
      renderFrom written
        (.piece ['('] :: .tree l :: .piece [' ', o.symbol, ' '] :: .tree r :: .piece [')'] :: is)
  termination_by is => itemsWeight is
  decreasing_by all_goals (simp only [itemsWeight_cons, Item.weight, size]; omega)

/-- The text of a tree. -/
def render (e : Expr) : String := String.ofList (renderFrom [] [.tree e])

/-- How a node shows itself: a constant by its number alone, any other as it is rendered. -/
def text : Expr → String
  | .const v => numberText v
  | e        => e.render

end Abacus.Expr
