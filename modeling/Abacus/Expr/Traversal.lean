import Abacus.Expr.Basic

/-!
# Expr — traversals

The nodes of a tree in pre-order, and its height, each twice: by recursion on the tree
(`preorder`, `height`) and by a loop over the subtrees still to be visited (`walk`, `depth`),
which takes no more stack for a tall tree than for a flat one.
-/

namespace Abacus.Expr

/-- A tree and then its operands' nodes, left to right. -/
def preorder : Expr → List Expr
  | .const v      => [.const v]
  | .neg e        => .neg e :: e.preorder
  | .binary o l r => .binary o l r :: (l.preorder ++ r.preorder)

/-- The number of nodes on the longest way down. -/
def height : Expr → Nat
  | .const _      => 1
  | .neg e        => 1 + e.height
  | .binary _ l r => 1 + max l.height r.height

/-- Visits the pending trees in order, each before its operands; `seen` is the nodes visited so
far, last first. -/
def walkFrom (seen : List Expr) : List Expr → List Expr
  | []                  => seen.reverse
  | .const v :: es      => walkFrom (.const v :: seen) es
  | .neg e :: es        => walkFrom (.neg e :: seen) (e :: es)
  | .binary o l r :: es => walkFrom (.binary o l r :: seen) (l :: r :: es)
  termination_by es => totalSize es
  decreasing_by all_goals (simp only [totalSize_cons, size]; omega)

/-- The nodes of a tree in pre-order. -/
def walk (e : Expr) : List Expr := walkFrom [] [e]

/-- The nodes of some levelled trees, counted together. -/
def pendingSize (es : List (Expr × Nat)) : Nat := totalSize (es.map (·.1))

theorem pendingSize_cons (e : Expr) (n : Nat) (es : List (Expr × Nat)) :
    pendingSize ((e, n) :: es) = e.size + pendingSize es := by
  simp [pendingSize, totalSize_cons]

/-- Visits the pending trees, each with its level, and keeps the deepest level met; the last
operand is visited first. -/
def depthFrom (deepest : Nat) : List (Expr × Nat) → Nat
  | []                       => deepest
  | (.const _, n) :: es      => depthFrom (max deepest n) es
  | (.neg e, n) :: es        => depthFrom (max deepest n) ((e, n + 1) :: es)
  | (.binary _ l r, n) :: es => depthFrom (max deepest n) ((r, n + 1) :: (l, n + 1) :: es)
  termination_by es => pendingSize es
  decreasing_by all_goals (simp only [pendingSize_cons, size]; omega)

/-- The height of a tree; a constant has depth one. -/
def depth (e : Expr) : Nat := depthFrom 0 [(e, 1)]

end Abacus.Expr
