import Abacus.Expr.Text
import Abacus.Expr.Traversal

/-!
# Expr — the loops on trees

A loop over pending work gives what the recursion gives, whatever it has done before.

* `toList_render`: the rendering of a tree is its text.
* `walk_eq_preorder`: the nodes that the loop visits are the ones in pre-order.
* `depth_eq_height`: the depth the loop finds is the height.
-/

namespace Abacus.Expr

/-- The text of a pending item. -/
def Item.chars : Item → List Char
  | .piece cs => cs
  | .tree e   => e.textChars

theorem renderFrom_eq (written : List (List Char)) (is : List Item) :
    renderFrom written is = written.reverse.flatten ++ is.flatMap Item.chars := by
  induction written, is using renderFrom.induct with
  | case1 written => simp [renderFrom]
  | case2 written cs is ih => simp [renderFrom, ih, Item.chars]
  | case3 written v is ih => simp [renderFrom, ih, Item.chars, textChars]
  | case4 written e is ih => simp [renderFrom, ih, Item.chars, textChars]
  | case5 written o l r is ih => simp [renderFrom, ih, Item.chars, textChars]

theorem toList_render (e : Expr) : e.render.toList = e.textChars := by
  rw [render, String.toList_ofList, renderFrom_eq]
  simp [Item.chars]

/-- The loop visits all of a pending tree before the next one. -/
theorem walkFrom_eq (seen es : List Expr) :
    walkFrom seen es = seen.reverse ++ es.flatMap preorder := by
  induction seen, es using walkFrom.induct with
  | case1 seen => simp [walkFrom]
  | case2 seen v es ih => simp [walkFrom, ih, preorder]
  | case3 seen e es ih => simp [walkFrom, ih, preorder]
  | case4 seen o l r es ih => simp [walkFrom, ih, preorder]

theorem walk_eq_preorder (e : Expr) : e.walk = e.preorder := by
  rw [walk, walkFrom_eq]
  simp

/-- The nodes of a tree are its root and then those of its operands, left to right. -/
theorem preorder_eq (e : Expr) : e.preorder = e :: e.children.flatMap preorder := by
  cases e <;> simp [preorder, children]

theorem height_pos (e : Expr) : 0 < e.height := by
  cases e <;> simp only [height] <;> omega

/-- The loop ends with the deepest level below any pending tree, a tree at level `n` reaching down
to `n + height - 1`. -/
theorem depthFrom_eq (deepest : Nat) (es : List (Expr × Nat)) :
    depthFrom deepest es = es.foldl (fun d p => max d (p.2 + p.1.height - 1)) deepest := by
  induction deepest, es using depthFrom.induct with
  | case1 deepest => rw [depthFrom, List.foldl_nil]
  | case2 deepest v n es ih => rw [depthFrom, ih, List.foldl_cons, height, Nat.add_sub_cancel]
  | case3 deepest e n es ih =>
      have := e.height_pos
      rw [depthFrom, ih]
      simp only [List.foldl_cons, height]
      congr 1
      omega
  | case4 deepest o l r n es ih =>
      have := l.height_pos
      have := r.height_pos
      rw [depthFrom, ih]
      simp only [List.foldl_cons, height]
      congr 1
      omega

theorem depth_eq_height (e : Expr) : e.depth = e.height := by
  rw [depth, depthFrom_eq, List.foldl_cons, List.foldl_nil, Nat.add_sub_cancel_left, Nat.zero_max]

end Abacus.Expr
