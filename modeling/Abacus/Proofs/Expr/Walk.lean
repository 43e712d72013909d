import Abacus.Expr.Shape
import Abacus.Proofs.Binary64.Sign
import Abacus.Proofs.Expr.Loops

/-!
# Expr — what a walk visits

A place in a tree is the way there from the root: which operand to go to, counted from the left,
again and again.  Between two places the one whose way comes first in the order of words is the one
in front, and a place is in front of all that is below it.

* `walkFrom_cons`, `iterate_visitFirst`: a round of the loop, and all of them.
* `sorted_places`, `mem_places_iff`, `map_at?_places`: what is visited stands at the places of the
  tree, in order.
* `preorder_append_inj`: kinds and constants tell a tree and where it ends, for a kind tells how
  many operands there are.
* `walk_in_preorder`: the whole of it.
-/

namespace Abacus.Expr

/-! ### Rounds of the loop -/

/-- One round: the first pending tree is visited, and its operands are pending in its place. -/
def visitFirst : List Expr × List Expr → List Expr × List Expr
  | (seen, [])      => (seen, [])
  | (seen, e :: es) => (e :: seen, e.children ++ es)

theorem walkFrom_cons (seen es : List Expr) (e : Expr) :
    walkFrom seen (e :: es) = walkFrom (e :: seen) (e.children ++ es) := by
  cases e <;> rw [walkFrom] <;> rfl

theorem totalSize_round (e : Expr) (es : List Expr) :
    totalSize (e :: es) = totalSize (e.children ++ es) + 1 := by
  cases e with
  | const v => exact Nat.add_comm 1 _
  | neg e => exact Nat.add_right_comm _ 1 _
  | binary op l r =>
      show l.size + r.size + 1 + totalSize es = l.size + (r.size + totalSize es) + 1
      omega

/-- The loop has as many rounds as there are nodes below the pending trees. -/
theorem iterate_visitFirst (seen es : List Expr) :
    visitFirst^[totalSize es] (seen, es) = ((walkFrom seen es).reverse, []) := by
  induction hn : totalSize es generalizing seen es with
  | zero =>
      cases es with
      | nil => simp [walkFrom]
      | cons e es => exact absurd hn (Nat.ne_of_gt (Nat.add_pos_left e.size_pos _))
  | succ n ih =>
      cases es with
      | nil => cases hn
      | cons e es =>
          rw [totalSize_round, Nat.add_right_cancel_iff] at hn
          rw [walkFrom_cons, Function.iterate_succ_apply]
          exact ih _ _ hn

/-! ### Places -/

/-- The tree at a place. -/
def at? (e : Expr) : List Nat → Option Expr
  | []     => some e
  | i :: p => e.children[i]?.bind (at? · p)

/-- The places of a tree, in order. -/
def places : Expr → List (List Nat)
  | .const _      => [[]]
  | .neg e        => [] :: e.places.map (0 :: ·)
  | .binary _ l r => [] :: (l.places.map (0 :: ·) ++ r.places.map (1 :: ·))

theorem sorted_map_cons {ps : List (List Nat)} (i : Nat) (h : ps.Pairwise (· < ·)) :
    (ps.map (i :: ·)).Pairwise (· < ·) :=
  List.pairwise_map.mpr (h.imp List.cons_lt_cons_self.mpr)

theorem sorted_places (e : Expr) : e.places.Pairwise (· < ·) := by
  induction e with
  | const v => exact List.pairwise_singleton _ _
  | neg e ih =>
      refine List.pairwise_cons.mpr ⟨?_, sorted_map_cons 0 ih⟩
      simp
  | binary op l r ihl ihr =>
      refine List.pairwise_cons.mpr ⟨?_, List.pairwise_append.mpr
        ⟨sorted_map_cons 0 ihl, sorted_map_cons 1 ihr, ?_⟩⟩
      · simp only [List.mem_append, List.mem_map]
        rintro _ (⟨p, -, rfl⟩ | ⟨p, -, rfl⟩) <;> exact List.nil_lt_cons _ _
      · simp only [List.mem_map]
        rintro _ ⟨p, -, rfl⟩ _ ⟨q, -, rfl⟩
        exact List.cons_lt_cons_iff.mpr (.inl Nat.zero_lt_one)

theorem mem_places_iff {e : Expr} : ∀ {p : List Nat}, p ∈ e.places ↔ e.at? p ≠ none := by
  induction e with
  | const v =>
      rintro (_ | ⟨i, p⟩) <;> simp [places, at?, children]
  | neg e ih =>
      rintro (_ | ⟨_ | i, p⟩) <;> simp [places, at?, children, ih]
  | binary op l r ihl ihr =>
      rintro (_ | ⟨_ | _ | i, p⟩) <;> simp [places, at?, children, ihl, ihr]

/-- The trees at the places are the nodes in pre-order. -/
theorem map_at?_places (e : Expr) : e.places.map e.at? = e.preorder.map some := by
  induction e with
  | const v => rfl
  | neg e ih =>
      rw [places, List.map_cons, List.map_map]
      exact congrArg (some (neg e) :: ·) ih
  | binary op l r ihl ihr =>
      rw [places, List.map_cons, List.map_append, List.map_map, List.map_map, preorder,
        List.map_cons, List.map_append, ← ihl, ← ihr]
      rfl

/-! ### Kinds and constants -/

/-- The bits of a constant. -/
def word? : Expr → Option UInt64
  | .const v => some v.toBits
  | _        => none

/-- What can be told of a node without its operands: its kind and, for a constant, its bits. -/
def label (e : Expr) : String × Option UInt64 := (e.shapeName, e.word?)

theorem label_const_inj {v w : Float} (h : (const v).label = (const w).label) : v = w :=
  Float.toBits_inj.mp (Option.some.inj (Prod.mk.inj h).2)

theorem label_binary_inj {op op' : Op} {l r l' r' : Expr}
    (h : (binary op l r).label = (binary op' l' r').label) : op = op' := by
  have hname : op.name = op'.name := (Prod.mk.inj h).1
  revert hname
  cases op <;> cases op' <;> decide

theorem label_neg_ne_binary {op : Op} {e l r : Expr} : (neg e).label ≠ (binary op l r).label := by
  intro h
  have hname : Shape.neg.name = op.name := (Prod.mk.inj h).1
  revert hname
  cases op <;> decide

/-- Labels tell a tree and where it ends. -/
theorem preorder_append_inj {a : Expr} : ∀ {b : Expr} {k k' : List (String × Option UInt64)},
    a.preorder.map label ++ k = b.preorder.map label ++ k' → a = b ∧ k = k' := by
  induction a with
  | const v =>
      intro b k k' h
      cases b with
      | const w =>
          obtain ⟨hv, hk⟩ := List.cons.inj h
          exact ⟨by rw [label_const_inj hv], hk⟩
      | neg | binary => exact nomatch (Prod.mk.inj (List.cons.inj h).1).2
  | neg a ih =>
      intro b k k' h
      cases b with
      | neg b =>
          obtain ⟨rfl, hk⟩ := ih (b := b) (List.cons.inj h).2
          exact ⟨rfl, hk⟩
      | const => exact nomatch (Prod.mk.inj (List.cons.inj h).1).2
      | binary => exact absurd (List.cons.inj h).1 label_neg_ne_binary
  | binary op l r ihl ihr =>
      intro b k k' h
      cases b with
      | const => exact nomatch (Prod.mk.inj (List.cons.inj h).1).2
      | neg => exact absurd (List.cons.inj h).1.symm label_neg_ne_binary
      | binary op' l' r' =>
          simp only [preorder, List.map_cons, List.map_append, List.cons_append,
            List.append_assoc, List.cons.injEq] at h
          obtain ⟨hop, h⟩ := h
          obtain ⟨rfl, hr⟩ := ihl h
          obtain ⟨rfl, hk⟩ := ihr hr
          exact ⟨by rw [label_binary_inj hop], hk⟩

/-- **A walk visits the nodes in pre-order**, and what it meets tells the tree.
* The loop ends after as many rounds as the tree has nodes.  It visits all of a pending tree, and
  then goes on with the others.
* It visits the root and then the nodes of the operands, left to right: what stands at each place of
  the tree, once and in order.
* Trees whose walks show the same kinds and constants are the same. -/
theorem walk_in_preorder :
    (∀ t : Expr,
      visitFirst^[t.size] ([], [t]) = (t.walk.reverse, []) ∧
      (∀ seen pending, walkFrom seen (t :: pending) =
        walkFrom (t.preorder.reverse ++ seen) pending) ∧
      t.walk = t.preorder ∧ t.preorder = t :: t.children.flatMap preorder ∧
      ∃ ps : List (List Nat), ps.Pairwise (· < ·) ∧ (∀ p, p ∈ ps ↔ t.at? p ≠ none) ∧
        t.walk.map some = ps.map t.at?) ∧
    ∀ a b : Expr, a.walk.map label = b.walk.map label ↔ a = b := by
  refine ⟨fun t => ⟨?_, fun seen pending => ?_, t.walk_eq_preorder, t.preorder_eq, t.places,
    t.sorted_places, fun p => mem_places_iff, ?_⟩, fun a b => ⟨fun h => ?_, fun h => by rw [h]⟩⟩
  · exact iterate_visitFirst [] [t]
  · rw [walkFrom_eq, walkFrom_eq]
    simp
  · rw [walk_eq_preorder, map_at?_places]
  · rw [walk_eq_preorder, walk_eq_preorder] at h
    have hend : a.preorder.map label ++ [] = b.preorder.map label ++ [] := by rw [h]
    exact (preorder_append_inj hend).1

end Abacus.Expr
