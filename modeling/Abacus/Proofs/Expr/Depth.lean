import Abacus.Proofs.Expr.Loops
import Mathlib.Data.Multiset.Bind
import Mathlib.Data.Multiset.Lattice
import Mathlib.Order.Lattice.Nat

/-!
# Expr — the depth of a tree, in any order

The loop that finds the depth keeps the deepest level met and the trees still to be visited, each
with its level.  Which of them is visited next makes no difference, for two things stay as they are
all along: the nodes, those visited and those of pending trees together, and the deepest level, met
or still to be met.

* `exists_visit`: while a tree is pending, there is one that can be visited.
* `Visits.nodes_eq`, `Visits.reach_eq`: what a run leaves as it is.
* `visits_depthFrom`: the loop is such a run, the last operand first.
* `depth_in_any_order`: every run ends, after a visit to each node, with the height of the tree.
-/

namespace Abacus.Expr

/-- The deepest level met, and the trees still to be visited with their levels, in no order. -/
structure Sounding where
  deepest : Nat
  pending : Multiset (Expr × Nat)

/-- The level that a tree at a level reaches down to. -/
def bottom (p : Expr × Nat) : Nat := p.2 + p.1.height - 1

/-- The operands of a tree at a level, one level further down. -/
def lower (p : Expr × Nat) : Multiset (Expr × Nat) := p.1.children.map (·, p.2 + 1)

/-- A tree reaches down to its own level or to where its operands do. -/
theorem bottom_eq (p : Expr × Nat) : bottom p = max p.2 ((lower p).map bottom).sup := by
  obtain ⟨e, n⟩ := p
  cases e with
  | const v => simp [bottom, lower, children, height]
  | neg e =>
      have := e.height_pos
      simp only [bottom, lower, children, height, List.map_cons, List.map_nil,
        Multiset.coe_singleton, Multiset.map_singleton, Multiset.sup_singleton]
      omega
  | binary op l r =>
      have := l.height_pos
      have := r.height_pos
      simp only [bottom, lower, children, height, List.map_cons, List.map_nil, Multiset.map_coe,
        Multiset.sup_coe, List.foldr_cons, List.foldr_nil, Nat.bot_eq_zero]
      omega

namespace Sounding

/-- Nothing is met yet, and the tree is pending at the first level. -/
def start (t : Expr) : Sounding := ⟨0, {(t, 1)}⟩

/-- A pending tree is visited, whichever it is; its operands are pending after that. -/
inductive Visit : Sounding → Expr × Nat → Sounding → Prop where
  | intro (deepest : Nat) (p : Expr × Nat) (pending : Multiset (Expr × Nat)) :
      Visit ⟨deepest, p ::ₘ pending⟩ p ⟨max deepest p.2, lower p + pending⟩

/-- Visits one after another. -/
inductive Visits : Sounding → List (Expr × Nat) → Sounding → Prop where
  | nil (s : Sounding) : Visits s [] s
  | cons {s s₁ s' : Sounding} {p : Expr × Nat} {ps : List (Expr × Nat)} :
      Visit s p s₁ → Visits s₁ ps s' → Visits s (p :: ps) s'

/-- The nodes below the pending trees. -/
def nodes (s : Sounding) : Multiset Expr := s.pending.bind fun p => (p.1.preorder : Multiset Expr)

/-- The deepest level that is met or will be. -/
def reach (s : Sounding) : Nat := max s.deepest (s.pending.map bottom).sup

/-! ### A visit -/

theorem exists_visit {s : Sounding} (h : s.pending ≠ 0) : ∃ p s', Visit s p s' := by
  obtain ⟨p, hp⟩ := Multiset.exists_mem_of_ne_zero h
  obtain ⟨pending, hs⟩ := Multiset.exists_cons_of_mem hp
  obtain ⟨deepest, _⟩ := s
  cases hs
  exact ⟨p, _, .intro deepest p pending⟩

theorem Visit.nodes_eq {s s' : Sounding} {p : Expr × Nat} (h : Visit s p s') :
    s.nodes = p.1 ::ₘ s'.nodes := by
  cases h with
  | intro deepest p pending =>
      rw [nodes, nodes, Multiset.cons_bind, Multiset.add_bind, lower, Multiset.coe_bind,
        List.flatMap_map, p.1.preorder_eq, ← Multiset.cons_coe, Multiset.cons_add]

theorem Visit.reach_eq {s s' : Sounding} {p : Expr × Nat} (h : Visit s p s') :
    s.reach = s'.reach := by
  cases h with
  | intro deepest p pending =>
      rw [reach, reach, Multiset.map_cons, Multiset.sup_cons, bottom_eq, Multiset.map_add,
        Multiset.sup_add, max_assoc]
      exact (max_assoc _ _ _).symm

/-! ### Runs -/

theorem Visits.nodes_eq {s s' : Sounding} {ps : List (Expr × Nat)} (h : Visits s ps s') :
    s.nodes = (ps.map Prod.fst : Multiset Expr) + s'.nodes := by
  induction h with
  | nil s => simp
  | cons hv _ ih => rw [hv.nodes_eq, ih, List.map_cons, ← Multiset.cons_coe, Multiset.cons_add]

theorem Visits.reach_eq {s s' : Sounding} {ps : List (Expr × Nat)} (h : Visits s ps s') :
    s.reach = s'.reach := by
  induction h with
  | nil s => rfl
  | cons hv _ ih => exact hv.reach_eq.trans ih

/-- The loop visits one pending tree after another until there is none. -/
theorem visits_depthFrom (deepest : Nat) (es : List (Expr × Nat)) :
    ∃ ps, Visits ⟨deepest, es⟩ ps ⟨depthFrom deepest es, 0⟩ := by
  induction deepest, es using depthFrom.induct with
  | case1 deepest =>
      rw [depthFrom]
      exact ⟨[], .nil _⟩
  | case2 deepest v n es ih =>
      obtain ⟨ps, hps⟩ := ih
      rw [depthFrom]
      exact ⟨_, .cons (.intro deepest (.const v, n) es) hps⟩
  | case3 deepest e n es ih =>
      obtain ⟨ps, hps⟩ := ih
      rw [depthFrom]
      exact ⟨_, .cons (.intro deepest (.neg e, n) es) hps⟩
  | case4 deepest op l r n es ih =>
      obtain ⟨ps, hps⟩ := ih
      rw [depthFrom]
      rw [← Multiset.cons_coe, ← Multiset.cons_coe, Multiset.cons_swap] at hps
      exact ⟨_, .cons (.intro deepest (.binary op l r, n) es) hps⟩

end Sounding

/-! ### Nodes and height -/

theorem height_le_length (e : Expr) : e.height ≤ e.preorder.length := by
  induction e with
  | const v => exact Nat.le_refl 1
  | neg e ih =>
      rw [height, preorder, List.length_cons]
      omega
  | binary op l r ihl ihr =>
      rw [height, preorder, List.length_cons, List.length_append]
      omega

theorem length_lt_two_pow (e : Expr) : e.preorder.length < 2 ^ e.height := by
  induction e with
  | const v => exact Nat.one_lt_two
  | neg e ih =>
      rw [height, preorder, List.length_cons, Nat.pow_add]
      omega
  | binary op l r ihl ihr =>
      have hl : 2 ^ l.height ≤ 2 ^ max l.height r.height :=
        Nat.pow_le_pow_right Nat.zero_lt_two (Nat.le_max_left _ _)
      have hr : 2 ^ r.height ≤ 2 ^ max l.height r.height :=
        Nat.pow_le_pow_right Nat.zero_lt_two (Nat.le_max_right _ _)
      rw [height, preorder, List.length_cons, List.length_append, Nat.pow_add]
      omega

open Sounding

/-- **The depth of a tree does not depend on the order of the visits**, and is its height.
* The loop is one run of visits.
* No run makes more visits than there are nodes, and as long as a tree is pending there is one more.
  Once there is none, the deepest level is the height, and the trees visited are the nodes.
* There are at least as many nodes as the depth, and fewer than two to the power of it. -/
theorem depth_in_any_order (t : Expr) :
    t.depth = t.height ∧
    (∃ ps, Visits (start t) ps ⟨t.depth, 0⟩) ∧
    (∀ ps s, Visits (start t) ps s →
      ps.length ≤ t.walk.length ∧
      (s.pending ≠ 0 → ∃ p s', Visit s p s') ∧
      (s.pending = 0 → s.deepest = t.height ∧ (ps.map Prod.fst).Perm t.walk)) ∧
    t.depth ≤ t.walk.length ∧ t.walk.length < 2 ^ t.depth := by
  rw [walk_eq_preorder]
  have hnodes : (start t).nodes = (t.preorder : Multiset Expr) := Multiset.singleton_bind _ _
  have hreach : (start t).reach = t.height := by
    rw [start, reach, Multiset.map_singleton, Multiset.sup_singleton, bottom, Nat.zero_max,
      Nat.add_sub_cancel_left]
  refine ⟨t.depth_eq_height, visits_depthFrom 0 [(t, 1)], fun ps s h => ⟨?_, exists_visit, ?_⟩,
    ?_, ?_⟩
  · have hcard := congrArg Multiset.card (hnodes.symm.trans h.nodes_eq)
    simp only [Multiset.coe_card, Multiset.card_add, List.length_map] at hcard
    omega
  · obtain ⟨deepest, pending⟩ := s
    rintro rfl
    refine ⟨?_, Multiset.coe_eq_coe.mp ?_⟩
    · rw [← hreach, h.reach_eq]
      exact (Nat.max_zero deepest).symm
    · rw [← hnodes, h.nodes_eq]
      exact (add_zero _).symm
  · rw [depth_eq_height]
    exact t.height_le_length
  · rw [depth_eq_height]
    exact t.length_lt_two_pow

/-- One and the negation of two, added. -/
def oneLessTwo : Expr := .binary .add (.const 1) (.neg (.const 2))

/-- The left operand is visited first here, and the loop visits it last. -/
theorem depth_in_any_order_left :
    Visits (start oneLessTwo)
      [(oneLessTwo, 1), (.const 1, 2), (.neg (.const 2), 2), (.const 2, 3)] ⟨3, 0⟩ ∧
    3 = oneLessTwo.height ∧
    [oneLessTwo, .const 1, .neg (.const 2), .const 2].Perm oneLessTwo.walk ∧
    ((start oneLessTwo).pending ≠ 0 ∧ ∃ p s', Visit (start oneLessTwo) p s') := by
  have hrun : Visits (start oneLessTwo)
      [(oneLessTwo, 1), (.const 1, 2), (.neg (.const 2), 2), (.const 2, 3)] ⟨3, 0⟩ :=
    .cons (.intro 0 (oneLessTwo, 1) 0) <|
      .cons (.intro 1 (.const 1, 2) {((.neg (.const 2) : Expr), 2)}) <|
        .cons (.intro 2 (.neg (.const 2), 2) 0) <|
          .cons (.intro 2 (.const 2, 3) 0) (.nil _)
  have hpending : (start oneLessTwo).pending ≠ 0 := Multiset.singleton_ne_zero _
  obtain ⟨-, -, hruns, -⟩ := depth_in_any_order oneLessTwo
  obtain ⟨hheight, hperm⟩ := (hruns _ _ hrun).2.2 rfl
  exact ⟨hrun, hheight, hperm, hpending, (hruns _ _ (.nil _)).2.1 hpending⟩

end Abacus.Expr
