import Abacus.Proofs.Expr.Loops
import Mathlib.Logic.Function.Iterate

/-!
# Expr — how a text is written

The loop that writes a tree has trees and pieces of text pending.  A round writes a piece or a
constant; of any other tree it makes the parts pending, in the tree's place.

* `chars_writeFirst`, `rounds_writeFirst`: a round keeps the text, of what is written and of what is
  pending together, and there is one round less to go.
* `writeFirst_behind`, `iterate_behind`: whatever was written before, and whatever is pending
  behind, is left as it is.
* `render_in_rounds`: so the loop ends, and it has written all of a tree, and nothing else, when it
  goes on with what is behind the tree.
-/

namespace Abacus.Expr

/-! ### Rounds of the loop -/

/-- The pieces written, last first, and the items pending. -/
abbrev Draft := List (List Char) × List Item

/-- One round: the first item is written, or its parts are pending in its place. -/
def writeFirst : Draft → Draft
  | (written, [])                          => (written, [])
  | (written, .piece cs :: is)             => (cs :: written, is)
  | (written, .tree (.const v) :: is)      => (numberChars v :: written, is)
  | (written, .tree (.neg e) :: is)        => (written, .piece ['-'] :: .tree e :: is)
  | (written, .tree (.binary o l r) :: is) =>
      (written,
        .piece ['('] :: .tree l :: .piece [' ', o.symbol, ' '] :: .tree r :: .piece [')'] :: is)

/-- How many rounds it takes to write a tree. -/
def rounds : Expr → Nat
  | .const _      => 1
  | .neg e        => e.rounds + 2
  | .binary _ l r => l.rounds + r.rounds + 4

/-- How many rounds it takes to write an item. -/
def Item.rounds : Item → Nat
  | .piece _ => 1
  | .tree e  => e.rounds

/-- How many rounds it takes to write some items. -/
def itemsRounds : List Item → Nat
  | []      => 0
  | i :: is => i.rounds + itemsRounds is

/-- The text of a draft, written or pending. -/
def Draft.chars (d : Draft) : List Char := d.1.reverse.flatten ++ d.2.flatMap Item.chars

theorem renderFrom_writeFirst (d : Draft) :
    renderFrom (writeFirst d).1 (writeFirst d).2 = renderFrom d.1 d.2 := by
  obtain ⟨written, _ | ⟨cs | (v | e | ⟨o, l, r⟩), is⟩⟩ := d <;> simp [writeFirst, renderFrom]

theorem chars_writeFirst (d : Draft) : (writeFirst d).chars = d.chars := by
  obtain ⟨written, _ | ⟨cs | (v | e | ⟨o, l, r⟩), is⟩⟩ := d <;>
    simp [writeFirst, Draft.chars, Item.chars, textChars]

theorem rounds_writeFirst (written : List (List Char)) (i : Item) (is : List Item) :
    itemsRounds (writeFirst (written, i :: is)).2 + 1 = itemsRounds (i :: is) := by
  obtain cs | (v | e | ⟨o, l, r⟩) := i <;>
    simp only [writeFirst, itemsRounds, Item.rounds, rounds] <;> omega

/-- A round does not look at what was written before, nor at what is pending behind. -/
theorem writeFirst_behind (written before : List (List Char)) (i : Item) (is behind : List Item) :
    writeFirst (written ++ before, i :: is ++ behind) =
      ((writeFirst (written, i :: is)).1 ++ before,
        (writeFirst (written, i :: is)).2 ++ behind) := by
  obtain cs | (v | e | ⟨o, l, r⟩) := i <;> rfl

/-! ### Rounds one after another -/

/-- What the loop returns, and the text of the draft, are the same after any number of rounds. -/
theorem iterate_keeps (n : Nat) (d : Draft) :
    renderFrom (writeFirst^[n] d).1 (writeFirst^[n] d).2 = renderFrom d.1 d.2 ∧
      (writeFirst^[n] d).chars = d.chars := by
  induction n generalizing d with
  | zero => exact ⟨rfl, rfl⟩
  | succ n ih =>
      obtain ⟨hr, hc⟩ := ih (writeFirst d)
      rw [Function.iterate_succ_apply]
      exact ⟨hr.trans (renderFrom_writeFirst d), hc.trans (chars_writeFirst d)⟩

/-- While there are rounds to go, no round touches what was written before or is pending behind. -/
theorem iterate_behind {n : Nat} {is : List Item} (written before : List (List Char))
    (behind : List Item) (hn : n ≤ itemsRounds is) :
    itemsRounds (writeFirst^[n] (written, is)).2 + n = itemsRounds is ∧
      writeFirst^[n] (written ++ before, is ++ behind) =
        ((writeFirst^[n] (written, is)).1 ++ before,
          (writeFirst^[n] (written, is)).2 ++ behind) := by
  induction n generalizing written is with
  | zero => exact ⟨rfl, rfl⟩
  | succ n ih =>
      cases is with
      | nil => exact absurd hn (Nat.not_succ_le_zero n)
      | cons i is =>
          have hround := rounds_writeFirst written i is
          have hrest : n ≤ itemsRounds (writeFirst (written, i :: is)).2 := by omega
          obtain ⟨hleft, hrun⟩ := ih (writeFirst (written, i :: is)).1 hrest
          simp only [Function.iterate_succ_apply]
          refine ⟨by rw [← hround, ← hleft, Nat.add_assoc], ?_⟩
          rw [← hrun, ← writeFirst_behind]

theorem Item.rounds_pos (i : Item) : 0 < i.rounds := by
  obtain cs | (v | e | ⟨o, l, r⟩) := i <;> simp [rounds, Expr.rounds]

theorem itemsRounds_eq_zero {is : List Item} (h : itemsRounds is = 0) : is = [] := by
  cases is with
  | nil => rfl
  | cons i is =>
      rw [itemsRounds] at h
      have := i.rounds_pos
      omega

/-- The loop writes some items, and nothing else, before it goes on with the next. -/
theorem iterate_items (is : List Item) : ∃ pieces : List (List Char),
    pieces.reverse.flatten = is.flatMap Item.chars ∧ ∀ written behind,
      writeFirst^[itemsRounds is] (written, is ++ behind) = (pieces ++ written, behind) := by
  obtain ⟨hleft, -⟩ := iterate_behind [] [] [] (Nat.le_refl (itemsRounds is))
  have hnil := itemsRounds_eq_zero (Nat.add_eq_right.mp hleft)
  obtain ⟨-, hchars⟩ := iterate_keeps (itemsRounds is) ([], is)
  refine ⟨(writeFirst^[itemsRounds is] ([], is)).1, ?_, fun written behind => ?_⟩
  · simpa [Draft.chars, hnil] using hchars
  · obtain ⟨-, hrun⟩ := iterate_behind [] written behind (Nat.le_refl (itemsRounds is))
    rwa [hnil] at hrun

theorem render_eq (e : Expr) : e.render = String.ofList e.textChars :=
  String.toList_inj.mp (by rw [toList_render, String.toList_ofList])

/-- **A tree is written whole before the loop goes on**, and its text is the one that the recursion
gives.
* Whatever was written and whatever is pending, the loop ends with the texts of all that was
  pending behind what was written.
* The rounds of a tree add pieces that make up its text, and leave what is pending behind it as it
  is; before the last of them something of the tree is still pending.
* So the rendering of a tree is its text, and so is what the tree shows of itself. -/
theorem render_in_rounds :
    (∀ (written : List (List Char)) (is : List Item), ∃ pieces : List (List Char),
      writeFirst^[itemsRounds is] (written, is) = (pieces ++ written, []) ∧
      renderFrom written is = (pieces ++ written).reverse.flatten ∧
      pieces.reverse.flatten = is.flatMap Item.chars) ∧
    (∀ (t : Expr) (written : List (List Char)) (behind : List Item),
      (∃ pieces : List (List Char),
        writeFirst^[t.rounds] (written, .tree t :: behind) = (pieces ++ written, behind) ∧
        pieces.reverse.flatten = t.textChars) ∧
      ∀ n < t.rounds, ∃ i is,
        (writeFirst^[n] (written, .tree t :: behind)).2 = i :: is ++ behind) ∧
    ∀ t : Expr, t.render = String.ofList t.textChars ∧ t.text = String.ofList t.textChars := by
  have htree (t : Expr) : itemsRounds [.tree t] = t.rounds := Nat.add_zero _
  refine ⟨fun written is => ?_, fun t written behind => ⟨?_, fun n hn => ?_⟩, fun t => ⟨?_, ?_⟩⟩
  · obtain ⟨pieces, hpieces, hrun⟩ := iterate_items is
    have hend := hrun written []
    rw [List.append_nil] at hend
    refine ⟨pieces, hend, ?_, hpieces⟩
    obtain ⟨hkeep, -⟩ := iterate_keeps (itemsRounds is) (written, is)
    rw [hend, renderFrom] at hkeep
    exact hkeep.symm
  · obtain ⟨pieces, hpieces, hrun⟩ := iterate_items [.tree t]
    rw [htree] at hrun
    rw [List.flatMap_singleton] at hpieces
    exact ⟨pieces, hrun written behind, hpieces⟩
  · have hle : n ≤ itemsRounds [.tree t] := by
      rw [htree]
      exact Nat.le_of_lt hn
    obtain ⟨hleft, hrun⟩ := iterate_behind [] written behind hle
    rw [htree] at hleft
    rw [List.nil_append, List.singleton_append] at hrun
    rw [hrun]
    cases his : (writeFirst^[n] ([], [.tree t])).2 with
    | nil =>
        rw [his, itemsRounds] at hleft
        omega
    | cons i is => exact ⟨i, is, rfl⟩
  · exact t.render_eq
  · cases t with
    | const v => exact String.ofList_toList.symm
    | neg e => exact render_eq _
    | binary op l r => exact render_eq _

/-- The negation of one over a zero with a sign. -/
def negatedPole : Expr := .neg (.binary .div (.const 1) (.const (-0.0)))

/-- After five of eight rounds the divisor is still pending, and so is the piece behind the tree. -/
theorem render_in_rounds_pole :
    5 < negatedPole.rounds ∧
    (∃ i is, (writeFirst^[5] ([], [.tree negatedPole, .piece ['!']])).2 =
      i :: is ++ [.piece ['!']]) ∧
    negatedPole.text = "-(1 / -0)" := by
  have hn : 5 < negatedPole.rounds := by decide
  refine ⟨hn, (render_in_rounds.2.1 negatedPole [] [.piece ['!']]).2 5 hn, ?_⟩
  rw [(render_in_rounds.2.2 negatedPole).2]
  decide +kernel

end Abacus.Expr
