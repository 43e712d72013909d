import Abacus.Expr.Traversal
import Abacus.Value.Eval
import Abacus.Value.Machine

/-!
# Value — the machine evaluates trees

`Machine.Steps` is a number of tasks done one after another, and `Machine.Halts` a state from which
the machine gets to a task that fails.

* `machine_visit`: whatever is pending under a tree, and whatever values lie below, the machine
  gets from the tree to exactly its value on top of them, or halts with the tree's error.  The
  divisor of a quotient stays on the value stack, under all that the dividend's evaluation puts
  there, until both are divided.
* `run_of_steps`, `run_of_halts`: a run does not depend on how far it is followed step by step, so
  the machine's answer is the tree's value and there is no other way for it to end.
* `machine_simulates_eval` collects what follows for a machine started on one tree: it never misses
  an operand and never divides by a zero divisor.
-/

namespace Abacus

/-! ### The equations of a value -/

namespace Expr

/-- Left operand, right operand, operator. -/
theorem eval_binary {op : Op} {l r : Expr} (hop : op ≠ .div) : (binary op l r).eval =
    l.eval.bind fun x => r.eval.bind fun y => .ok (op.apply x y) := by
  cases op with
  | add | sub | mul => rfl
  | div => exact absurd rfl hop

/-- Divisor, check, dividend, division. -/
theorem eval_div (l r : Expr) : (binary .div l r).eval = r.eval.bind fun y =>
    if y == 0 then .error (.divisionByZero (.binary .div l r))
    else l.eval.bind fun x => .ok (x / y) := rfl

end Expr

namespace Machine

/-- The machine gets from one state to another by doing some tasks. -/
inductive Steps : State → State → Prop where
  | refl (s : State) : Steps s s
  | more {t : Task} {ts : List Task} {vs : List Float} {s s' : State} :
      perform ts t vs = .ok s → Steps s s' → Steps ⟨t :: ts, vs⟩ s'

/-- The machine gets to a task that fails. -/
def Halts (s : State) (f : EvalError) : Prop :=
  ∃ t ts vs, Steps s ⟨t :: ts, vs⟩ ∧ perform ts t vs = .error f

theorem Steps.one {t : Task} {ts : List Task} {vs : List Float} {s : State}
    (h : perform ts t vs = .ok s) : Steps ⟨t :: ts, vs⟩ s :=
  .more h (.refl s)

theorem Steps.trans {s s₁ s' : State} (h : Steps s s₁) (h' : Steps s₁ s') : Steps s s' := by
  induction h with
  | refl => exact h'
  | more hp _ ih => exact .more hp (ih h')

theorem Halts.of_steps {s s' : State} {f : EvalError} (h : Steps s s') (h' : Halts s' f) :
    Halts s f := by
  obtain ⟨t, ts, vs, hs, hp⟩ := h'
  exact ⟨t, ts, vs, h.trans hs, hp⟩

theorem Halts.now {t : Task} {ts : List Task} {vs : List Float} {f : EvalError}
    (h : perform ts t vs = .error f) : Halts ⟨t :: ts, vs⟩ f :=
  ⟨t, ts, vs, .refl _, h⟩

/-! ### A run, followed step by step -/

theorem run_nil (vs : List Float) : run ⟨[], vs⟩ = .ok vs := by
  rw [run]

theorem run_of_ok {t : Task} {ts : List Task} {vs : List Float} {s : State}
    (h : perform ts t vs = .ok s) : run ⟨t :: ts, vs⟩ = run s := by
  rw [run]
  split
  · next h' => rw [h] at h'; cases h'
  · next h' => rw [h] at h'; cases h'; rfl

theorem run_of_error {t : Task} {ts : List Task} {vs : List Float} {f : EvalError}
    (h : perform ts t vs = .error f) : run ⟨t :: ts, vs⟩ = .error f := by
  rw [run]
  split
  · next h' => rw [h] at h'; cases h'; rfl
  · next h' => rw [h] at h'; cases h'

/-- The states of a run have the same outcome. -/
theorem run_of_steps {s s' : State} (h : Steps s s') : run s = run s' := by
  induction h with
  | refl => rfl
  | more hp _ ih => rw [run_of_ok hp, ih]

theorem run_of_halts {s : State} {f : EvalError} (h : Halts s f) : run s = .error f := by
  obtain ⟨t, ts, vs, hs, hp⟩ := h
  rw [run_of_steps hs, run_of_error hp]

/-! ### A tree, whatever is pending -/

/-- The machine gets from a tree to its value on top of the values below, or halts with its
error. -/
def Visits (e : Expr) : Prop :=
  ∀ (ts : List Task) (vs : List Float),
    (∀ x, e.eval = .ok x → Steps ⟨.visit e :: ts, vs⟩ ⟨ts, x :: vs⟩) ∧
    (∀ f, e.eval = .error f → Halts ⟨.visit e :: ts, vs⟩ f)

theorem visits_neg {e : Expr} (h : Visits e) : Visits (.neg e) := by
  intro ts vs
  have hgo : Steps ⟨.visit (.neg e) :: ts, vs⟩ ⟨.visit e :: .negate :: ts, vs⟩ := .one rfl
  obtain ⟨hok, herr⟩ := h (.negate :: ts) vs
  cases he : e.eval with
  | error f =>
      have heval : (Expr.neg e).eval = .error f := by rw [Expr.eval, he]; rfl
      rw [heval]
      refine ⟨nofun, ?_⟩
      rintro _ ⟨⟩
      exact .of_steps hgo (herr f he)
  | ok x =>
      have heval : (Expr.neg e).eval = .ok (-x) := by rw [Expr.eval, he]; rfl
      rw [heval]
      refine ⟨?_, nofun⟩
      rintro _ ⟨⟩
      exact hgo.trans ((hok x he).trans (.one rfl))

/-- Both operands are visited before the operator is applied. -/
theorem visits_binary {op : Op} {l r : Expr} (hop : op ≠ .div) (hl : Visits l) (hr : Visits r) :
    Visits (.binary op l r) := by
  intro ts vs
  have hgo : Steps ⟨.visit (.binary op l r) :: ts, vs⟩
      ⟨.visit l :: .visit r :: .combine op :: ts, vs⟩ := by
    refine .one ?_
    cases op with
    | add | sub | mul => rfl
    | div => exact absurd rfl hop
  obtain ⟨hlok, hlerr⟩ := hl (.visit r :: .combine op :: ts) vs
  rw [Expr.eval_binary hop]
  cases hel : l.eval with
  | error f =>
      refine ⟨nofun, ?_⟩
      rintro _ ⟨⟩
      exact .of_steps hgo (hlerr f hel)
  | ok x =>
      -- the right operand is visited with the left one's value below it
      obtain ⟨hrok, hrerr⟩ := hr (.combine op :: ts) (x :: vs)
      have hmid := hgo.trans (hlok x hel)
      cases her : r.eval with
      | error f =>
          refine ⟨nofun, ?_⟩
          rintro _ ⟨⟩
          exact .of_steps hmid (hrerr f her)
      | ok y =>
          refine ⟨?_, nofun⟩
          rintro _ ⟨⟩
          exact hmid.trans ((hrok y her).trans (.one rfl))

/-- The divisor lies below all that the dividend needs. -/
theorem visits_div {l r : Expr} (hl : Visits l) (hr : Visits r) : Visits (.binary .div l r) := by
  intro ts vs
  have hgo : Steps ⟨.visit (.binary .div l r) :: ts, vs⟩ ⟨.visit r :: .check l r :: ts, vs⟩ :=
    .one rfl
  obtain ⟨hrok, hrerr⟩ := hr (.check l r :: ts) vs
  rw [Expr.eval_div]
  cases her : r.eval with
  | error f =>
      refine ⟨nofun, ?_⟩
      rintro _ ⟨⟩
      exact .of_steps hgo (hrerr f her)
  | ok y =>
      have hmid := hgo.trans (hrok y her)
      rw [Except.bind]
      by_cases hy : (y == 0) = true
      · rw [if_pos hy]
        refine ⟨nofun, ?_⟩
        rintro _ ⟨⟩
        exact .of_steps hmid (.now (if_pos hy))
      · rw [if_neg hy]
        -- the divisor stays where it is, below the dividend's visit
        obtain ⟨hlok, hlerr⟩ := hl (.divide :: ts) (y :: vs)
        have hcheck := hmid.trans (.one (if_neg hy))
        cases hel : l.eval with
        | error f =>
            refine ⟨nofun, ?_⟩
            rintro _ ⟨⟩
            exact .of_steps hcheck (hlerr f hel)
        | ok x =>
            refine ⟨?_, nofun⟩
            rintro _ ⟨⟩
            exact hcheck.trans ((hlok x hel).trans (.one (if_neg hy)))

/-- **The machine visits every tree**: from a tree with anything pending and any values below, it
gets to the tree's value on top of them, or halts with the tree's error. -/
theorem machine_visit (e : Expr) : Visits e := by
  induction e with
  | const v => exact fun ts vs => ⟨by rintro _ ⟨⟩; exact .one rfl, nofun⟩
  | neg e ih => exact visits_neg ih
  | binary op l r ihl ihr =>
      by_cases hop : op = .div
      · subst hop; exact visits_div ihl ihr
      · exact visits_binary hop ihl ihr

end Machine

open Machine

/-- `f` is the division by zero of a quotient in `e`. -/
def Expr.DividesByZero (e : Expr) (f : EvalError) : Prop :=
  ∃ l r y, f = .divisionByZero (.binary .div l r) ∧ .binary .div l r ∈ e.preorder ∧
    r.eval = .ok y ∧ (y == 0) = true

theorem Expr.DividesByZero.mono {e e' : Expr} {f : EvalError} (h : e.DividesByZero f)
    (he : e.preorder ⊆ e'.preorder) : e'.DividesByZero f := by
  obtain ⟨l, r, y, hf, hmem, hr, hy⟩ := h
  exact ⟨l, r, y, hf, he hmem, hr, hy⟩

theorem bind_error {α β : Type} {x : Except EvalError α} {g : α → Except EvalError β}
    {f : EvalError} (h : x.bind g = .error f) : x = .error f ∨ ∃ a, x = .ok a ∧ g a = .error f := by
  cases x with
  | error f' => cases h; exact .inl rfl
  | ok a => exact .inr ⟨a, rfl, h⟩

/-- A tree has no value only where a quotient in it divides by zero. -/
theorem Expr.eval_error_quotient {e : Expr} :
    ∀ {f : EvalError}, e.eval = .error f → e.DividesByZero f := by
  induction e with
  | const v => intro f h; cases h
  | neg e ih =>
      intro f h
      rcases bind_error h with h | ⟨x, -, h⟩
      · exact (ih h).mono (List.subset_cons_self _ _)
      · cases h
  | binary op l r ihl ihr =>
      intro f h
      have hleft : l.preorder ⊆ (binary op l r).preorder :=
        List.subset_cons_of_subset _ (List.subset_append_left _ _)
      have hright : r.preorder ⊆ (binary op l r).preorder :=
        List.subset_cons_of_subset _ (List.subset_append_right _ _)
      by_cases hop : op = .div
      · subst hop
        rw [Expr.eval_div] at h
        rcases bind_error h with h | ⟨y, hr, h⟩
        · exact (ihr h).mono hright
        · split at h
          · next hy => cases h; exact ⟨l, r, y, rfl, List.mem_cons_self, hr, hy⟩
          · rcases bind_error h with h | ⟨x, -, h⟩
            · exact (ihl h).mono hleft
            · cases h
      · rw [Expr.eval_binary hop] at h
        rcases bind_error h with h | ⟨x, -, h⟩
        · exact (ihl h).mono hleft
        · rcases bind_error h with h | ⟨y, -, h⟩
          · exact (ihr h).mono hright
          · cases h

/-- Only a division by zero leaves a tree without a value. -/
theorem Expr.eval_error {e : Expr} {f : EvalError} (h : e.eval = .error f) :
    ∃ q, f = .divisionByZero q := by
  obtain ⟨l, r, -, hf, -⟩ := Expr.eval_error_quotient h
  exact ⟨_, hf⟩

/-- The machine's answer for a single tree. -/
theorem run_visit (e : Expr) : run ⟨[.visit e], []⟩ = e.eval.map ([·]) := by
  obtain ⟨hok, herr⟩ := machine_visit e [] []
  cases h : e.eval with
  | error f => exact run_of_halts (herr f h)
  | ok x => rw [run_of_steps (hok x h), run_nil]; rfl

theorem evaluate_eq_eval (e : Expr) : evaluate e = e.eval := by
  rw [evaluate, run_visit]
  cases e.eval <;> rfl

/-- **The machine computes the value of a tree.**
* With anything pending and any values below, it gets from the tree to exactly its value on top of
  them when the tree has a value, and halts on a division by zero when it has none.
* Its answer is the tree's value; a successful run ends with that value alone.
* A machine started on the tree never misses an operand, and never divides by a divisor that is
  zero: every halt it can get to is a division by zero that was noticed. -/
theorem machine_simulates_eval (e : Expr) :
    (∀ (ts : List Task) (vs : List Float),
      (∀ x, e.eval = .ok x → Steps ⟨.visit e :: ts, vs⟩ ⟨ts, x :: vs⟩) ∧
      (∀ f, e.eval = .error f →
        (∃ q, f = .divisionByZero q) ∧ Halts ⟨.visit e :: ts, vs⟩ f)) ∧
    evaluate e = e.eval ∧
    (∀ x, e.eval = .ok x → run ⟨[.visit e], []⟩ = .ok [x]) ∧
    (∀ f, Halts ⟨[.visit e], []⟩ f → ∃ q, f = .divisionByZero q) := by
  refine ⟨fun ts vs => ⟨(machine_visit e ts vs).1, fun f hf => ⟨Expr.eval_error hf, ?_⟩⟩,
    evaluate_eq_eval e, fun x hx => ?_, fun f hf => ?_⟩
  · exact (machine_visit e ts vs).2 f hf
  · rw [run_visit, hx]
    rfl
  · -- a halt is what the run ends with, and so the tree's own error
    have h := run_of_halts hf
    rw [run_visit] at h
    cases he : e.eval with
    | error f' =>
        rw [he] at h
        cases h
        exact Expr.eval_error he
    | ok x =>
        rw [he] at h
        cases h

/-- `6 / (2 - 2)`. -/
def overNothing : Expr := .binary .div (.const 6) (.binary .sub (.const 2) (.const 2))

/-- `-(6 / 2)`. -/
def negatedQuotient : Expr := .neg (.binary .div (.const 6) (.const 2))

/-- One tree without a value, and one with a value, under a pending negation. -/
theorem machine_simulates_quotients :
    (overNothing.eval = .error (.divisionByZero overNothing) ∧
      (∃ q, EvalError.divisionByZero overNothing = .divisionByZero q) ∧
      Halts ⟨[.visit overNothing, .negate], [1]⟩ (.divisionByZero overNothing)) ∧
    (negatedQuotient.eval = .ok (-(6 / 2)) ∧
      Steps ⟨[.visit negatedQuotient, .negate], [1]⟩ ⟨[.negate], [-(6 / 2), 1]⟩ ∧
      run ⟨[.visit negatedQuotient], []⟩ = .ok [-(6 / 2)]) ∧
    (Halts ⟨[.visit overNothing], []⟩ (.divisionByZero overNothing) ∧
      ∃ q, EvalError.divisionByZero overNothing = .divisionByZero q) := by
  have hfail : overNothing.eval = .error (.divisionByZero overNothing) := by rfl
  have hval : negatedQuotient.eval = .ok (-(6 / 2)) := by rfl
  obtain ⟨hvisit, -, -, hhalt⟩ := machine_simulates_eval overNothing
  obtain ⟨hvisit', -, hrun, -⟩ := machine_simulates_eval negatedQuotient
  have halts := ((hvisit [] []).2 _ hfail).2
  exact ⟨⟨hfail, (hvisit [.negate] [1]).2 _ hfail⟩,
    ⟨hval, (hvisit' [.negate] [1]).1 _ hval, hrun _ hval⟩, halts, hhalt _ halts⟩

end Abacus
