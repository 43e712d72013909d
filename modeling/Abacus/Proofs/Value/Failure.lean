import Abacus.Proofs.Binary64.Equality
import Abacus.Proofs.Expr.Loops
import Abacus.Proofs.Value.Simulation

/-!
# Value — when a tree has no value

The machine stops at the first zero divisor it meets, and leaves the dividend of that quotient
unseen.  Whether it stops can be told from the tree all the same.

* `eval_of_mem`: a tree that has a value has no part without one, for every part of it has been
  evaluated.
* `evaluate_fails`: so a tree fails exactly when some quotient in it has a zero divisor, seen or
  not; it fails with a division by zero, and has a value otherwise.
-/

namespace Abacus

theorem bind_ok {α β : Type} {x : Except EvalError α} {g : α → Except EvalError β} {b : β}
    (h : x.bind g = .ok b) : ∃ a, x = .ok a ∧ g a = .ok b := by
  cases x with
  | error f => cases h
  | ok a => exact ⟨a, rfl, h⟩

namespace Expr

/-- A quotient of the tree has a divisor whose value is zero, with or without a sign. -/
def HasZeroDivisor (e : Expr) : Prop :=
  ∃ l r, .binary .div l r ∈ e.walk ∧ (evaluate r = .ok 0 ∨ evaluate r = .ok (-0))

theorem eval_zero_iff {e : Expr} :
    (e.eval = .ok 0 ∨ e.eval = .ok (-0)) ↔ ∃ x, e.eval = .ok x ∧ (x == 0) = true := by
  simp only [Binary64.beq_zero_iff]
  constructor
  · rintro (h | h)
    · exact ⟨0, h, .inl rfl⟩
    · exact ⟨-0, h, .inr rfl⟩
  · rintro ⟨x, h, rfl | rfl⟩
    · exact .inl h
    · exact .inr h

/-- The operands of a tree with a value have values. -/
theorem eval_operands {op : Op} {l r : Expr} {v : Float} (h : (binary op l r).eval = .ok v) :
    ∃ x y, l.eval = .ok x ∧ r.eval = .ok y ∧ (op = .div → (y == 0) = false) := by
  by_cases hop : op = .div
  · subst hop
    rw [eval_div] at h
    obtain ⟨y, hr, h⟩ := bind_ok h
    split at h
    · cases h
    · next hy =>
        obtain ⟨x, hl, -⟩ := bind_ok h
        exact ⟨x, y, hl, hr, fun _ => Bool.eq_false_iff.mpr hy⟩
  · rw [eval_binary hop] at h
    obtain ⟨x, hl, h⟩ := bind_ok h
    obtain ⟨y, hr, -⟩ := bind_ok h
    exact ⟨x, y, hl, hr, fun h => absurd h hop⟩

/-- Every part of a tree with a value has a value. -/
theorem eval_of_mem {e n : Expr} (hn : n ∈ e.preorder) :
    ∀ {v : Float}, e.eval = .ok v → ∃ x, n.eval = .ok x := by
  induction e with
  | const c =>
      intro v h
      rw [List.mem_singleton.mp hn]
      exact ⟨v, h⟩
  | neg e ih =>
      intro v h
      rcases List.mem_cons.mp hn with rfl | hn
      · exact ⟨v, h⟩
      · obtain ⟨x, he, -⟩ := bind_ok h
        exact ih hn he
  | binary op l r ihl ihr =>
      intro v h
      obtain ⟨x, y, hl, hr, -⟩ := eval_operands h
      rcases List.mem_cons.mp hn with rfl | hn
      · exact ⟨v, h⟩
      · rcases List.mem_append.mp hn with hn | hn
        · exact ihl hn hl
        · exact ihr hn hr

/-- A tree with a value divides by zero nowhere. -/
theorem not_hasZeroDivisor {e : Expr} {v : Float} (h : e.eval = .ok v) : ¬ e.HasZeroDivisor := by
  rintro ⟨l, r, hmem, hzero⟩
  rw [walk_eq_preorder] at hmem
  rw [evaluate_eq_eval, eval_zero_iff] at hzero
  obtain ⟨y, hr, hy⟩ := hzero
  obtain ⟨q, hq⟩ := eval_of_mem hmem h
  obtain ⟨x, y', -, hr', hy'⟩ := eval_operands hq
  rw [hr] at hr'
  cases hr'
  rw [hy' rfl] at hy
  cases hy

end Expr

/-- **A tree fails exactly when it divides by zero.**  It does so when some quotient among its
nodes, whether the evaluation gets there or not, has a divisor with the value `0` or `-0`.  It then
fails with the division by zero of one of these quotients, and with nothing else; every other tree
has a value. -/
theorem evaluate_fails (e : Expr) :
    ((∃ f, evaluate e = .error f) ↔ e.HasZeroDivisor) ∧
    (∀ f, evaluate e = .error f →
      f.family = .divisionByZero ∧ f.kind = .divisionByZero ∧ f.message = "Division by zero" ∧
      ∃ l r, f = .divisionByZero (.binary .div l r) ∧ .binary .div l r ∈ e.walk ∧
        (evaluate r = .ok 0 ∨ evaluate r = .ok (-0))) ∧
    (¬ e.HasZeroDivisor → ∃ v, evaluate e = .ok v) := by
  have hquotient : ∀ f, evaluate e = .error f →
      ∃ l r, f = .divisionByZero (.binary .div l r) ∧ .binary .div l r ∈ e.walk ∧
        (evaluate r = .ok 0 ∨ evaluate r = .ok (-0)) := by
    intro f hf
    rw [evaluate_eq_eval] at hf
    obtain ⟨l, r, y, rfl, hmem, hr, hy⟩ := Expr.eval_error_quotient hf
    refine ⟨l, r, rfl, by rwa [Expr.walk_eq_preorder], ?_⟩
    rw [evaluate_eq_eval, Expr.eval_zero_iff]
    exact ⟨y, hr, hy⟩
  have hfails : (∃ f, evaluate e = .error f) ↔ e.HasZeroDivisor := by
    constructor
    · rintro ⟨f, hf⟩
      obtain ⟨l, r, -, hmem, hzero⟩ := hquotient f hf
      exact ⟨l, r, hmem, hzero⟩
    · intro hzero
      cases he : e.eval with
      | error f => exact ⟨f, (evaluate_eq_eval e).trans he⟩
      | ok v => exact absurd hzero (Expr.not_hasZeroDivisor he)
  refine ⟨hfails, fun f hf => ?_, fun hno => ?_⟩
  · obtain ⟨l, r, rfl, hmem, hzero⟩ := hquotient f hf
    exact ⟨rfl, rfl, rfl, l, r, rfl, hmem, hzero⟩
  · cases he : evaluate e with
    | error f => exact absurd (hfails.mp ⟨f, he⟩) hno
    | ok v => exact ⟨v, rfl⟩

/-- `(1 / (3 - 3)) / (2 * 0)`: the divisor in the dividend is zero too, and is never evaluated. -/
def twiceOverNothing : Expr :=
  .binary .div (.binary .div (.const 1) (.binary .sub (.const 3) (.const 3)))
    (.binary .mul (.const 2) (.const 0))

/-- `1 / (inf - inf)`: the divisor is no number, and not zero. -/
def overNotNumber : Expr :=
  .binary .div (.const 1)
    (.binary .sub (.const (Binary64.infinity false)) (.const (Binary64.infinity false)))

/-- One tree fails at the first of two zero divisors, and one has a value. -/
theorem evaluate_fails_twiceOverNothing :
    (twiceOverNothing.HasZeroDivisor ∧ (∃ f, evaluate twiceOverNothing = .error f)) ∧
    (evaluate twiceOverNothing = .error (.divisionByZero twiceOverNothing) ∧
      ∃ l r, EvalError.divisionByZero twiceOverNothing = .divisionByZero (.binary .div l r) ∧
        .binary .div l r ∈ twiceOverNothing.walk ∧
        (evaluate r = .ok 0 ∨ evaluate r = .ok (-0))) ∧
    (¬ overNotNumber.HasZeroDivisor ∧ ∃ v, evaluate overNotNumber = .ok v) := by
  have hfail : evaluate twiceOverNothing = .error (.divisionByZero twiceOverNothing) := by
    rw [evaluate_eq_eval]
    rfl
  have hzero := (evaluate_fails twiceOverNothing).1.mp ⟨_, hfail⟩
  have hvalue : overNotNumber.eval =
      .ok (1 / (Binary64.infinity false - Binary64.infinity false)) := by rfl
  have hno := Expr.not_hasZeroDivisor hvalue
  exact ⟨⟨hzero, (evaluate_fails twiceOverNothing).1.mpr hzero⟩,
    ⟨hfail, ((evaluate_fails twiceOverNothing).2.1 _ hfail).2.2.2⟩,
    hno, (evaluate_fails overNotNumber).2.2 hno⟩

end Abacus
