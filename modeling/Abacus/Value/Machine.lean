import Abacus.Value.Error

/-!
# Value — the evaluation machine

A tree is evaluated by a machine with a stack of tasks and a stack of values, so that a tall tree
needs no deep recursion.  Sums, differences and products evaluate their operands left to right.
A quotient evaluates its divisor first and, when that is zero, stops before it looks at the
dividend.  `perform` does one task and `run` does them all.
-/

namespace Abacus

namespace Machine

/-- What is still to be done. -/
inductive Task where
  /-- Evaluate a tree. -/
  | visit (e : Expr)
  /-- Change the sign of the topmost value. -/
  | negate
  /-- Put the two topmost values under an operator, the right operand on top. -/
  | combine (op : Op)
  /-- Check the divisor, which has been evaluated, and go on to the dividend. -/
  | check (dividend divisor : Expr)
  /-- Divide the topmost value by the one below it. -/
  | divide
  deriving Repr, DecidableEq

/-- The tasks in order, and the values so far, the last one first. -/
structure State where
  tasks : List Task
  values : List Float
  deriving Repr, DecidableEq

/-- Does a task; `ts` are the tasks after it. -/
def perform (ts : List Task) : Task → List Float → Except EvalError State
  | .visit (.const v), vs         => .ok ⟨ts, v :: vs⟩
  | .visit (.neg e), vs           => .ok ⟨.visit e :: .negate :: ts, vs⟩
  | .visit (.binary .div l r), vs => .ok ⟨.visit r :: .check l r :: ts, vs⟩
  | .visit (.binary op l r), vs   => .ok ⟨.visit l :: .visit r :: .combine op :: ts, vs⟩
  | .negate, v :: vs              => .ok ⟨ts, -v :: vs⟩
  | .combine op, r :: l :: vs     => .ok ⟨ts, op.apply l r :: vs⟩
  | .check l r, d :: vs           =>
      if d == 0 then .error (.divisionByZero (.binary .div l r))
      else .ok ⟨.visit l :: .divide :: ts, d :: vs⟩
  | .divide, n :: d :: vs         =>
      if d == 0 then .error .uncheckedDivisor else .ok ⟨ts, n / d :: vs⟩
  | .negate, [] | .combine _, [] | .combine _, [_] | .check _ _, [] | .divide, [] | .divide, [_] =>
      .error .missingOperand

/-- A measure of what a task leads to. -/
def Task.weight : Task → Nat
  | .visit e   => 3 * e.size
  | .check l _ => 3 * l.size + 2
  | _          => 1

/-- The weight of pending tasks together. -/
def tasksWeight : List Task → Nat
  | []      => 0
  | t :: ts => t.weight + tasksWeight ts

theorem tasksWeight_cons (t : Task) (ts : List Task) :
    tasksWeight (t :: ts) = t.weight + tasksWeight ts := rfl

theorem tasksWeight_perform {ts : List Task} {t : Task} {vs : List Float} {s : State}
    (h : perform ts t vs = .ok s) : tasksWeight s.tasks < tasksWeight (t :: ts) := by
  unfold perform at h
  split at h <;> (try split at h) <;> cases h <;>
    simp only [tasksWeight_cons, Task.weight, Expr.size] <;> omega

/-- Does the tasks in order, and gives the values at the end, the last one first. -/
def run : State → Except EvalError (List Float)
  | ⟨[], vs⟩      => .ok vs
  | ⟨t :: ts, vs⟩ =>
      match h : perform ts t vs with
      | .error e => .error e
      | .ok s    =>
          have := tasksWeight_perform h
          run s
  termination_by s => tasksWeight s.tasks
  decreasing_by exact this

end Machine

/-- The value of a tree. -/
def evaluate (e : Expr) : Except EvalError Float :=
  match Machine.run ⟨[.visit e], []⟩ with
  | .error e      => .error e
  | .ok []        => .error .missingOperand
  | .ok (v :: _)  => .ok v

end Abacus
