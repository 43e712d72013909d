import Abacus.Value.Error

/-!
# Value — the value of a tree

The definition of a tree's value, by recursion on the tree.  A quotient's divisor is evaluated
first; when it is zero there is no value, whatever the dividend.
-/

namespace Abacus.Expr

/-- The value of a tree. -/
def eval : Expr → Except EvalError Float
  | .const v => .ok v
  | .neg e => do
      let x ← e.eval
      .ok (-x)
  | .binary .div l r => do
      let y ← r.eval
      if y == 0 then .error (.divisionByZero (.binary .div l r))
      else
        let x ← l.eval
        .ok (x / y)
  | .binary op l r => do
      let x ← l.eval
      let y ← r.eval
      .ok (op.apply x y)

end Abacus.Expr
