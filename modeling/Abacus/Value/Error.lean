import Abacus.Expr.Text
import Abacus.Failure.Report

/-!
# Value — evaluation errors

A tree has no value when it divides by zero.  `unknownNode` is for what was given in place of a
tree, and the last two causes are an evaluator's own: no tree brings them about.
-/

namespace Abacus
open Failure

/-- Why there is no value. -/
inductive EvalError where
  | divisionByZero (quotient : Expr)
  | unknownNode (typeName : String)
  | missingOperand
  | uncheckedDivisor
  deriving Repr, DecidableEq

namespace EvalError

def family : EvalError → Family
  | .divisionByZero _ => .divisionByZero
  | _                 => .evaluation

def kind (e : EvalError) : Kind := e.family.kind

def message : EvalError → String
  | .divisionByZero _    => "Division by zero"
  | .unknownNode t       => "Unknown expression type: " ++ t
  | .missingOperand      => "Missing operand"
  | .uncheckedDivisor    => "Unchecked divisor"

/-- The error as a report; it concerns no place in a text. -/
def report (e : EvalError) : Report := ⟨e.family, e.message, none⟩

end EvalError

end Abacus
