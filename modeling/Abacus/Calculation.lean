import Abacus.Grammar.Parse
import Abacus.Value.Machine

/-!
# Calculation — records of one expression

A record of a calculation says what was calculated and what came of it.  `ofTree` and `ofText`
make the two kinds of record there are, a value or a failure; a record put together by hand may
hold both, or neither.
-/

namespace Abacus
open Failure

/-- The text or label of an expression, its tree if it has one, and its value or its failure. -/
structure Calculation where
  source : String
  expression : Option Expr := none
  value : Option Float := none
  error : Option Kind := none
  message : Option String := none
  deriving Repr

namespace Calculation

/-- A record without a failure. -/
def ok (c : Calculation) : Bool := c.error.isNone

/-- The record of a tree, named by a label or by its own text. -/
def ofTree (e : Expr) (label : Option String := none) : Calculation :=
  let source := label.getD e.render
  match evaluate e with
  | .ok v    => { source, expression := some e, value := some v }
  | .error f => { source, expression := some e, error := some f.kind, message := some f.message }

/-- The record of a text. -/
def ofText (source : String) (o : Grammar.Options := {}) : Calculation :=
  match Grammar.parse source o with
  | .error f => { source, error := some f.kind, message := some f.message }
  | .ok e    => ofTree e (some source)

/-- One line: the value if there is one, else the message. -/
def render (c : Calculation) (precision : Int := 6) : Except PrecisionError String :=
  match c.value with
  | some v => (valueText v precision).map fun t => c.source ++ " = " ++ t
  | none   => .ok ("Error: " ++ c.message.getD "None")

end Calculation

end Abacus
