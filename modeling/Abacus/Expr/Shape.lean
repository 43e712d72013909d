import Abacus.Expr.Basic
import Abacus.Fields.Accept

/-!
# Expr — nodes from named operands

A node put together by name: a constant from a value of any type, the others from their operands.
An operand that is missing, or is no tree, makes no node; names a node does not have are ignored.
-/

namespace Abacus.Expr
open Data Fields

/-- A constant of the number that a value is. -/
def ofDatum (d : Datum) : Except Problem Expr := (float d).map .const

/-- The kinds of node that have operands. -/
inductive Shape where
  | neg
  | binary (op : Op)
  deriving Repr, DecidableEq

namespace Shape

def name : Shape → String
  | .neg       => "Negate"
  | .binary op => op.name

def all : List Shape := [.binary .add, .binary .sub, .binary .mul, .binary .div, .neg]

def ofName? (s : String) : Option Shape := all.find? (·.name == s)

/-- The character written between two operands. -/
def symbol? : Shape → Option Char
  | .neg       => none
  | .binary op => some op.symbol

/-- A node from its operands; what is no tree stands as `none`. -/
def build (s : Shape) (operands : List (String × Option Expr)) : Option Expr :=
  let operand (name : String) : Option Expr := (operands.lookup name).join
  match s with
  | .neg       => (operand "operand").map .neg
  | .binary op => do return .binary op (← operand "left") (← operand "right")

end Shape

/-- The name of a node's kind. -/
def shapeName : Expr → String
  | .const _       => "Constant"
  | .neg _         => Shape.neg.name
  | .binary op _ _ => op.name

end Abacus.Expr
