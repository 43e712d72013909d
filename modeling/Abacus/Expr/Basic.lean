/-!
# Expr — expression trees

A tree is a constant, the negation of a tree, or two trees under one of four operators.  Nothing
else is a tree, so a function on trees has three cases and no failure.
-/

namespace Abacus

/-- The binary operators. -/
inductive Op where
  | add
  | sub
  | mul
  | div
  deriving Repr, DecidableEq

namespace Op

def symbol : Op → Char
  | .add => '+'
  | .sub => '-'
  | .mul => '*'
  | .div => '/'

def name : Op → String
  | .add => "Add"
  | .sub => "Subtract"
  | .mul => "Multiply"
  | .div => "Divide"

/-- The operation on doubles. -/
def apply : Op → Float → Float → Float
  | .add, x, y => x + y
  | .sub, x, y => x - y
  | .mul, x, y => x * y
  | .div, x, y => x / y

end Op

/-- Arithmetic expressions over doubles. -/
inductive Expr where
  | const (value : Float)
  | neg (operand : Expr)
  | binary (op : Op) (left right : Expr)
  deriving Repr, DecidableEq, Inhabited

namespace Expr

/-- The operands of the root, left to right. -/
def children : Expr → List Expr
  | .const _      => []
  | .neg e        => [e]
  | .binary _ l r => [l, r]

/-- The number of nodes. -/
def size : Expr → Nat
  | .const _      => 1
  | .neg e        => e.size + 1
  | .binary _ l r => l.size + r.size + 1

theorem size_pos (e : Expr) : 0 < e.size := by
  cases e <;> simp only [size] <;> omega

/-- Equality of trees whose constants are compared as numbers: `0` and `-0` are equal, and what
is no number equals nothing. -/
def agrees : Expr → Expr → Bool
  | .const x,      .const y         => x == y
  | .neg a,        .neg b           => a.agrees b
  | .binary o l r, .binary o' l' r' => o == o' && l.agrees l' && r.agrees r'
  | _,             _                => false

instance : BEq Expr := ⟨agrees⟩

end Expr

/-- The nodes of some trees, counted together. -/
def totalSize : List Expr → Nat
  | []      => 0
  | e :: es => e.size + totalSize es

theorem totalSize_cons (e : Expr) (es : List Expr) :
    totalSize (e :: es) = e.size + totalSize es := rfl

end Abacus
