import Abacus.Calculation
import Abacus.Settings.Basic

/-!
# Samples — example calculations

Trees put together by hand, one for each operator, the last dividing by zero; and texts, which
are parsed.  Settings bear on the texts alone.
-/

namespace Abacus.Samples

/-- A whole number as a tree. -/
def whole (n : Nat) : Expr := .const (Float.ofNat n)

/-- Trees with the texts they are labelled by. -/
def trees : List (String × Expr) :=
  [("2 * (3 + 4)", .binary .mul (whole 2) (.binary .add (whole 3) (whole 4))),
    ("13.75 + 22 * 15", .binary .add (.const 13.75) (.binary .mul (whole 22) (whole 15))),
    ("10 - 3 * 2", .binary .sub (whole 10) (.binary .mul (whole 3) (whole 2))),
    ("10 / 2 + 5", .binary .add (.binary .div (whole 10) (whole 2)) (whole 5)),
    ("-4", .neg (whole 4)),
    ("10 / 0", .binary .div (whole 10) (whole 0))]

/-- Texts to parse. -/
def texts : List String := ["2 * (3 + 4)", "13.75 + 22 * 15", "-(3 + 1) * 2"]

/-- The calculations on the trees. -/
def ofTrees : List Calculation := trees.map fun t => .ofTree t.2 (some t.1)

/-- The calculations on the texts. -/
def ofTexts (s : Settings := {}) : List Calculation := texts.map fun t => .ofText t s.parsing

/-- All calculations, those on the trees first. -/
def all (s : Settings := {}) : List Calculation := ofTrees ++ ofTexts s

end Abacus.Samples
