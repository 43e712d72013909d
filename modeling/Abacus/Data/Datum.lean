import Abacus.Data.Moment
import Abacus.Data.Whole
import Abacus.Fields.Problem

/-!
# Data — values of no fixed type

What stands in a configuration file or is given for an option can be of any type.  A `Datum` is
such a value together with its type; a table keeps its entries in the order in which they came.
Of a value whose type is not among these it is only known how it is shown and what can be read
from it.
-/

namespace Abacus.Data
open Fields

/-- A value of another type: the type's name, the value as a literal if it has one, and what fields
of each type read from it. -/
structure Foreign where
  typeName : String
  literal? : Option String
  bool : Except Problem Bool
  int : Except Problem Int
  float : Except Problem Float
  text : Except Problem String
  deriving Repr

/-- A value of any type. -/
inductive Datum where
  | null
  | bool (b : Bool)
  | int (n : Int)
  | float (x : Float)
  | text (s : String)
  | moment (m : Moment)
  | list (items : List Datum)
  | table (entries : List (String × Datum))
  | foreign (v : Foreign)
  deriving Repr, Inhabited

/-- The entries of a table, in order. -/
abbrev Entries := List (String × Datum)

namespace Entries

/-- The value of a key. -/
def get? (es : Entries) (key : String) : Option Datum := es.lookup key

/-- The entries with a key set: in its place if it is there, at the end if not. -/
def set (es : Entries) (key : String) (d : Datum) : Entries :=
  match es with
  | []           => [(key, d)]
  | (k, e) :: es => if k == key then (k, d) :: es else (k, e) :: set es key d

/-- The entries with other entries set, one after another. -/
def setAll (es updates : Entries) : Entries := updates.foldl (fun es u => es.set u.1 u.2) es

end Entries

namespace Datum

def isNull : Datum → Bool
  | .null => true
  | _     => false

/-- The name of a value's type. -/
def typeName : Datum → String
  | .null              => "NoneType"
  | .bool _            => "bool"
  | .int _             => "int"
  | .float _           => "float"
  | .text _            => "str"
  | .moment (.day _)   => "date"
  | .moment (.clock _) => "time"
  | .moment (.both ..) => "datetime"
  | .list _            => "list"
  | .table _           => "dict"
  | .foreign v         => v.typeName

end Datum

end Abacus.Data
