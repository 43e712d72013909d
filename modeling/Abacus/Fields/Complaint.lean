import Abacus.Data.Literal

/-!
# Fields — what is wrong with a record

A `Complaint` names a field, tells the problem and shows the value.  A report counts the complaints
about a record and lists them.
-/

namespace Abacus.Fields
open Data

/-- The longest beginning of a text that fits into `n` bytes. -/
def fit : Nat → List Char → List Char
  | _, []      => []
  | n, c :: cs => if c.utf8Size ≤ n then c :: fit (n - c.utf8Size) cs else []

/-- A text of at most fifty bytes, or what fits into twenty-five bytes of its beginning and
twenty-four of its end. -/
def excerpt (s : String) : String :=
  if s.utf8ByteSize ≤ 50 then s
  else
    String.ofList (fit 25 s.toList) ++ "..." ++
      String.ofList (fit 24 s.toList.reverse).reverse

/-- What is wrong with which field, and the value it was given. -/
structure Complaint where
  field : String
  problem : Problem
  given : Datum
  deriving Repr

/-- The name of a field, set apart where a point in it could be taken for a path. -/
def fieldText (name : String) : String :=
  if name.toList.contains '.' then "`" ++ name ++ "`" else name

/-- A complaint on two lines, the field first. -/
def Complaint.text (c : Complaint) : String :=
  fieldText c.field ++ "\n  " ++ c.problem.text ++ " [type=" ++ c.problem.tag ++ ", input_value=" ++
    excerpt c.given.shown ++ ", input_type=" ++ c.given.typeName ++ "]"

/-- The complaints about a record, after their number. -/
def reportText (record : String) (cs : List Complaint) : String :=
  "\n".intercalate
    ((toString cs.length ++ (if cs.length = 1 then " validation error for "
      else " validation errors for ") ++ record) :: cs.map Complaint.text)

end Abacus.Fields
