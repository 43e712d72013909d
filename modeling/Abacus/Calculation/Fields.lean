import Abacus.Calculation
import Abacus.Fields.Accept

/-!
# Calculation — records from named values

A record put together by hand, from named values that are checked one by one.  Nothing makes the
parts of such a record fit together.
-/

namespace Abacus.Calculation
open Data Fields

/-- The name under which complaints about records are reported. -/
def recordName : String := "Calculation"

/-- The kinds of failure with their names. -/
def kinds : List (String × Failure.Kind) := Failure.Kind.all.map fun k => (k.name, k)

/-- A record, without a tree, from named values; names it does not have are ignored. -/
def ofEntries (es : Entries) : Except (List Complaint) Calculation :=
  let source  := required es text "source"
  let value   := withDefault es (orNull float) "value" none
  let error   := withDefault es (orNull (oneOf kinds)) "error" none
  let message := withDefault es (orNull text) "message" none
  match source, value, error, message with
  | .ok s, .ok v, .ok k, .ok m => .ok ⟨s, none, v, k, m⟩
  | _, _, _, _ =>
      .error (complaintOf source ++ complaintOf value ++ complaintOf error ++ complaintOf message)

end Abacus.Calculation
