import Abacus.Failure.Kind

/-!
# Failure — reports

A report is a family, a message and, when the failure concerns a place in a text, that place.  Its
full text shows the place first: the column, the text, and a caret under the column.
-/

namespace Abacus.Failure

/-- A place in a text; columns count characters and start at one. -/
structure Site where
  source : String
  column : Int
  deriving Repr, DecidableEq

/-- What stands before the text of a site. -/
def margin : String := "    | "

/-- The blanks before a caret; a column left of the margin has none. -/
def Site.indent (s : Site) : Nat := ((margin.length : Int) + s.column - 1).toNat

/-- The column, the text and the caret, on lines of their own. -/
def Site.text (s : Site) : String :=
  "column " ++ toString s.column ++ "\n" ++ margin ++ s.source ++ "\n" ++
    String.ofList (List.replicate s.indent ' ') ++ "^"

/-- A failure as it is shown. -/
structure Report where
  family : Family
  message : String
  site? : Option Site := none
  deriving Repr, DecidableEq

/-- The kind of a report is that of its family. -/
def Report.kind (r : Report) : Kind := r.family.kind

/-- The message, after the place when there is one. -/
def Report.text (r : Report) : String :=
  match r.site? with
  | some s => s.text ++ "\n" ++ r.message
  | none   => r.message

end Abacus.Failure
