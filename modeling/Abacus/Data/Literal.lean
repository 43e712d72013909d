import Abacus.Data.Datum
import Abacus.Decimal.Layout
import Abacus.Text.Quoted

/-!
# Data — literals

A value shown so that its type can be told: `True`, `5`, `5.0`, `'5'`, `[5, '5']`, `{'a': None}`.
Days and times are shown as what would construct them.  Nothing that holds a whole number of too
many digits has a literal, and of such a value only the type is shown.
-/

namespace Abacus.Data

/-- Numbers in a row, set apart by commas. -/
def numbersText (ns : List Nat) : String := ", ".intercalate (ns.map toString)

/-- What a clock is made from, as many parts as it takes: seconds are left out when they and what
follows them are zero, and so are microseconds. -/
def Clock.parts (c : Clock) : List Nat :=
  [c.hour, c.minute] ++
    if c.micro ≠ 0 then [c.second, c.micro] else if c.second ≠ 0 then [c.second] else []

/-- The time zone that is some minutes ahead.  Behind universal time it is one day back and some
seconds on. -/
def zoneText (ahead : Int) : String :=
  if ahead = 0 then "datetime.timezone.utc"
  else
    let span := if ahead < 0 then "days=-1, seconds=" ++ toString (86400 + 60 * ahead)
      else "seconds=" ++ toString (60 * ahead)
    "datetime.timezone(datetime.timedelta(" ++ span ++ "))"

namespace Moment

def literal : Moment → String
  | .day d   => "datetime.date(" ++ numbersText [d.year, d.month, d.day] ++ ")"
  | .clock c => "datetime.time(" ++ numbersText c.parts ++ ")"
  | .both d c ahead =>
      let zone := match ahead with
        | some m => ", tzinfo=" ++ zoneText m
        | none   => ""
      "datetime.datetime(" ++ numbersText ([d.year, d.month, d.day] ++ c.parts) ++ zone ++ ")"

end Moment

namespace Datum

mutual

/-- A value as a literal, if it has one. -/
def literal? : Datum → Option String
  | .null       => some "None"
  | .bool true  => some "True"
  | .bool false => some "False"
  | .int n      => wholeLiteral? n
  | .float x    => some (exactText x)
  | .text s     => some (Text.quoted s)
  | .moment m   => some m.literal
  | .list ds    => (literals? ds).map fun ls => "[" ++ ", ".intercalate ls ++ "]"
  | .table es   => (entryLiterals? es).map fun ls => "\x7b" ++ ", ".intercalate ls ++ "\x7d"
  | .foreign v  => v.literal?

/-- The literals of some values, if all have one. -/
def literals? : List Datum → Option (List String)
  | []      => some []
  | d :: ds => do return (← d.literal?) :: (← literals? ds)

/-- The literals of some entries, each with its key, if all have one. -/
def entryLiterals? : List (String × Datum) → Option (List String)
  | []           => some []
  | (k, d) :: es => do return (Text.quoted k ++ ": " ++ (← d.literal?)) :: (← entryLiterals? es)

end

/-- A value as it is shown: as its literal, or by its type if it has none. -/
def shown (d : Datum) : String := d.literal?.getD ("<unprintable " ++ d.typeName ++ " object>")

end Datum

end Abacus.Data
