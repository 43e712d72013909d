import Abacus.Fields.Accept
import Abacus.Grammar.Parse

/-!
# Settings — options of the calculator

How expressions are parsed and how many digits of a result are shown.  Settings come from named
values (`ofEntries`), all of which are checked, and can be changed by further ones (`override`):
a change is made as a whole or not at all, and what is null changes nothing.
-/

namespace Abacus
open Data Fields

/-- The options of the calculator. -/
structure Settings where
  strict : Bool := false
  extended : Bool := true
  maxDepth : Int := 100
  precision : Int := 6
  deriving Repr, DecidableEq

namespace Settings

/-- The bounds of a nesting limit. -/
def depthRange : Int × Int := (1, 200)

/-- The bounds of a precision. -/
def precisionRange : Int × Int := (1, 17)

/-- Settings within their bounds. -/
def InRange (s : Settings) : Prop :=
  depthRange.1 ≤ s.maxDepth ∧ s.maxDepth ≤ depthRange.2 ∧
    precisionRange.1 ≤ s.precision ∧ s.precision ≤ precisionRange.2

instance (s : Settings) : Decidable s.InRange := inferInstanceAs (Decidable (_ ∧ _))

/-- The names of the options, in order. -/
def names : List String := ["strict", "extended", "max_depth", "precision"]

def maxDepthOf : Datum → Except Problem Int := intBetween depthRange.1 depthRange.2

def precisionOf : Datum → Except Problem Int := intBetween precisionRange.1 precisionRange.2

/-- Settings from named values; what is not named has its default. -/
def ofEntries (es : Entries) : Except (List Complaint) Settings :=
  let strict    := withDefault es bool "strict" false
  let extended  := withDefault es bool "extended" true
  let maxDepth  := withDefault es maxDepthOf "max_depth" 100
  let precision := withDefault es precisionOf "precision" 6
  match strict, extended, maxDepth, precision, unknownFields names es with
  | .ok s, .ok x, .ok m, .ok p, [] => .ok ⟨s, x, m, p⟩
  | _, _, _, _, unknown            =>
      .error (complaintOf strict ++ complaintOf extended ++ complaintOf maxDepth ++
        complaintOf precision ++ unknown)

/-- Settings as named values. -/
def toEntries (s : Settings) : Entries :=
  [("strict", .bool s.strict), ("extended", .bool s.extended), ("max_depth", .int s.maxDepth),
    ("precision", .int s.precision)]

/-- The values that change something. -/
def changes (es : Entries) : Entries := es.filter fun e => !e.2.isNull

/-- Settings with some options changed. -/
def override (s : Settings) (es : Entries) : Except (List Complaint) Settings :=
  match changes es with
  | []      => .ok s
  | e :: es => ofEntries (s.toEntries.setAll (e :: es))

/-- How to parse. -/
def parsing (s : Settings) : Grammar.Options := ⟨s.strict, s.extended, s.maxDepth⟩

end Settings

end Abacus
