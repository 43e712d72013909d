import Abacus.Fields.Complaint
import Abacus.Fields.Number

/-!
# Fields — what a field accepts

A field has a type and accepts what can be read as a value of it without loss: a truth value from
`1` or `"yes"`, a whole number from `5.0` or `" 5 "`, a number from anything that writes one.
Record readers are put together from `required`, `withDefault` and `unknownFields`; each field is
read by itself, so one complaint hides no other.

The rules are those of a package that validates records, and stand here for it: which values of
another type a field takes, in which order they are tried and what is said of one that it does not
take.  What is proved of settings rests on two facts about the package.  A whole number that a field
takes is within the bounds of the field, and a value that a record was made with is taken again as
it is.
-/

namespace Abacus.Fields
open Data

/-- The words for truth values, in any case. -/
def boolWords : List (String × Bool) :=
  [("1", true), ("true", true), ("t", true), ("yes", true), ("y", true), ("on", true),
    ("0", false), ("false", false), ("f", false), ("no", false), ("n", false), ("off", false)]

/-- The magnitude from which on a whole number does not fit into a signed word. -/
def wordBound : Int := 0x8000000000000000

/-- The truth value that a whole number stands for.  One that does not fit into a word is not taken
for a truth value at all. -/
def boolOfInt (n : Int) : Except Problem Bool :=
  if n = 0 then .ok false
  else if n = 1 then .ok true
  else if -wordBound ≤ n ∧ n < wordBound then .error .unreadableBool
  else .error .notBool

/-- The whole number that a double is, below the bound in magnitude. -/
def wholeOfFloat (x : Float) : Except Problem Int :=
  let n := Binary64.rank x
  if Binary64.infinityRank ≤ n then .error .notFinite
  else if Binary64.units n % Binary64.unitsPerOne = 0 then
    let k : Int := (Binary64.units n / Binary64.unitsPerOne : Nat)
    if wordBound ≤ k then .error .oversized
    else .ok (if Binary64.isNegative x then -k else k)
  else .error .fractional

/-- A truth value. -/
def bool : Datum → Except Problem Bool
  | .bool b  => .ok b
  | .int n   => boolOfInt n
  | .float x =>
      match wholeOfFloat x with
      | .ok n    => boolOfInt n
      | .error _ => .error .notBool
  | .text s  =>
      match boolWords.lookup (String.ofList (s.toList.map Char.toLower)) with
      | some b => .ok b
      | none   => .error .unreadableBool
  | .foreign v => v.bool
  | _          => .error .notBool

/-- A whole number. -/
def int : Datum → Except Problem Int
  | .int n      => .ok n
  | .bool true  => .ok 1
  | .bool false => .ok 0
  | .float x    => wholeOfFloat x
  | .text s     =>
      match intOfText s.toList with
      | some n => .ok n
      | none   => .error (if isOverlong s.toList then .oversized else .unreadableInt)
  | .foreign v => v.int
  | _          => .error .notInt

/-- A whole number between two others. -/
def intBetween (least greatest : Int) (d : Datum) : Except Problem Int :=
  match int d with
  | .error p => .error p
  | .ok n    =>
      if n < least then .error (.tooSmall least)
      else if greatest < n then .error (.tooLarge greatest)
      else .ok n

/-- The double nearest to a whole number that is not too large for one. -/
def floatOfInt (n : Int) : Except Problem Float :=
  let r := Decimal.rank ⟨n.natAbs, 0⟩
  if r = Binary64.infinityRank then .error .notNumber
  else .ok (Binary64.ofRank (decide (n < 0)) r)

/-- A number. -/
def float : Datum → Except Problem Float
  | .float x    => .ok x
  | .int n      => floatOfInt n
  | .bool true  => .ok 1
  | .bool false => .ok 0
  | .text s     =>
      match floatOfText s.toList with
      | some x => .ok x
      | none   => .error .unreadableNumber
  | .foreign v => v.float
  | _          => .error .notNumber

/-- A text. -/
def text : Datum → Except Problem String
  | .text s    => .ok s
  | .foreign v => v.text
  | _          => .error .notText

/-- One of some named choices, by its exact name. -/
def oneOf {α : Type} (choices : List (String × α)) (d : Datum) : Except Problem α :=
  match text d with
  | .ok s    => ((choices.lookup s).map .ok).getD (.error (.notAmong (choices.map (·.1))))
  | .error _ => .error (.notAmong (choices.map (·.1)))

/-- What `accept` accepts, or nothing. -/
def orNull {α : Type} (accept : Datum → Except Problem α) : Datum → Except Problem (Option α)
  | .null => .ok none
  | d     => (accept d).map some

/-- The value of a field that is given, as `accept` reads it. -/
def given {α : Type} (accept : Datum → Except Problem α) (field : String) (d : Datum) :
    Except Complaint α :=
  (accept d).mapError fun p => ⟨field, p, d⟩

/-- The value of a field that must be given. -/
def required {α : Type} (es : Entries) (accept : Datum → Except Problem α) (field : String) :
    Except Complaint α :=
  match es.get? field with
  | some d => given accept field d
  | none   => .error ⟨field, .missing, .table es⟩

/-- The value of a field that need not be given. -/
def withDefault {α : Type} (es : Entries) (accept : Datum → Except Problem α) (field : String)
    (default : α) : Except Complaint α :=
  match es.get? field with
  | some d => given accept field d
  | none   => .ok default

/-- The complaint about a field, if there is one. -/
def complaintOf {α : Type} : Except Complaint α → List Complaint
  | .ok _    => []
  | .error c => [c]

/-- The complaints about fields a record does not have. -/
def unknownFields (known : List String) (es : Entries) : List Complaint :=
  es.filterMap fun e => if known.contains e.1 then none else some ⟨e.1, .unknownField, e.2⟩

end Abacus.Fields
