import Abacus.Data.Moment
import Abacus.Toml.Text

/-!
# Toml — days and times

    day    = YYYY "-" MM "-" DD
    clock  = HH ":" MM ":" SS ["." digits]
    moment = day [("T" | "t" | " ") clock ["Z" | "z" | ("+" | "-") HH ":" MM]] | clock

Six digits after the point count, the others are dropped.
-/

namespace Abacus.Toml
open Data

/-- A number of exactly `n` digits. -/
def fixed (n : Nat) (s : List Char) : Option (Nat × List Char) := do
  let ds := s.take n
  if ds.length = n ∧ ds.all Char.isDigit then
    some (ds.foldl (fun v c => 10 * v + (c.toNat - '0'.toNat)) 0, s.drop n)
  else none

/-- What follows a character. -/
def skipChar (c : Char) : List Char → Option (List Char)
  | d :: r => if c == d then some r else none
  | []     => none

/-- A day of the calendar. -/
def day (s : List Char) : Option (Day × List Char) := do
  let (year, r) ← fixed 4 s
  let (month, r) ← fixed 2 (← skipChar '-' r)
  let (day, r) ← fixed 2 (← skipChar '-' r)
  if Day.isValid ⟨year, month, day⟩ then some (⟨year, month, day⟩, r) else none

/-- An hour and a minute. -/
def hourMinute (s : List Char) : Option (Nat × Nat × List Char) := do
  let (hour, r) ← fixed 2 s
  let (minute, r) ← fixed 2 (← skipChar ':' r)
  if hour < 24 ∧ minute < 60 then some (hour, minute, r) else none

/-- Millionths of a second, zero with nothing read when no point and digit come first. -/
def micros (s : List Char) : Nat × List Char :=
  match s with
  | '.' :: r =>
      match r.takeWhile Char.isDigit with
      | [] => (0, s)
      | ds =>
          let six := (ds ++ List.replicate 6 '0').take 6
          (six.foldl (fun v c => 10 * v + (c.toNat - '0'.toNat)) 0, r.dropWhile Char.isDigit)
  | _ => (0, s)

/-- A time of day. -/
def clock (s : List Char) : Option (Clock × List Char) := do
  let (hour, minute, r) ← hourMinute s
  let (second, r) ← fixed 2 (← skipChar ':' r)
  let (micro, r) := micros r
  if second < 60 then some (⟨hour, minute, second, micro⟩, r) else none

/-- How many minutes ahead of universal time, if that is said. -/
def zone (s : List Char) : Option Int × List Char :=
  match s with
  | c :: r =>
      if c == 'Z' || c == 'z' then (some 0, r)
      else if c == '+' || c == '-' then
        match hourMinute r with
        | some (hour, minute, r) =>
            let ahead : Int := 60 * hour + minute
            (some (if c == '-' then -ahead else ahead), r)
        | none => (none, s)
      else (none, s)
  | [] => (none, [])

/-- What may stand between a day and a time. -/
def isJoint (c : Char) : Bool := c == 'T' || c == 't' || c == ' '

/-- A day, a time, or both. -/
def moment (s : List Char) : Option (Moment × List Char) :=
  match day s with
  | none        => (clock s).map fun p => (.clock p.1, p.2)
  | some (d, r) =>
      match r.head?.filter isJoint, clock (r.drop 1) with
      | some _, some (c, r) => let (ahead, r) := zone r; some (.both d c ahead, r)
      | _,      _           => some (.day d, r)

end Abacus.Toml
