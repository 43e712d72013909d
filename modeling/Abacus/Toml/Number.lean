import Abacus.Data.Datum
import Abacus.Numeral
import Abacus.Toml.Text

/-!
# Toml — numbers

    integer = [sign] whole | "0x" digits | "0o" digits | "0b" digits
    float   = [sign] whole ["." digits] [("e" | "E") [sign] digits] | [sign] ("inf" | "nan")

The digits are those of ASCII, with single underscores between them.  A whole part other than
zero does not begin with zero, and a number with neither fraction nor exponent is an integer.  An
integer in base ten may be well formed and still have too many digits to be read.
-/

namespace Abacus.Toml
open Data

/-- Why a document is not read. -/
inductive Fault where
  | malformed
  | oversized (digits : Nat)
  deriving Repr, DecidableEq

/-- What was read; nothing else than the form of the text can be at fault. -/
def wellFormed {α : Type} : Option α → Except Fault α
  | some a => .ok a
  | none   => .error .malformed

/-- The value of a digit of a base. -/
def digit? (base : Nat) (c : Char) : Option Nat := (hexValue? c).filter (· < base)

/-- Digits that follow a digit, perhaps with an underscore before each. -/
def moreDigits (base : Nat) : List Char → List Nat × List Char
  | '_' :: c :: r =>
      match digit? base c with
      | some d => let (ds, r) := moreDigits base r; (d :: ds, r)
      | none   => ([], '_' :: c :: r)
  | c :: r =>
      match digit? base c with
      | some d => let (ds, r) := moreDigits base r; (d :: ds, r)
      | none   => ([], c :: r)
  | [] => ([], [])

/-- A row of digits, at least one. -/
def digits (base : Nat) : List Char → Option (List Nat × List Char)
  | c :: r => (digit? base c).map fun d => let (ds, r) := moreDigits base r; (d :: ds, r)
  | []     => none

/-- The number that a row of digits writes. -/
def ofDigits (base : Nat) (ds : List Nat) : Nat := ds.foldl (fun n d => base * n + d) 0

/-- A whole part. -/
def whole : List Char → Option (List Nat × List Char)
  | '0' :: r => some ([0], r)
  | s        => digits 10 s

/-- A fraction; none has no digits. -/
def fraction : List Char → List Nat × List Char
  | '.' :: r => (digits 10 r).getD ([], '.' :: r)
  | s        => ([], s)

/-- An exponent, if there is one. -/
def power (s : List Char) : Option Int × List Char :=
  match s with
  | c :: r =>
      if c == 'e' || c == 'E' then
        let (negative, r) := Numeral.takeSign r
        match digits 10 r with
        | some (ds, r) =>
            (some (if negative then -(ofDigits 10 ds : Int) else (ofDigits 10 ds : Int)), r)
        | none => (none, s)
      else (none, s)
  | [] => (none, [])

/-- An integer in base sixteen, eight or two. -/
def based : List Char → Option (Datum × List Char)
  | '0' :: 'x' :: r => (digits 16 r).map fun p => (.int (ofDigits 16 p.1), p.2)
  | '0' :: 'o' :: r => (digits 8 r).map fun p => (.int (ofDigits 8 p.1), p.2)
  | '0' :: 'b' :: r => (digits 2 r).map fun p => (.int (ofDigits 2 p.1), p.2)
  | _               => none

/-- An integer in base ten, or a float written in digits. -/
def decimal (s : List Char) : Except Fault (Datum × List Char) := do
  let (negative, r) := Numeral.takeSign s
  let (ws, r) ← wellFormed (whole r)
  let (fs, r) := fraction r
  match fs, power r with
  | [], (none, r) =>
      if maxDigits < ws.length then .error (.oversized ws.length)
      else
        let n : Int := ofDigits 10 ws
        .ok (.int (if negative then -n else n), r)
  | fs, (x, r) =>
      let v := Numeral.value ⟨ws, fs, x.getD 0⟩
      .ok (.float (if negative then -v else v), r)

/-- A float written as a word. -/
def word (s : List Char) : Option (Datum × List Char) :=
  let (negative, r) := Numeral.takeSign s
  match r with
  | 'i' :: 'n' :: 'f' :: r => some (.float (Binary64.infinity negative), r)
  | 'n' :: 'a' :: 'n' :: r => some (.float Binary64.notNumber, r)
  | _                      => none

/-- A number. -/
def number (s : List Char) : Except Fault (Datum × List Char) :=
  match based s <|> word s with
  | some p => .ok p
  | none   => decimal s

end Abacus.Toml
