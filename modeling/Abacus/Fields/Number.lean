import Abacus.Numeral
import Abacus.Text.Space

/-!
# Fields — numbers given as texts

A field that holds a number may be given a text.  `plainInt` and `plainFloat` read a number that is
written exactly as it is to be; `intOfText` and `floatOfText` are lenient.  For a whole number white
space around it, a plus sign, leading zeros, a point with only zeros after it and single underscores
do not count; for any number white space or single underscores do not.  Decimals may have an
exponent, and there are words for infinity and for what is no number.  Only the digits of ASCII are
read, and no whole number longer than `maxLength`.

These too are rules of the package that validates records.  Nothing that is proved of settings rests
on which texts they read.
-/

namespace Abacus.Fields
open Text

/-- The greatest length of a whole number, its sign counted. -/
def maxLength : Nat := 4300

/-- A text without its underscores, when there is one at neither end and no two stand
together. -/
def dropUnderscores (s : List Char) : Option (List Char) :=
  if s.head? = some '_' ∨ s.getLast? = some '_' ∨ (s.zip (s.drop 1)).contains ('_', '_') then none
  else some (s.filter (· != '_'))

/-- A text up to a point that zeros follow, at least one, and nothing else. -/
def dropZeroFraction (s : List Char) : List Char :=
  match s.dropWhile (· != '.') with
  | _ :: '0' :: r => if r.all (· == '0') then s.takeWhile (· != '.') else s
  | _             => s

/-- A text of digits without leading zeros, one zero left where nothing else is.  An underscore
counts as a zero, except at the beginning, and a minus sign may follow the zeros; what does not
begin with a digit is refused. -/
def dropZeros (s : List Char) : Option (List Char) :=
  match s with
  | '0' :: r =>
      match r.dropWhile fun c => c == '0' || c == '_' with
      | []     => s.getLast?.map fun c => [c]
      | c :: t =>
          if c == '.' then
            some ((s.take (s.length - (c :: t).length)).getLast?.toList ++ c :: t)
          else if c.isDigit || c == '-' then some (c :: t)
          else none
  | c :: _ => if c.isDigit then some s else none
  | []     => none

/-- The value of a row of digits, at least one, that begins with a zero only if it is one. -/
def natOfDigits (s : List Char) : Option Nat :=
  if s ≠ [] ∧ s.all Char.isDigit ∧ (s.head? = some '0' → s = ['0']) then
    some (s.foldl (fun n c => 10 * n + (c.toNat - '0'.toNat)) 0)
  else none

/-- A whole number, exactly as it is to be written. -/
def plainInt (s : List Char) : Option Int :=
  if maxLength < s.length then none
  else
    match s with
    | '-' :: r => (natOfDigits r).map fun n => -(n : Int)
    | r        => (natOfDigits r).map fun n => (n : Int)

/-- Does a text begin with a whole number, without sign or with a minus sign, that is too long? -/
def isOverlong (s : List Char) : Bool :=
  match s with
  | '0' :: _ | '-' :: '0' :: _ => false
  | '-' :: r => decide (maxLength ≤ (r.takeWhile Char.isDigit).length)
  | r        => decide (maxLength < (r.takeWhile Char.isDigit).length)

/-- A whole number without sign in its plain form.  What comes after leading zeros is kept, even a
minus sign. -/
def plainDigits (s : List Char) : Option (List Char) := do
  dropUnderscores (dropZeroFraction (← dropZeros s))

/-- A whole number.  A plus sign is dropped, and a minus sign stands before the plain digits. -/
def intOfText (s : List Char) : Option Int :=
  match trim isWhite s with
  | '+' :: r => (plainDigits r).bind plainInt
  | '-' :: r => (plainDigits r).bind fun ds => plainInt ('-' :: ds)
  | r        => (plainDigits r).bind plainInt

/-- The words for a magnitude that is not finite. -/
def wordValue? (s : List Char) : Option Float :=
  let w := String.ofList (s.map Char.toLower)
  if w == "inf" || w == "infinity" then some (Binary64.infinity false)
  else if w == "nan" then some Binary64.notNumber
  else none

/-- The value of a decimal that takes up all of a text. -/
def decimalValue? (s : List Char) : Option Float :=
  if s.all fun c => c.toNat < 0x80 then
    match Numeral.scanUnsigned s with
    | some (n, []) => some n.value
    | _            => none
  else none

/-- A number, exactly as it is to be written. -/
def plainFloat (s : List Char) : Option Float :=
  let (negative, r) := Numeral.takeSign s
  (wordValue? r <|> decimalValue? r).map fun v => if negative then -v else v

/-- A number. -/
def floatOfText (s : List Char) : Option Float :=
  plainFloat (trim isWhite s) <|> (dropUnderscores s).bind plainFloat

end Abacus.Fields
