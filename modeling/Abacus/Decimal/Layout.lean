import Abacus.Decimal.Shortest
import Abacus.Decimal.Significant

/-!
# Decimal — how numbers are written

One layout serves every number: digits in their places while the exponent of the first digit is
at least `-4` and below a limit, and otherwise one digit, a point, the rest, and an exponent with
a sign and at least two digits.

* `exactText`: the fewest digits that read back, in their places below `10^16`, with `.0` after a
  whole number (`14.0`, `1e+16`, `-0.0`).
* `numberText`: the same without `.0` at the end (`14`, `1e+16`, `-0`).
* `valueText`: a given number of significant digits, in their places while that many suffice.
-/

namespace Abacus

/-- The digits of a whole number, first to last. -/
def digitChars (n : Nat) : List Char := Nat.toDigits 10 n

namespace Decimal

/-- Digits in their places, the first one at `10^x`. -/
def positional (ds : List Char) (x : Int) : List Char :=
  if x < 0 then '0' :: '.' :: (List.replicate ((-x).toNat - 1) '0' ++ ds)
  else if ds.length ≤ x.toNat + 1 then ds ++ List.replicate (x.toNat + 1 - ds.length) '0'
  else ds.take (x.toNat + 1) ++ '.' :: ds.drop (x.toNat + 1)

/-- The sign of an exponent and at least two digits. -/
def exponentChars (x : Int) : List Char :=
  let ds := digitChars x.natAbs
  (if x < 0 then '-' else '+') :: (if ds.length < 2 then '0' :: ds else ds)

/-- One digit before the point, the others after it, and the exponent of the first. -/
def scientific (ds : List Char) (x : Int) : List Char :=
  match ds with
  | []      => []
  | [d]     => d :: 'e' :: exponentChars x
  | d :: ds => d :: '.' :: (ds ++ 'e' :: exponentChars x)

/-- A trimmed decimal: in its places while its first digit is between `10^-4` and `10^limit`. -/
def chars (limit : Int) (d : Decimal) : List Char :=
  if -4 ≤ d.leading ∧ d.leading < limit then positional (digitChars d.digits) d.leading
  else scientific (digitChars d.digits) d.leading

end Decimal

/-- A double, its finite non-zero magnitudes written by `write`. -/
def signedChars (write : Nat → List Char) (x : Float) : List Char :=
  let n := Binary64.rank x
  if Binary64.infinityRank < n then ['n', 'a', 'n']
  else
    let magnitude := if n = Binary64.infinityRank then ['i', 'n', 'f'] else
      if n = 0 then ['0'] else write n
    if Binary64.isNegative x then '-' :: magnitude else magnitude

/-- The fewest digits that read back, in their places below `10^16`. -/
def shortestChars (x : Float) : List Char := signedChars (fun n => (Decimal.shortest n).chars 16) x

/-- The exact text of a number: the fewest digits that read back, with `.0` after a whole number in
its places. -/
def exactText (x : Float) : String :=
  let cs := shortestChars x
  if cs.all fun c => c.isDigit || c == '-' then String.ofList (cs ++ ['.', '0'])
  else String.ofList cs

/-- A text without `.0` at its end. -/
def dropPoint (s : String) : String :=
  if ['.', '0'] <:+ s.toList then String.ofList (s.toList.take (s.toList.length - 2)) else s

/-- The text of a number: the exact one without `.0` at its end. -/
def numberText (x : Float) : String := dropPoint (exactText x)

@[inherit_doc numberText]
def numberChars (x : Float) : List Char := (numberText x).toList

/-- `p` significant digits, at least one, in their places while the first is below `10^p`.  No
double has eight hundred significant digits, so asking for more changes nothing. -/
def valueChars (p : Nat) (x : Float) : List Char :=
  let p := max p 1
  signedChars
    (fun n => (Decimal.significant (min p 800) (Binary64.units n) Binary64.unitsPerOne).chars p) x

/-- Why a number cannot be written to a given precision. -/
inductive PrecisionError where
  | negative
  | tooLarge
  | tooLong
  deriving Repr, DecidableEq

/-- The wording of a precision's refusal. -/
def PrecisionError.message : PrecisionError → String
  | .negative => "Format specifier missing precision"
  | .tooLarge => "precision too big"
  | .tooLong  => "Too many decimal digits in format string"

/-- A value to `precision` significant digits; zero acts as one, and what is below zero or beyond
a machine word is refused. -/
def valueText (x : Float) (precision : Int) : Except PrecisionError String :=
  if precision < 0 then .error .negative
  else if 0x8000000000000000 ≤ precision then .error .tooLong
  else if 0x80000000 ≤ precision then .error .tooLarge
  else .ok (String.ofList (valueChars precision.toNat x))

end Abacus
