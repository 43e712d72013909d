import Abacus.Numeral

/-!
# Numerals — the words of the language

Which texts are numerals, and what each of them writes, said without a scanner:
`Numeral.Writes w n` holds when all of `w` is one numeral and `n` its parts.
-/

namespace Abacus.Numeral
open Text

/-- A row of digits, with their values. -/
inductive Row : List Char → List Nat → Prop where
  | nil : Row [] []
  | cons {c : Char} {d : Nat} {w : List Char} {ds : List Nat} :
      digitValue? c = some d → Row w ds → Row (c :: w) (d :: ds)

/-- Digits before and after a point; without a point there is no fraction. -/
inductive Mantissa : List Char → List Nat → List Nat → Prop where
  | whole {w : List Char} {ws : List Nat} : Row w ws → ws ≠ [] → Mantissa w ws []
  | pointed {w v : List Char} {ws fs : List Nat} :
      Row w ws → Row v fs → ws ++ fs ≠ [] → Mantissa (w ++ '.' :: v) ws fs

/-- The letters before an exponent. -/
def isMark (c : Char) : Bool := c == 'e' || c == 'E'

/-- An exponent with its mark; no exponent is an exponent of zero. -/
inductive Power : List Char → Int → Prop where
  | none : Power [] 0
  | unsigned {c : Char} {w : List Char} {ds : List Nat} :
      isMark c = true → Row w ds → ds ≠ [] → Power (c :: w) (ofDigits ds)
  | plus {c : Char} {w : List Char} {ds : List Nat} :
      isMark c = true → Row w ds → ds ≠ [] → Power (c :: '+' :: w) (ofDigits ds)
  | minus {c : Char} {w : List Char} {ds : List Nat} :
      isMark c = true → Row w ds → ds ≠ [] → Power (c :: '-' :: w) (-(ofDigits ds : Int))

/-- The numeral that a word writes, a plus sign before it or not. -/
inductive Writes : List Char → Numeral → Prop where
  | unsigned {w v : List Char} {ws fs : List Nat} {x : Int} :
      Mantissa w ws fs → Power v x → Writes (w ++ v) ⟨ws, fs, x⟩
  | plus {w v : List Char} {ws fs : List Nat} {x : Int} :
      Mantissa w ws fs → Power v x → Writes ('+' :: (w ++ v)) ⟨ws, fs, x⟩

/-- A word of the language of numerals. -/
def Word (w : List Char) : Prop := ∃ n, Writes w n

end Abacus.Numeral
