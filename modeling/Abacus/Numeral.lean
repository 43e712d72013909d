import Abacus.Text.Digit
import Abacus.Decimal.Layout

/-!
# Numerals — the literals of the expression language

    numeral  = ["+"] mantissa [exponent]
    mantissa = digits ["." [digits]] | "." digits
    exponent = ("e" | "E") ["+" | "-"] digits

with the digits of any script, in any mixture.  `Numeral.scan` reads the longest numeral a text
begins with: an exponent mark without digits after it is left unread, and so is a second point.
A numeral's value is an exact decimal (`Numeral.decimal`); `Numeral.value` is the double nearest
to it.
-/

namespace Abacus
open Text

/-- The digits before the point, those after it, and the exponent. -/
structure Numeral where
  whole : List Nat
  fraction : List Nat
  exponent : Int
  deriving Repr, DecidableEq

namespace Numeral

/-- The number that a row of digits writes. -/
def ofDigits (ds : List Nat) : Nat := ds.foldl (fun n d => 10 * n + d) 0

/-- The exact value of a numeral. -/
def decimal (n : Numeral) : Decimal :=
  ⟨ofDigits (n.whole ++ n.fraction), n.exponent - n.fraction.length⟩

/-- The double nearest to a numeral. -/
def value (n : Numeral) : Float := n.decimal.toFloat

/-- Digits with a point among them, after them, before them or nowhere. -/
def scanMantissa (s : List Char) : Option (List Nat × List Nat × List Char) :=
  match takeDigits s with
  | ([], '.' :: r) =>
      match takeDigits r with
      | ([], _)  => none
      | (fs, r') => some ([], fs, r')
  | ([], _)        => none
  | (ws, '.' :: r) => let (fs, r') := takeDigits r; some (ws, fs, r')
  | (ws, r)        => some (ws, [], r)

/-- Whether a minus sign stands first, and the text after the sign, if there is one. -/
def takeSign : List Char → Bool × List Char
  | '-' :: r => (true, r)
  | '+' :: r => (false, r)
  | r        => (false, r)

/-- The exponent after its mark: a sign, if there is one, and at least one digit. -/
def scanPower (s : List Char) : Option (Int × List Char) :=
  let (negative, r) := takeSign s
  match takeDigits r with
  | ([], _)  => none
  | (ds, r') => some (if negative then -(ofDigits ds : Int) else (ofDigits ds : Int), r')

/-- The exponent, zero with nothing read when there is none. -/
def scanExponent (s : List Char) : Int × List Char :=
  match s with
  | 'e' :: r => (scanPower r).getD (0, s)
  | 'E' :: r => (scanPower r).getD (0, s)
  | _        => (0, s)

/-- A numeral without sign. -/
def scanUnsigned (s : List Char) : Option (Numeral × List Char) :=
  match scanMantissa s with
  | none              => none
  | some (ws, fs, r) => let (x, r') := scanExponent r; some (⟨ws, fs, x⟩, r')

/-- The longest numeral at the beginning of a text, and the rest. -/
def scan (s : List Char) : Option (Numeral × List Char) :=
  match s with
  | '+' :: r => scanUnsigned r
  | _        => scanUnsigned s

/-! ### A scan shortens the text -/

theorem length_snd_takeDigits_le (s : List Char) : (takeDigits s).2.length ≤ s.length := by
  have := length_takeDigits s
  omega

theorem length_takeSign_le (s : List Char) : (takeSign s).2.length ≤ s.length := by
  unfold takeSign
  split <;> simp

theorem length_scanMantissa {s : List Char} {ws fs : List Nat} {r : List Char}
    (h : scanMantissa s = some (ws, fs, r)) : r.length < s.length := by
  have hs := length_takeDigits s
  unfold scanMantissa at h
  split at h
  · next r₁ e =>
      rw [e] at hs
      have hr := length_takeDigits r₁
      split at h
      · cases h
      · next hne e₁ =>
          cases h
          rw [e₁] at hr
          cases fs with
          | nil => exact (hne rfl).elim
          | cons d ds => simp only [List.length_cons, List.length_nil] at hs hr; omega
  · cases h
  · next ws' r₁ hne e =>
      rw [e] at hs
      have hr := length_takeDigits r₁
      cases h
      simp only [List.length_cons] at hs
      omega
  · next hne _ e =>
      cases h
      rw [e] at hs
      cases ws with
      | nil => exact (hne rfl).elim
      | cons d ds => simp only [List.length_cons] at hs; omega

theorem length_scanPower_le {s r : List Char} {x : Int} (h : scanPower s = some (x, r)) :
    r.length ≤ s.length := by
  have hs := length_takeSign_le s
  have hd := length_snd_takeDigits_le (takeSign s).2
  unfold scanPower at h
  simp only at h
  split at h
  · cases h
  · next e => cases h; rw [e] at hd; exact Nat.le_trans hd hs

theorem length_scanExponent_le (s : List Char) : (scanExponent s).2.length ≤ s.length := by
  unfold scanExponent
  split
  · next r =>
      cases h : scanPower r with
      | none => exact Nat.le_refl _
      | some p => exact Nat.le_succ_of_le (length_scanPower_le (x := p.1) h)
  · next r =>
      cases h : scanPower r with
      | none => exact Nat.le_refl _
      | some p => exact Nat.le_succ_of_le (length_scanPower_le (x := p.1) h)
  · exact Nat.le_refl _

theorem length_scanUnsigned {s : List Char} {n : Numeral} {r : List Char}
    (h : scanUnsigned s = some (n, r)) : r.length < s.length := by
  unfold scanUnsigned at h
  split at h
  · cases h
  · next ws fs r₁ e =>
      have hm := length_scanMantissa e
      have hx := length_scanExponent_le r₁
      cases h
      exact Nat.lt_of_le_of_lt hx hm

theorem length_scan {s : List Char} {n : Numeral} {r : List Char} (h : scan s = some (n, r)) :
    r.length < s.length := by
  unfold scan at h
  split at h
  · exact Nat.lt_succ_of_lt (length_scanUnsigned h)
  · exact length_scanUnsigned h

end Numeral

end Abacus
