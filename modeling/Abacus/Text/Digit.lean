/-!
# Text — decimal digits

The decimal digits of every script (Unicode 14, general category `Nd`).  A script's ten digits
stand in a row, so a table of its zeros (`zeros`) gives all of them, and the value of a digit is
its distance from its zero (`digitValue?`).
-/

namespace Abacus.Text

/-- The code points of the digit zero, script by script, in ascending order. -/
def zeros : List Nat :=
  [0x30, 0x660, 0x6F0, 0x7C0, 0x966, 0x9E6, 0xA66, 0xAE6,
   0xB66, 0xBE6, 0xC66, 0xCE6, 0xD66, 0xDE6, 0xE50, 0xED0,
   0xF20, 0x1040, 0x1090, 0x17E0, 0x1810, 0x1946, 0x19D0, 0x1A80,
   0x1A90, 0x1B50, 0x1BB0, 0x1C40, 0x1C50, 0xA620, 0xA8D0, 0xA900,
   0xA9D0, 0xA9F0, 0xAA50, 0xABF0, 0xFF10, 0x104A0, 0x10D30, 0x11066,
   0x110F0, 0x11136, 0x111D0, 0x112F0, 0x11450, 0x114D0, 0x11650, 0x116C0,
   0x11730, 0x118E0, 0x11950, 0x11C50, 0x11D50, 0x11DA0, 0x16A60, 0x16AC0,
   0x16B50, 0x1D7CE, 0x1D7D8, 0x1D7E2, 0x1D7EC, 0x1D7F6, 0x1E140, 0x1E2F0,
   0x1E950, 0x1FBF0]

/-- Distance of `n` from the last zero at or below it, when that is less than ten. -/
def digitAmong : List Nat → Nat → Option Nat
  | [],      _ => none
  | z :: zs, n => if n < z then none else if n < z + 10 then some (n - z) else digitAmong zs n

/-- The value of a decimal digit, of whatever script. -/
def digitValue? (c : Char) : Option Nat := digitAmong zeros c.toNat

/-- Decimal digits, and only they, have a value. -/
def isDigit (c : Char) : Bool := (digitValue? c).isSome

theorem digitAmong_lt : ∀ {zs : List Nat} {n d : Nat}, digitAmong zs n = some d → d < 10
  | [],      _, _, h => by simp [digitAmong] at h
  | z :: zs, n, d, h => by
      unfold digitAmong at h
      split at h
      · cases h
      · split at h
        · cases h; omega
        · exact digitAmong_lt h

theorem digitValue?_lt {c : Char} {d : Nat} (h : digitValue? c = some d) : d < 10 :=
  digitAmong_lt h

/-- The leading digits of a text, as values, and the rest. -/
def takeDigits : List Char → List Nat × List Char
  | []     => ([], [])
  | c :: s =>
      match digitValue? c with
      | some d => let (ds, r) := takeDigits s; (d :: ds, r)
      | none   => ([], c :: s)

theorem length_takeDigits : ∀ s : List Char,
    (takeDigits s).1.length + (takeDigits s).2.length = s.length
  | []     => rfl
  | c :: s => by
      unfold takeDigits
      split
      · have := length_takeDigits s
        simp only [List.length_cons]; omega
      · simp

end Abacus.Text
