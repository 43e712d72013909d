/-!
# Data — whole numbers in decimal

A whole number is read from its digits and written in them only up to a number of digits.  Beyond
that both are refused, with a message that is no text of the calculator's own.
-/

namespace Abacus.Data

/-- The greatest number of decimal digits with which a whole number is read or written. -/
def maxDigits : Nat := 4300

/-- A whole number has no more digits than are written. -/
def Writable (n : Int) : Prop := n.natAbs < Nat.pow 10 maxDigits

instance (n : Int) : Decidable (Writable n) := inferInstanceAs (Decidable (_ < _))

theorem ten_le_pow {n : Nat} (h : n ≠ 0) : 10 ≤ Nat.pow 10 n := Nat.le_self_pow h 10

theorem ten_le_pow_maxDigits : 10 ≤ Nat.pow 10 maxDigits := ten_le_pow (by decide)

/-- A number of one digit can be written. -/
theorem writable_of_lt_ten {n : Int} (h : n.natAbs < 10) : Writable n :=
  Nat.lt_of_lt_of_le h ten_le_pow_maxDigits

/-- The least number that is written. -/
def leastWritable : Int := -((Nat.pow 10 maxDigits - 1 : Nat) : Int)

theorem writable_leastWritable : Writable leastWritable := by
  have hten := ten_le_pow_maxDigits
  rw [Writable, leastWritable, Int.natAbs_neg, Int.natAbs_natCast]
  omega

theorem not_writable_pred : ¬ Writable (leastWritable - 1) := by
  have hten := ten_le_pow_maxDigits
  rw [Writable, leastWritable]
  omega

theorem one_lt_maxDigits : 1 < maxDigits := by decide

-- Nothing is to be gained from working out the power of ten.
attribute [irreducible] maxDigits

/-- A whole number in decimal digits, unless they are too many. -/
def wholeLiteral? (n : Int) : Option String := if Writable n then some (toString n) else none

/-- The refusal to write a number, or to read one of so many digits. -/
def refusal (digits? : Option Nat) : String :=
  "Exceeds the limit (" ++ toString maxDigits ++ " digits) for integer string conversion" ++
    (match digits? with
      | some n => ": value has " ++ toString n ++ " digits"
      | none   => "") ++
    "; use sys.set_int_max_str_digits() to increase the limit"

end Abacus.Data
