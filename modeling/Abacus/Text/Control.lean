/-!
# Text — control sequences

A terminal takes an escape character, a bracket, some parameters and a letter for an order: to
change the colour, to move the cursor.  `plain` is a text without such sequences, and any other
escape character stays what it is.
-/

namespace Abacus.Text

/-- The characters between the bracket and the letter. -/
def isParameter (c : Char) : Bool := c.isDigit || c == ';' || c == '?'

/-- The length of the control sequence that a text begins with, zero if it begins with none. -/
def controlLength : List Char → Nat
  | '\x1b' :: '[' :: r =>
      if (r.dropWhile isParameter).head?.any Char.isAlpha then
        (r.takeWhile isParameter).length + 3
      else 0
  | _ => 0

/-- A text without its first `n` characters and without the control sequences after them. -/
def dropControls : Nat → List Char → List Char
  | n + 1, _ :: r => dropControls n r
  | 0,     c :: r =>
      match controlLength (c :: r) with
      | 0     => c :: dropControls 0 r
      | n + 1 => dropControls n r
  | _,     []     => []

/-- A text without its control sequences. -/
def plain (s : String) : String := String.ofList (dropControls 0 s.toList)

end Abacus.Text
