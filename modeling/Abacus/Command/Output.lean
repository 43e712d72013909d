import Abacus.Text.Control

/-!
# Command — outputs

Lines are put on an output one after another.  A terminal takes them as they are.  Any other output
gets them without control sequences, which only expressions bring along.

An output has an encoding, and the encoding need not have every character.  A line that it does not
have is not written, and ends the command.  Expressions are texts here, so there is an encoding that
has them; what stands on a command line and is no text is left out, and no encoding has it.
-/

namespace Abacus.Command

/-- Where lines are put. -/
structure Output where
  terminal : Bool := false
  encodes : Char → Bool := fun _ => true

namespace Output

/-- A text as it is put on an output. -/
def passed (out : Output) (s : String) : String := if out.terminal then s else Text.plain s

/-- Whether an output takes a text. -/
def takes (out : Output) (s : String) : Bool := (out.passed s).toList.all out.encodes

/-- What is written of lines, up to the first one that the output does not take. -/
def written (out : Output) (lines : List String) : String :=
  String.join (((lines.map (· ++ "\n")).takeWhile out.takes).map out.passed)

end Output

end Abacus.Command
