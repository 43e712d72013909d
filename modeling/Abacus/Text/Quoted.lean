import Abacus.Text.Printable

/-!
# Text — quoted texts

A text between single quotes, or between double quotes when it holds single ones and no double
ones.  The quote in use and the backslash are escaped by a backslash, line feed, carriage return
and tab by their letters, and every other character that is not printable by its code point:
`\\xNN`, `\\uNNNN` or `\\UNNNNNNNN`, whichever is the shortest that holds it.
-/

namespace Abacus.Text

/-- A number in lower-case hexadecimal, filled up with zeros to a width. -/
def hexChars (width n : Nat) : List Char :=
  let ds := Nat.toDigits 16 n
  List.replicate (width - ds.length) '0' ++ ds

/-- The quote that a text is put between. -/
def quoteFor (s : List Char) : Char :=
  if s.contains '\'' && !s.contains '"' then '"' else '\''

/-- A character inside quotes. -/
def escape (quote c : Char) : List Char :=
  if c == quote || c == '\\' then ['\\', c]
  else if c == '\n' then ['\\', 'n']
  else if c == '\r' then ['\\', 'r']
  else if c == '\t' then ['\\', 't']
  else if isPrintable c then [c]
  else if c.toNat < 0x100 then '\\' :: 'x' :: hexChars 2 c.toNat
  else if c.toNat < 0x10000 then '\\' :: 'u' :: hexChars 4 c.toNat
  else '\\' :: 'U' :: hexChars 8 c.toNat

/-- A text with its quotes. -/
def quotedChars (s : List Char) : List Char :=
  let q := quoteFor s
  q :: (s.flatMap (escape q) ++ [q])

@[inherit_doc quotedChars]
def quoted (s : String) : String := String.ofList (quotedChars s.toList)

end Abacus.Text
