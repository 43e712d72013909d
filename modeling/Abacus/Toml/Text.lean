/-!
# Toml — blanks, comments, keys and strings

The pieces of a TOML document that are read character by character.  Every reader here takes a
text and gives what it read and the text after it; a text that breaks a rule of the format gives
`none`, wherever the fault is.  `fuel` bounds a reader's recursion, and the length of its text is
always enough.
-/

namespace Abacus.Toml

/-- Space and tab, the blanks within a line. -/
def isSpace (c : Char) : Bool := c == ' ' || c == '\t'

/-- A text without its leading blanks. -/
def skipSpaces (s : List Char) : List Char := s.dropWhile isSpace

/-- A text without its leading blanks and empty lines. -/
def skipLines (s : List Char) : List Char := s.dropWhile fun c => isSpace c || c == '\n'

/-- The characters that may not stand for themselves: all controls but the tab. -/
def isControl (c : Char) : Bool := (c.toNat < 0x20 && c != '\t') || c.toNat == 0x7F

/-- The controls of a text of several lines. -/
def isControlButLine (c : Char) : Bool := isControl c && c != '\n'

/-- What follows a comment, if one stands first: a line feed or nothing. -/
def skipComment : List Char → Option (List Char)
  | '#' :: r =>
      if (r.takeWhile (· != '\n')).any isControl then none else some (r.dropWhile (· != '\n'))
  | r => some r

/-- The value of a hexadecimal digit. -/
def hexValue? (c : Char) : Option Nat :=
  if c.isDigit then some (c.toNat - '0'.toNat)
  else if 'a' ≤ c ∧ c ≤ 'f' then some (c.toNat - 'a'.toNat + 10)
  else if 'A' ≤ c ∧ c ≤ 'F' then some (c.toNat - 'A'.toNat + 10)
  else none

/-- The character whose code point is written in exactly `n` hexadecimal digits. -/
def codePoint (n : Nat) (s : List Char) : Option (Char × List Char) := do
  let ds ← (s.take n).mapM hexValue?
  let v := ds.foldl (fun v d => 16 * v + d) 0
  if ds.length = n ∧ v.isValidChar then some (Char.ofNat v, s.drop n) else none

/-- The character that a letter after a backslash stands for. -/
def escaped? : Char → Option Char
  | 'b'  => some '\x08'
  | 't'  => some '\t'
  | 'n'  => some '\n'
  | 'f'  => some '\x0c'
  | 'r'  => some '\r'
  | '"'  => some '"'
  | '\\' => some '\\'
  | _    => none

/-- What a backslash stands for, `s` being the text after it.  On several lines a backslash at
the end of a line stands for nothing, and the blanks and lines after it do not count. -/
def escape (lines : Bool) (s : List Char) : Option (List Char × List Char) :=
  match s with
  | 'u' :: r => (codePoint 4 r).map fun p => ([p.1], p.2)
  | 'U' :: r => (codePoint 8 r).map fun p => ([p.1], p.2)
  | c :: r   =>
      if lines && (isSpace c || c == '\n') then
        match skipSpaces s with
        | '\n' :: r' => some ([], skipLines r')
        | _          => none
      else (escaped? c).map fun d => ([d], r)
  | [] => none

/-- The inside of a string in double quotes, up to the one quote or, on several lines, the three
that end it. -/
def basicInside (lines : Bool) : Nat → List Char → Option (List Char × List Char)
  | 0,        _  => none
  | _ + 1,    [] => none
  | fuel + 1, '\\' :: r => do
      let (cs, r) ← escape lines r
      let (ds, r) ← basicInside lines fuel r
      some (cs ++ ds, r)
  | fuel + 1, '"' :: r =>
      if !lines then some ([], r)
      else match r with
        | '"' :: '"' :: r => some ([], r)
        | _               => (basicInside lines fuel r).map fun p => ('"' :: p.1, p.2)
  | fuel + 1, c :: r =>
      if isControl c && !(lines && c == '\n') then none
      else (basicInside lines fuel r).map fun p => (c :: p.1, p.2)

/-- The inside of a string in single quotes, on one line. -/
def literalInside (s : List Char) : Option (List Char × List Char) :=
  let inside := s.takeWhile (· != '\'')
  match s.dropWhile (· != '\'') with
  | _ :: r => if inside.any isControl then none else some (inside, r)
  | []     => none

/-- The inside of a string in three single quotes. -/
def literalLines : List Char → Option (List Char × List Char)
  | '\'' :: '\'' :: '\'' :: r => some ([], r)
  | c :: r =>
      if isControlButLine c then none else (literalLines r).map fun p => (c :: p.1, p.2)
  | [] => none

/-- At most two further quotes after a string of several lines belong to it. -/
def extraQuotes (quote : Char) (p : List Char × List Char) : List Char × List Char :=
  let extra := (p.2.take 2).takeWhile (· == quote)
  (p.1 ++ extra, p.2.drop extra.length)

/-- A text without the line feed that may begin a string of several lines. -/
def dropLine : List Char → List Char
  | '\n' :: r => r
  | r         => r

/-- A string on one line. -/
def lineString : List Char → Option (List Char × List Char)
  | '"' :: r  => basicInside false (r.length + 1) r
  | '\'' :: r => literalInside r
  | _         => none

/-- A string, on one line or on several. -/
def string : List Char → Option (List Char × List Char)
  | '"' :: '"' :: '"' :: r    =>
      (basicInside true (r.length + 1) (dropLine r)).map (extraQuotes '"')
  | '\'' :: '\'' :: '\'' :: r => (literalLines (dropLine r)).map (extraQuotes '\'')
  | s                         => lineString s

/-- The characters of a key without quotes. -/
def isBare (c : Char) : Bool := c.isAlphanum || c == '-' || c == '_'

/-- One part of a key. -/
def keyPart (s : List Char) : Option (String × List Char) :=
  match s.takeWhile isBare with
  | [] => (lineString s).map fun p => (String.ofList p.1, p.2)
  | cs => some (String.ofList cs, s.dropWhile isBare)

/-- The parts of a key, set apart by points, and the blanks after it. -/
def key : Nat → List Char → Option (List String × List Char)
  | 0,        _ => none
  | fuel + 1, s => do
      let (part, r) ← keyPart s
      match skipSpaces r with
      | '.' :: r => (key fuel (skipSpaces r)).map fun p => (part :: p.1, p.2)
      | r        => some ([part], r)

end Abacus.Toml
