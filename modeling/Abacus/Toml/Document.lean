import Abacus.Toml.Moment
import Abacus.Toml.Number
import Abacus.Toml.Table

/-!
# Toml — documents

`parse` reads a TOML document into the entries of its root table.  A document is a row of
statements, one a line: headers and keys with their values.  It is read whole or not at all, and
of several faults the first one counts.
-/

namespace Abacus.Toml
open Data

/-- Blanks, line feeds and comments, as many as there are. -/
def skipGaps : Nat → List Char → Option (List Char)
  | 0,        s => some s
  | fuel + 1, s =>
      match skipLines s with
      | '#' :: r => (skipComment ('#' :: r)).bind (skipGaps fuel)
      | r        => some r

/-- A string as a value. -/
def text (s : List Char) : Except Fault (Datum × List Char) :=
  wellFormed ((string s).map fun p => (.text (String.ofList p.1), p.2))

/-- A value without parts. -/
def scalar : List Char → Except Fault (Datum × List Char)
  | 't' :: 'r' :: 'u' :: 'e' :: r        => .ok (.bool true, r)
  | 'f' :: 'a' :: 'l' :: 's' :: 'e' :: r => .ok (.bool false, r)
  | '"' :: r  => text ('"' :: r)
  | '\'' :: r => text ('\'' :: r)
  | s         =>
      match moment s with
      | some (m, r) => .ok (.moment m, r)
      | none        => number s

mutual

/-- A value: an array, an inline table, or one without parts. -/
def value : Nat → List Char → Except Fault (Datum × List Char)
  | 0,        _        => .error .malformed
  | fuel + 1, '[' :: r => do
      match ← wellFormed (skipGaps r.length r) with
      | ']' :: r => .ok (.list [], r)
      | r        => (items fuel r).map fun p => (.list p.1, p.2)
  | fuel + 1, '\x7b' :: r =>
      match skipSpaces r with
      | '\x7d' :: r => .ok (.table [], r)
      | r           => (pairs fuel [] r).map fun p => (.table (entriesOf p.1), p.2)
  | _ + 1, s => scalar s

/-- The items of an array up to its end; a comma may follow the last one. -/
def items : Nat → List Char → Except Fault (List Datum × List Char)
  | 0,        _ => .error .malformed
  | fuel + 1, s => do
      let (d, r) ← value fuel s
      match ← wellFormed (skipGaps r.length r) with
      | ']' :: r => .ok ([d], r)
      | ',' :: r =>
          match ← wellFormed (skipGaps r.length r) with
          | ']' :: r => .ok ([d], r)
          | r        => (items fuel r).map fun p => (d :: p.1, p.2)
      | _ => .error .malformed

/-- The keys and values of an inline table up to its end, `ns` being those before. -/
def pairs : Nat → Nodes → List Char → Except Fault (Nodes × List Char)
  | 0,        _,  _ => .error .malformed
  | fuel + 1, ns, s => do
      let (path, r) ← wellFormed (key s.length s)
      let (d, r) ← value fuel (skipSpaces (← wellFormed (skipChar '=' r)))
      let ns ← wellFormed (ns.assign 0 d path)
      match skipSpaces r with
      | '\x7d' :: r => .ok (ns, r)
      | ',' :: r    => pairs fuel ns (skipSpaces r)
      | _           => .error .malformed

end

/-- A document so far: its content, and the path and number of the present section. -/
structure Draft where
  nodes : Nodes := []
  header : List String := []
  sec : Nat := 0

/-- Reads a header of an array of tables into a draft, what follows its two brackets. -/
def nextHeader (d : Draft) (s : List Char) : Option (Draft × List Char) := do
  let (path, r) ← key s.length (skipSpaces s)
  let r ← skipChar ']' (← skipChar ']' r)
  let last ← path.getLast?
  let ns ← d.nodes.within (Nodes.openNext last) path.dropLast
  some (⟨ns, path, d.sec + 1⟩, r)

/-- Reads a header of a table into a draft, what follows its bracket. -/
def tableHeader (d : Draft) (s : List Char) : Option (Draft × List Char) := do
  let (path, r) ← key s.length (skipSpaces s)
  let r ← skipChar ']' r
  let last ← path.getLast?
  let ns ← d.nodes.within (Nodes.openTable (d.sec + 1) last) path.dropLast
  some (⟨ns, path, d.sec + 1⟩, r)

/-- Reads a key and its value into a draft. -/
def assignment (d : Draft) (s : List Char) : Except Fault (Draft × List Char) := do
  let (path, r) ← wellFormed (key s.length s)
  let r := skipSpaces (← wellFormed (skipChar '=' r))
  let (v, r) ← value (2 * r.length + 2) r
  let ns ← wellFormed (d.nodes.within (Nodes.assign d.sec v path) d.header)
  .ok ({ d with nodes := ns }, r)

/-- Reads one statement into a draft; of a comment nothing is read. -/
def statement (d : Draft) (s : List Char) : Except Fault (Draft × List Char) :=
  match s with
  | '#' :: _        => .ok (d, s)
  | '[' :: '[' :: r => wellFormed (nextHeader d r)
  | '[' :: r        => wellFormed (tableHeader d r)
  | _               => assignment d s

/-- Reads the lines of a document into a draft. -/
def statements : Nat → Draft → List Char → Except Fault Nodes
  | 0,        _, _ => .error .malformed
  | fuel + 1, d, s => do
      match skipSpaces s with
      | []        => .ok d.nodes
      | '\n' :: r => statements fuel d r
      | s         =>
          let (d, r) ← statement d s
          match ← wellFormed (skipComment (skipSpaces r)) with
          | []        => .ok d.nodes
          | '\n' :: r => statements fuel d r
          | _         => .error .malformed

/-- A text in which a line feed alone ends each line. -/
def unifyLines : List Char → List Char
  | '\r' :: '\n' :: r => '\n' :: unifyLines r
  | c :: r            => c :: unifyLines r
  | []                => []

/-- The entries of a document. -/
def parse (source : String) : Except Fault Entries :=
  let s := unifyLines source.toList
  (statements (s.length + 1) {} s).map entriesOf

end Abacus.Toml
