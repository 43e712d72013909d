import Abacus.Data.Datum

/-!
# Toml — tables under construction

A document fills its tables line by line, and a table may be come upon in several ways.  A header
opens a table, `[[…]]` begins a further table of an array, and a dotted key passes through tables,
making those that are missing.  A table can be opened once, and dotted keys may pass only through
tables that no section before the present one opened or passed through.  Values that are written
out, inline tables and arrays included, are never added to.

Sections are numbered from zero, each header beginning the next one, and a table remembers the
section that opened it or passed through it.
-/

namespace Abacus.Toml
open Data

/-- What stands behind a key: a value, a table, or an array of tables, complete but for the
last. -/
inductive Node where
  | value (d : Datum)
  | table (section? : Option Nat) (nodes : List (String × Node))
  | tables (complete : List (List (String × Node))) (last : List (String × Node))

/-- The content of a table. -/
abbrev Nodes := List (String × Node)

namespace Nodes

/-- The content with a key added. -/
def add (ns : Nodes) (key : String) (n : Node) : Nodes := ns ++ [(key, n)]

/-- The content with another node behind a key it has. -/
def replace (ns : Nodes) (key : String) (n : Node) : Nodes :=
  ns.map fun p => if p.1 == key then (key, n) else p

/-- Changes the content of the table at a path.  Missing tables are made, and an array of tables
stands for its last one. -/
def within (f : Nodes → Option Nodes) : List String → Nodes → Option Nodes
  | [],      ns => f ns
  | k :: ks, ns =>
      match ns.lookup k with
      | none                => (within f ks []).map fun m => ns.add k (.table none m)
      | some (.table n m)   => (within f ks m).map fun m => ns.replace k (.table n m)
      | some (.tables ts m) => (within f ks m).map fun m => ns.replace k (.tables ts m)
      | some (.value _)     => none

/-- Opens the table behind a key, in a section. -/
def openTable (sec : Nat) (key : String) (ns : Nodes) : Option Nodes :=
  match ns.lookup key with
  | none                 => some (ns.add key (.table (some sec) []))
  | some (.table none m) => some (ns.replace key (.table (some sec) m))
  | some _               => none

/-- Begins a further table of the array behind a key. -/
def openNext (key : String) (ns : Nodes) : Option Nodes :=
  match ns.lookup key with
  | none                => some (ns.add key (.tables [] []))
  | some (.tables ts m) => some (ns.replace key (.tables (ts ++ [m]) []))
  | some _              => none

/-- Puts a value behind a dotted key that has none, in a section. -/
def assign (sec : Nat) (d : Datum) : List String → Nodes → Option Nodes
  | [],      _  => none
  | [k],     ns => if (ns.lookup k).isNone then some (ns.add k (.value d)) else none
  | k :: ks, ns =>
      match ns.lookup k with
      | none              => (assign sec d ks []).map fun m => ns.add k (.table (some sec) m)
      | some (.table n m) =>
          if n = none ∨ n = some sec then
            (assign sec d ks m).map fun m => ns.replace k (.table (some sec) m)
          else none
      | some _ => none

end Nodes

mutual

/-- A finished node as a value. -/
def Node.toDatum : Node → Datum
  | .value d     => d
  | .table _ ns  => .table (entriesOf ns)
  | .tables ts m => .list (tablesOf ts ++ [.table (entriesOf m)])

/-- The entries of a finished table. -/
def entriesOf : List (String × Node) → List (String × Datum)
  | []           => []
  | (k, n) :: ns => (k, n.toDatum) :: entriesOf ns

/-- Finished tables as values. -/
def tablesOf : List (List (String × Node)) → List Datum
  | []      => []
  | t :: ts => .table (entriesOf t) :: tablesOf ts

end

end Abacus.Toml
