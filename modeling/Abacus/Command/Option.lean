/-!
# Command — options on a command line

An option is written `--name`, or `-n` if it has a short name.  Its value, if it takes one, is
the next argument, or stands after `=` in the long form and right behind the short one.  Short
options may share one dash.  What does not begin with a dash is an operand, and so is a dash
alone; `--` ends the options.
-/

namespace Abacus.Command

/-- Everything that can be an option. -/
inductive Flag where
  | help
  | version
  | verbose
  | strict
  | lenient
  | basic
  | precision
  | config
  deriving Repr, DecidableEq

namespace Flag

def name : Flag → String
  | .help      => "--help"
  | .version   => "--version"
  | .verbose   => "--verbose"
  | .strict    => "--strict"
  | .lenient   => "--lenient"
  | .basic     => "--basic"
  | .precision => "--precision"
  | .config    => "--config"

def short? : Flag → Option Char
  | .verbose   => some 'v'
  | .precision => some 'p'
  | .config    => some 'c'
  | _          => none

def takesValue : Flag → Bool
  | .precision | .config => true
  | _                    => false

end Flag

/-- An option and its value, empty where it takes none. -/
abbrev Given := Flag × String

/-- The options behind one dash, and the last one of them if its value is still to come. -/
def readShorts (flags : List Flag) : List Char → Option (List Given × Option Flag)
  | []      => some ([], none)
  | c :: cs => do
      let f ← flags.find? (·.short? == some c)
      if f.takesValue then
        if cs.isEmpty then some ([], some f) else some ([(f, String.ofList cs)], none)
      else (readShorts flags cs).map fun p => ((f, "") :: p.1, p.2)

/-- An argument up to its first `=`, and what follows that. -/
def splitValue (arg : String) : String × Option String :=
  let cs := arg.toList
  (String.ofList (cs.takeWhile (· != '=')),
    match cs.dropWhile (· != '=') with
    | _ :: v => some (String.ofList v)
    | []     => none)

/-- The options in an argument that begins with a dash, and the last one of them if its value is
still to come. -/
def readOption (flags : List Flag) (arg : String) : Option (List Given × Option Flag) :=
  let (name, value?) := splitValue arg
  match flags.find? (·.name == name) with
  | some f =>
      match f.takesValue, value? with
      | true,  some v => some ([(f, v)], none)
      | true,  none   => some ([], some f)
      | false, some _ => none
      | false, none   => some ([(f, "")], none)
  | none => if arg.startsWith "--" then none else readShorts flags (arg.toList.drop 1)

/-- Whether an argument is read as an option. -/
def isOption (arg : String) : Bool := arg.startsWith "-" && arg != "-"

/-- The options and operands among some arguments, both in order.  `pending` is an option that
waits for its value.  Unless options and operands are `mixed`, the first operand ends the
options. -/
def scan (flags : List Flag) (mixed : Bool) :
    Option Flag → List String → Option (List Given × List String)
  | some _, []        => none
  | some f, a :: args => (scan flags mixed none args).map fun p => ((f, a) :: p.1, p.2)
  | none,   []        => some ([], [])
  | none,   a :: args =>
      if a == "--" then some ([], args)
      else if isOption a then do
        let (given, pending) ← readOption flags a
        (scan flags mixed pending args).map fun p => (given ++ p.1, p.2)
      else if mixed then (scan flags mixed none args).map fun p => (p.1, a :: p.2)
      else some ([], a :: args)

end Abacus.Command
