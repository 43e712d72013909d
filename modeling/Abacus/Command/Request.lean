import Abacus.Command.Option
import Abacus.Settings.Basic

/-!
# Command — what a command line asks for

    [-v] eval [options] EXPRESSION...     values of expressions
    [-v] tree [options] EXPRESSION        the tree of an expression, and its value
    [-v] demo [-p DIGITS]                 example calculations

Faults in how options are written are found before anything else.  Then a request for help or for
the version counts, whatever else is said, and only then whether values and operands are right.
-/

namespace Abacus.Command

/-- Options of the calculator given on the command line. -/
structure Choices where
  strict : Option Bool := none
  basic : Bool := false
  precision : Option Int := none
  config : Option String := none
  deriving Repr, DecidableEq

/-- A command with all it needs. -/
inductive Request where
  | eval (expressions : List String) (choices : Choices)
  | tree (expression : String) (choices : Choices)
  | demo (precision : Int)
  deriving Repr, DecidableEq

/-- What comes of reading a command line. -/
inductive Reading where
  | usage
  | help
  | version
  | run (verbose : Bool) (request : Request)
  deriving Repr, DecidableEq

/-- A number of digits to show, read and bounded as it is among the settings. -/
def digitCount (s : String) : Option Int := (Settings.precisionOf (.text s)).toOption

/-- The value of an option given last. -/
def lastValue (f : Flag) (given : List Given) : Option String :=
  (given.reverse.find? (·.1 == f)).map (·.2)

/-- Whether an option is given. -/
def has (f : Flag) (given : List Given) : Bool := given.any (·.1 == f)

/-- Which of two opposite options is given last. -/
def lastOf (yes no : Flag) (given : List Given) : Option Bool :=
  (given.reverse.find? fun g => g.1 == yes || g.1 == no).map (·.1 == yes)

/-- The precision asked for, if there is one; `none` for one that is not to be had. -/
def precisionOf (given : List Given) : Option (Option Int) :=
  match lastValue .precision given with
  | none   => some none
  | some s => (digitCount s).map some

/-- The choices that some options make. -/
def choicesOf (given : List Given) : Option Choices := do
  let precision ← precisionOf given
  some ⟨lastOf .strict .lenient given, has .basic given, precision, lastValue .config given⟩

/-- A command with its options and operands, or a request for help. -/
def command (flags : List Flag) (request : List Given → List String → Option Request)
    (verbose : Bool) (args : List String) : Reading :=
  match scan flags true none args with
  | none                   => .usage
  | some (given, operands) =>
      if has .help given then .help
      else match request given operands with
        | some r => .run verbose r
        | none   => .usage

/-- The values of expressions, at least one. -/
def evalRequest (given : List Given) (operands : List String) : Option Request := do
  let choices ← choicesOf given
  if operands.isEmpty then none else some (.eval operands choices)

/-- The tree of one expression. -/
def treeRequest (given : List Given) (operands : List String) : Option Request := do
  let choices ← choicesOf given
  match operands with
  | [expression] => some (.tree expression choices)
  | _            => none

/-- The examples. -/
def demoRequest (given : List Given) (operands : List String) : Option Request := do
  let precision ← precisionOf given
  if operands.isEmpty then some (.demo (precision.getD 6)) else none

/-- The command of a name. -/
def commandOf : String → Option (Bool → List String → Reading)
  | "eval" => some (command [.strict, .lenient, .basic, .precision, .config, .help] evalRequest)
  | "tree" => some (command [.strict, .lenient, .basic, .config, .help] treeRequest)
  | "demo" => some (command [.precision, .help] demoRequest)
  | _      => none

/-- The options before a command. -/
def leading : List Flag := [.version, .verbose, .help]

/-- A request for help or for the version, whichever comes first. -/
def eager (given : List Given) : Option Reading :=
  given.findSome? fun g =>
    match g.1 with
    | .help    => some .help
    | .version => some .version
    | _        => none

/-- What a command line asks for. -/
def Reading.ofArgs (args : List String) : Reading :=
  match scan leading false none args with
  | none            => .usage
  | some (given, r) =>
      match eager given, r with
      | some answer, _            => answer
      | none,        []           => .usage
      | none,        name :: args =>
          match commandOf name with
          | some read => read (has .verbose given) args
          -- In place of a command there may be further options, after `--`.
          | none      => ((scan leading false none r).bind fun p => eager p.1).getD .usage

end Abacus.Command
