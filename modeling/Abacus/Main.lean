import Abacus.Command.Release
import Abacus.Command.Run

/-!
# Main — the command line

Reads the arguments, looks at the one file a command may need, and writes what the command
writes: lines to standard output and, when asked to be verbose, events to standard error.
-/

namespace Abacus.Command

/-- How to use the calculator. -/
def usage : List String :=
  ["Usage: treecalc [-v] COMMAND", "",
    "  eval [OPTIONS] EXPRESSION...  Parse and evaluate expressions.",
    "  tree [OPTIONS] EXPRESSION     Show the tree of an expression and its value.",
    "  demo [-p DIGITS]              Run the demonstration expressions.", "",
    "  --strict / --lenient   Reject or ignore what follows an expression.",
    "  --basic                Only accept '+', '*' and unary '-'.",
    "  -p, --precision DIGITS Significant digits of results, 1 to 17.",
    "  -c, --config PATH      Path of treecalc.toml.",
    "  -v, --verbose          Report what is done.",
    "  --version              Show the version.",
    "  --help                 Show this text."]

/-- What stands at a path. -/
def contentAt (path : String) : IO Content := do
  try
    return .file (← IO.FS.readBinFile path)
  catch
    | .noFileOrDirectory .. => return .absent
    | .inappropriateType .. => return .directory
    | _                     => return .inaccessible

/-- What is said of a text that is not TOML. -/
def refusalOf (_ : String) : String := "the document is malformed"

/-- Carries out a request. -/
def carryOut (verbose : Bool) (request : Request) : IO UInt32 := do
  let directory := toString (← IO.currentDir)
  let content ← match request.path? directory with
    | some path => contentAt path
    | none      => pure .absent
  match request.run refusalOf directory fun _ => content with
  | .error .inaccessible => IO.eprintln "the configuration file cannot be opened"; return 1
  | .error .directory => IO.eprintln "the configuration file is a directory"; return 1
  | .error .notUtf8   => IO.eprintln "the configuration file is not UTF-8"; return 1
  | .error (.oversized _) =>
      IO.eprintln "an integer in the configuration file has too many digits"; return 1
  | .ok o =>
      if verbose then o.events.forM fun e => IO.eprintln e.line
      let printed := o.printed { terminal := ← (← IO.getStdout).isTty }
      IO.print printed.text
      return printed.exit.toUInt32

/-- Answers a command line. -/
def answer (args : List String) : IO UInt32 :=
  match Reading.ofArgs args with
  | .usage               => do usage.forM fun l => IO.eprintln l; return 2
  | .help                => do usage.forM fun l => IO.println l; return 0
  | .version             => do IO.println ("treecalc " ++ release true); return 0
  | .run verbose request => carryOut verbose request

end Abacus.Command

def main (args : List String) : IO UInt32 := Abacus.Command.answer args
