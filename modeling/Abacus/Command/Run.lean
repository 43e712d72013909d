import Abacus.Command.Event
import Abacus.Command.Output
import Abacus.Command.Request
import Abacus.Expr.Traversal
import Abacus.Samples
import Abacus.Settings.Load
import Abacus.Settings.Path

/-!
# Command — what the commands do

A command writes lines, reports events and ends with an exit code: zero, or one when an
expression or the configuration failed.  `eval` goes on after a failure, and writes for each
expression what it would write for that one alone.
-/

namespace Abacus.Command
open Data

/-- What a command does: the exit code, the lines it puts on its output and the events. -/
structure Outcome where
  exit : Nat := 0
  lines : List String := []
  events : List Event := []

/-- What is left of a command: the exit code, and what stands on its output. -/
structure Printed where
  exit : Nat
  text : String
  deriving Repr, DecidableEq

/-- Puts the lines on an output.  One that the output does not take ends the command with exit
code one. -/
def Outcome.printed (out : Output) (o : Outcome) : Printed :=
  { exit := if o.lines.all fun l => out.takes (l ++ "\n") then o.exit else 1
    text := out.written o.lines }

/-- The line of a message. -/
def errorLine (message : String) : String := "Error: " ++ message

/-- The line of a calculation.  Within the bounds of settings every precision can be shown. -/
def resultLine (precision : Int) (c : Calculation) : String :=
  match c.render precision with
  | .ok s    => s
  | .error e => errorLine e.message

/-- The values of expressions. -/
def evalAll (s : Settings) (sources : List String) : Outcome :=
  let records := sources.map fun t => Calculation.ofText t s.parsing
  let failures := records.countP fun c => !c.ok
  { exit := if failures = 0 then 0 else 1
    lines := records.map (resultLine s.precision)
    events := (sources.flatMap fun t => Event.ofSource t s.parsing) ++
      if failures = 0 then [] else [.failed failures sources.length] }

/-- The tree of an expression and its value. -/
def showTree (s : Settings) (source : String) : Outcome :=
  let events := Event.ofSource source s.parsing
  match Grammar.parse source s.parsing with
  | .error e => { exit := 1, lines := [errorLine (e.report source).text], events }
  | .ok t    =>
      let head := ["Tree:  " ++ t.render, "Depth: " ++ toString t.depth]
      match evaluate t with
      | .error e => { exit := 1, lines := head ++ [errorLine e.report.text], events }
      | .ok v    =>
          match valueText v s.precision with
          | .ok shown => { lines := head ++ ["Value: " ++ shown], events }
          | .error e  => { exit := 1, lines := head ++ [errorLine e.message], events }

/-- The example calculations. -/
def showDemo (precision : Int) : Outcome :=
  let line (c : Calculation) := "  " ++ resultLine precision c
  { lines := "Hand-built trees:" :: Samples.ofTrees.map line ++
      "" :: "Parsed expressions:" :: Samples.ofTexts.map line
    events := Samples.trees.flatMap (fun t => Event.ofEvaluation t.2) ++
      Samples.texts.flatMap fun t => Event.ofSource t {} }

namespace Choices

/-- The options that are changed by choices. -/
def toEntries (c : Choices) : Entries :=
  [("strict", match c.strict with | some b => .bool b | none => .null),
    ("extended", if c.basic then .bool false else .null),
    ("precision", match c.precision with | some n => .int n | none => .null)]

/-- The path of the configuration file, in a working directory. -/
def path (c : Choices) (directory : String) : String :=
  match c.config with
  | some p => Path.normal p
  | none   => Path.child directory Settings.fileName

/-- The settings that a configuration file and choices make. -/
def settings (words : String → String) (c : Choices) (path : String) (content : Content) :
    Except LoadError Settings :=
  match Settings.load words path content with
  | .error e => .error e
  | .ok s    => (s.change c.toEntries).mapError .config

/-- The event of loading a configuration file. -/
def events (words : String → String) (path : String) (content : Content) : List Event :=
  match content, Settings.load words path content with
  | .file _, .ok _ => [.loaded path]
  | _,       _     => []

/-- Goes on with the settings, or ends with what is wrong with the configuration. -/
def withSettings (words : String → String) (c : Choices) (path : String) (content : Content)
    (go : Settings → Outcome) : Except Unreadable Outcome :=
  let loading := events words path content
  match c.settings words path content with
  | .error (.unreadable why) => .error why
  | .error (.config e)       =>
      .ok { exit := 1, lines := [errorLine e.message], events := loading }
  | .ok s                    => let o := go s; .ok { o with events := loading ++ o.events }

end Choices

namespace Request

/-- The path of the file that a command reads, if it reads one. -/
def path? (directory : String) : Request → Option String
  | .eval _ c | .tree _ c => some (c.path directory)
  | .demo _               => none

/-- What a command does in a working directory, `content` being what stands at each path, and
`words` what is said of a text that is not TOML. -/
def run (words : String → String) (directory : String) (content : String → Content) :
    Request → Except Unreadable Outcome
  | .eval sources c =>
      let path := c.path directory
      c.withSettings words path (content path) fun s => evalAll s sources
  | .tree source c =>
      let path := c.path directory
      c.withSettings words path (content path) fun s => showTree s source
  | .demo precision => .ok (showDemo precision)

end Request

end Abacus.Command
