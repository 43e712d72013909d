import Abacus.Calculation

/-!
# Command — events

What the calculator reports while it works, when it is asked to be verbose: one line for each
event, under the name of the part that it is from.
-/

namespace Abacus.Command

/-- What can be reported. -/
inductive Event where
  | loaded (path : String)
  | ignored (rest : List Char)
  | parsed (source : String) (tree : Expr)
  | zeroDivisor (quotient : Expr)
  | failed (failures total : Nat)

namespace Event

/-- The part that an event is from. -/
def part : Event → String
  | .loaded _               => "treecalc.core.config"
  | .ignored _ | .parsed .. => "treecalc.core.expression_lang.parser"
  | .zeroDivisor _          => "treecalc.core.expression_lang.evaluator"
  | .failed ..              => "treecalc.cli"

def text : Event → String
  | .loaded path     => "Loaded configuration from " ++ path
  | .ignored rest    => "Ignoring trailing input " ++ String.ofList (Text.quotedChars rest)
  | .parsed source t => "Parsed " ++ Text.quoted source ++ " as " ++ t.render
  | .zeroDivisor q   => "Division by zero in " ++ q.render
  | .failed n total  =>
      toString n ++ " of " ++ toString total ++ " expression(s) failed"

/-- An event as a line. -/
def line (e : Event) : String := "DEBUG " ++ e.part ++ ": " ++ e.text

/-- The events of parsing a text. -/
def ofParsing (source : String) (o : Grammar.Options) : List Event :=
  match Grammar.parsePrefix o.extended o.maxDepth source.toList with
  | .error _     => []
  | .ok (t, [])  => [.parsed source t]
  | .ok (t, r)   => if o.strict then [] else [.ignored r, .parsed source t]

/-- The events of evaluating a tree. -/
def ofEvaluation (t : Expr) : List Event :=
  match evaluate t with
  | .error (.divisionByZero q) => [.zeroDivisor q]
  | _                          => []

/-- The events of parsing a text and evaluating its tree. -/
def ofSource (source : String) (o : Grammar.Options) : List Event :=
  ofParsing source o ++
    match Grammar.parse source o with
    | .ok t    => ofEvaluation t
    | .error _ => []

end Event

end Abacus.Command
