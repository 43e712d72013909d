import Abacus.Data.Whole
import Abacus.Failure.Report
import Abacus.Grammar.Descent
import Abacus.Text.Quoted

/-!
# Grammar — parsing a text

`parse` reads an expression from the beginning of a text.  What stands after it is an error in
strict mode and is ignored otherwise.  An error is a cause and a position, the number of
characters before the place it was noticed at.

An error is raised with its message, and the message about nesting names the limit.  A limit of too
many digits cannot be written (`Data.Writable`).  Then the message is not come by, and what is
raised is no parse error: it is the refusal to write a number, without a position and without the
text.  `outcome` is `parse` with its errors raised.  The two part under such limits only, far
outside those that settings can have.
-/

namespace Abacus.Grammar
open Failure

/-- How to parse: whether all of the text must be read, which operators there are, and how many
minus signs and parentheses may stand inside one another. -/
structure Options where
  strict : Bool := false
  extended : Bool := true
  maxDepth : Int := 100
  deriving Repr, DecidableEq

/-- Why a text does not parse. -/
inductive Cause where
  | expectedNumber
  | expectedCloseParen
  | trailingInput (rest : List Char)
  | tooDeep (limit : Int)
  deriving Repr, DecidableEq

namespace Cause

def family : Cause → Family
  | .expectedNumber     => .expectedNumber
  | .expectedCloseParen => .expectedCloseParen
  | .trailingInput _    => .unexpectedTrailingInput
  | .tooDeep _          => .nestingTooDeep

/-- The message of a cause, a limit in it written out however long it is: where it is too long, no
error is raised that would show the message (`ParseError.raised`). -/
def message : Cause → String
  | .expectedNumber     => "Expected number"
  | .expectedCloseParen => "Expected ')'"
  | .trailingInput rest =>
      "Unexpected input after expression: " ++ String.ofList (Text.quotedChars rest)
  | .tooDeep limit      => "Expression nested deeper than " ++ toString limit ++ " levels"

/-- The cause of a stop, the limit on nesting being `limit`. -/
def ofReason (limit : Int) : Reason → Cause
  | .expectedNumber     => .expectedNumber
  | .expectedCloseParen => .expectedCloseParen
  | .tooDeep            => .tooDeep limit

theorem kind_ofReason {limit : Int} {x : Reason} :
    (ofReason limit x).family.kind = .nestingTooDeep ↔ x = .tooDeep := by
  cases x <;> simp [ofReason, family, Failure.Family.kind]

end Cause

/-- A cause and the number of characters before it. -/
structure ParseError where
  cause : Cause
  pos : Nat
  deriving Repr, DecidableEq

namespace ParseError

def kind (e : ParseError) : Kind := e.cause.family.kind

def message (e : ParseError) : String := e.cause.message

/-- The error as a report on the text it is in. -/
def report (source : String) (e : ParseError) : Report :=
  ⟨e.cause.family, e.message, some ⟨source, e.pos + 1⟩⟩

end ParseError

/-- What is raised where a text does not parse: the error, or the refusal to write the limit that
its message would name. -/
inductive Raised where
  | error (e : ParseError)
  | overlong (limit : Int)
  deriving Repr, DecidableEq

/-- Raises an error, whose message is put into words first. -/
def ParseError.raised (e : ParseError) : Raised :=
  match e.cause with
  | .tooDeep limit => if Data.Writable limit then .error e else .overlong limit
  | _              => .error e

/-- The text of what is raised. -/
def Raised.text (source : String) : Raised → String
  | .error e    => (e.report source).text
  | .overlong _ => Data.refusal none

/-- An expression at the beginning of a text, and what follows it and its blanks. -/
def parsePrefix (extended : Bool) (limit : Int) (s : List Char) :
    Except ParseError (Expr × List Char) :=
  match expression extended limit s with
  | .error e => .error ⟨.ofReason limit e.reason, s.length - e.rest.length⟩
  | .ok p    => .ok (p.tree, Text.skipBlanks p.rest)

/-- Parses the characters of a text. -/
def parseChars (o : Options) (s : List Char) : Except ParseError Expr :=
  match parsePrefix o.extended o.maxDepth s with
  | .error e        => .error e
  | .ok (t, [])     => .ok t
  | .ok (t, c :: r) =>
      if o.strict then .error ⟨.trailingInput (c :: r), s.length - (c :: r).length⟩ else .ok t

/-- Parses a text. -/
def parse (source : String) (o : Options := {}) : Except ParseError Expr :=
  parseChars o source.toList

/-- What comes of parsing a text: a tree, or what is raised. -/
def outcome (source : String) (o : Options := {}) : Except Raised Expr :=
  (parse source o).mapError ParseError.raised

end Abacus.Grammar
