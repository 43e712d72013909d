/-!
# Failure — kinds and families

What can go wrong has a *kind*, a stable name for programs to read, and belongs to a *family*,
which is part of another family or the widest one.  A family determines its kind.
-/

namespace Abacus.Failure

/-- The kinds of failure. -/
inductive Kind where
  | expectedNumber
  | expectedCloseParen
  | unexpectedTrailingInput
  | nestingTooDeep
  | divisionByZero
  | unknownNode
  | config
  | parse
  | generic
  deriving Repr, DecidableEq

namespace Kind

def name : Kind → String
  | .expectedNumber          => "expected_number"
  | .expectedCloseParen      => "expected_close_paren"
  | .unexpectedTrailingInput => "unexpected_trailing_input"
  | .nestingTooDeep          => "nesting_too_deep"
  | .divisionByZero          => "division_by_zero"
  | .unknownNode             => "unknown_node"
  | .config                  => "config"
  | .parse                   => "parse"
  | .generic                 => "generic"

/-- Every kind, in the order in which they are listed to a reader. -/
def all : List Kind :=
  [.expectedNumber, .expectedCloseParen, .unexpectedTrailingInput, .nestingTooDeep,
    .divisionByZero, .unknownNode, .config, .parse, .generic]

end Kind

/-- The families of failure. -/
inductive Family where
  | any
  | parse
  | expectedNumber
  | expectedCloseParen
  | unexpectedTrailingInput
  | nestingTooDeep
  | evaluation
  | divisionByZero
  | config
  deriving Repr, DecidableEq

namespace Family

def name : Family → String
  | .any                     => "TreecalcError"
  | .parse                   => "ParseError"
  | .expectedNumber          => "ExpectedNumberError"
  | .expectedCloseParen      => "ExpectedCloseParenError"
  | .unexpectedTrailingInput => "UnexpectedTrailingInputError"
  | .nestingTooDeep          => "NestingTooDeepError"
  | .evaluation              => "EvaluationError"
  | .divisionByZero          => "DivisionByZeroError"
  | .config                  => "ConfigError"

/-- The families that a family is part of, the nearest first. -/
def wider : Family → List Family
  | .any => []
  | .parse | .evaluation | .config => [.any]
  | .expectedNumber | .expectedCloseParen | .unexpectedTrailingInput | .nestingTooDeep =>
      [.parse, .any]
  | .divisionByZero => [.evaluation, .any]

/-- The family itself and every one that it is part of. -/
def ancestors (f : Family) : List Family := f :: f.wider

def kind : Family → Kind
  | .any                     => .generic
  | .parse                   => .parse
  | .expectedNumber          => .expectedNumber
  | .expectedCloseParen      => .expectedCloseParen
  | .unexpectedTrailingInput => .unexpectedTrailingInput
  | .nestingTooDeep          => .nestingTooDeep
  | .evaluation              => .unknownNode
  | .divisionByZero          => .divisionByZero
  | .config                  => .config

def all : List Family :=
  [.any, .parse, .expectedNumber, .expectedCloseParen, .unexpectedTrailingInput, .nestingTooDeep,
    .evaluation, .divisionByZero, .config]

def ofName? (s : String) : Option Family := all.find? (·.name == s)

end Family

end Abacus.Failure
