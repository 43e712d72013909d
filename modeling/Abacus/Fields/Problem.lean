/-!
# Fields — what is wrong with a value

A record is filled from named values, its fields.  What is wrong with a value is a `Problem`.
-/

namespace Abacus.Fields

/-- Why a value does not suit its field. -/
inductive Problem where
  | missing
  | unknownField
  | notText
  | notBool
  | unreadableBool
  | notInt
  | unreadableInt
  | oversized
  | fractional
  | notFinite
  | tooSmall (least : Int)
  | tooLarge (greatest : Int)
  | notNumber
  | unreadableNumber
  | notAmong (choices : List String)
  deriving Repr, DecidableEq

/-- Choices in quotes, the last one after `or`. -/
def choicesText : List String → String
  | []      => ""
  | [c]     => "'" ++ c ++ "'"
  | [c, d]  => "'" ++ c ++ "' or '" ++ d ++ "'"
  | c :: cs => "'" ++ c ++ "', " ++ choicesText cs

namespace Problem

def text : Problem → String
  | .missing          => "Field required"
  | .unknownField     => "Extra inputs are not permitted"
  | .notText          => "Input should be a valid string"
  | .notBool          => "Input should be a valid boolean"
  | .unreadableBool   => "Input should be a valid boolean, unable to interpret input"
  | .notInt           => "Input should be a valid integer"
  | .unreadableInt    => "Input should be a valid integer, unable to parse string as an integer"
  | .oversized        => "Unable to parse input string as an integer, exceeded maximum size"
  | .fractional       => "Input should be a valid integer, got a number with a fractional part"
  | .notFinite        => "Input should be a finite number"
  | .tooSmall n       => "Input should be greater than or equal to " ++ toString n
  | .tooLarge n       => "Input should be less than or equal to " ++ toString n
  | .notNumber        => "Input should be a valid number"
  | .unreadableNumber => "Input should be a valid number, unable to parse string as a number"
  | .notAmong cs      => "Input should be " ++ choicesText cs

/-- A stable name for programs to read. -/
def tag : Problem → String
  | .missing          => "missing"
  | .unknownField     => "extra_forbidden"
  | .notText          => "string_type"
  | .notBool          => "bool_type"
  | .unreadableBool   => "bool_parsing"
  | .notInt           => "int_type"
  | .unreadableInt    => "int_parsing"
  | .oversized        => "int_parsing_size"
  | .fractional       => "int_from_float"
  | .notFinite        => "finite_number"
  | .tooSmall _       => "greater_than_equal"
  | .tooLarge _       => "less_than_equal"
  | .notNumber        => "float_type"
  | .unreadableNumber => "float_parsing"
  | .notAmong _       => "enum"

end Problem

end Abacus.Fields
