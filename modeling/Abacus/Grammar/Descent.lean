import Abacus.Expr.Basic
import Abacus.Numeral
import Abacus.Text.Blank

/-!
# Grammar — recursive descent

    expression = term (additive term)*
    term       = primary (multiplicative primary)*
    primary    = "-" primary | "(" expression ")" | numeral

The additive operators are `+` and, in the extended grammar, `-`; the multiplicative ones `*` and,
in the extended grammar, `/`.  Chains of operators group to the left.  Blanks are skipped before
every operator, sign, parenthesis and numeral, and never inside a numeral.

A rule reads from a text and has `room` for so many minus signs and parentheses around what it
reads.  Nothing else bears on the outcome: no position, nothing before the text.  It yields a tree
and a shorter text (`Parsed`), or stops (`Stop`) with the text and the room it had there.  Every
rule reads at least one character, so the descent ends by the length of the text.
-/

namespace Abacus.Grammar
open Text

/-- What a rule missed. -/
inductive Reason where
  | expectedNumber
  | expectedCloseParen
  | tooDeep
  deriving Repr, DecidableEq

/-- Where a rule stopped: the reason, the text from there on, and the room left. -/
structure Stop where
  reason : Reason
  rest : List Char
  room : Int
  deriving Repr, DecidableEq

/-- A tree read from a text, and what is left of it: fewer than `n` characters. -/
structure Parsed (n : Nat) where
  tree : Expr
  rest : List Char
  short : rest.length < n

/-- The operators of an expression. -/
def additive (extended : Bool) : Char → Option Op
  | '+' => some .add
  | '-' => if extended then some .sub else none
  | _   => none

/-- The operators of a term. -/
def multiplicative (extended : Bool) : Char → Option Op
  | '*' => some .mul
  | '/' => if extended then some .div else none
  | _   => none

/-- A numeral at the very beginning of a text. -/
def numeral (room : Int) (s : List Char) : Except Stop (Parsed s.length) :=
  match h : Numeral.scan s with
  | some (n, r) => .ok ⟨.const n.value, r, Numeral.length_scan h⟩
  | none        => .error ⟨.expectedNumber, s, room⟩

/-- The parenthesis that closes a group. -/
def closeParen (room : Int) (s : List Char) :
    Except Stop { r : List Char // r.length < s.length } :=
  match h : skipBlanks s with
  | ')' :: r => .ok ⟨r, length_lt_of_skipBlanks h⟩
  | r        => .error ⟨.expectedCloseParen, r, room⟩

mutual

/-- A minus sign and a primary, a group in parentheses, or a numeral. -/
def primary (extended : Bool) (room : Int) (s : List Char) : Except Stop (Parsed s.length) :=
  match h : skipBlanks s with
  | '-' :: r =>
      have hr := length_lt_of_skipBlanks h
      if room ≤ 0 then .error ⟨.tooDeep, r, room - 1⟩
      else match primary extended (room - 1) r with
        | .error e => .error e
        | .ok p    => .ok ⟨.neg p.tree, p.rest, Nat.lt_trans p.short hr⟩
  | '(' :: r =>
      have hr := length_lt_of_skipBlanks h
      if room ≤ 0 then .error ⟨.tooDeep, r, room - 1⟩
      else match expression extended (room - 1) r with
        | .error e => .error e
        | .ok p    => match closeParen (room - 1) p.rest with
          | .error e => .error e
          | .ok q    => .ok ⟨p.tree, q.1, Nat.lt_trans q.2 (Nat.lt_trans p.short hr)⟩
  | r =>
      have hr : r.length ≤ s.length := h ▸ length_skipBlanks_le s
      match numeral room r with
      | .error e => .error e
      | .ok p    => .ok ⟨p.tree, p.rest, Nat.lt_of_lt_of_le p.short hr⟩
  termination_by (s.length, 0)

/-- The further factors of a term, `left` being the product so far. -/
def factors (extended : Bool) (room : Int) (n : Nat) (left : Expr) (s : List Char)
    (hs : s.length < n) : Except Stop (Parsed n) :=
  match h : skipBlanks s with
  | []     => .ok ⟨left, [], Nat.lt_of_le_of_lt (Nat.zero_le _) hs⟩
  | c :: r =>
      have hr := length_lt_of_skipBlanks h
      match multiplicative extended c with
      | none    => .ok ⟨left, c :: r, Nat.lt_of_le_of_lt hr hs⟩
      | some op => match primary extended room r with
        | .error e => .error e
        | .ok p    =>
            factors extended room n (.binary op left p.tree) p.rest
              (Nat.lt_trans p.short (Nat.lt_trans hr hs))
  termination_by (s.length, 0)
  decreasing_by
    · exact .left _ _ hr
    · exact .left _ _ (Nat.lt_trans p.short hr)

/-- Primaries joined by multiplicative operators. -/
def term (extended : Bool) (room : Int) (s : List Char) : Except Stop (Parsed s.length) :=
  match primary extended room s with
  | .error e => .error e
  | .ok p    => factors extended room s.length p.tree p.rest p.short
  termination_by (s.length, 1)
  decreasing_by
    · exact .right _ Nat.zero_lt_one
    · exact .left _ _ p.short

/-- The further terms of an expression, `left` being the sum so far. -/
def summands (extended : Bool) (room : Int) (n : Nat) (left : Expr) (s : List Char)
    (hs : s.length < n) : Except Stop (Parsed n) :=
  match h : skipBlanks s with
  | []     => .ok ⟨left, [], Nat.lt_of_le_of_lt (Nat.zero_le _) hs⟩
  | c :: r =>
      have hr := length_lt_of_skipBlanks h
      match additive extended c with
      | none    => .ok ⟨left, c :: r, Nat.lt_of_le_of_lt hr hs⟩
      | some op => match term extended room r with
        | .error e => .error e
        | .ok p    =>
            summands extended room n (.binary op left p.tree) p.rest
              (Nat.lt_trans p.short (Nat.lt_trans hr hs))
  termination_by (s.length, 0)
  decreasing_by
    · exact .left _ _ hr
    · exact .left _ _ (Nat.lt_trans p.short hr)

/-- Terms joined by additive operators. -/
def expression (extended : Bool) (room : Int) (s : List Char) : Except Stop (Parsed s.length) :=
  match term extended room s with
  | .error e => .error e
  | .ok p    => summands extended room s.length p.tree p.rest p.short
  termination_by (s.length, 2)
  decreasing_by
    · exact .right _ (by decide)
    · exact .left _ _ p.short

end

end Abacus.Grammar
