import Abacus.Expr.Text
import Abacus.Grammar.Parse

/-!
# Grammar — a cursor on a text

A cursor stands in a text and counts the minus signs and parentheses it has entered and not left.
Its calls look at the next character, take it, or read by one of the rules.  Looking moves the
cursor over blanks.  A call that fails leaves the cursor where the failure was noticed, and the
count as it was there; further calls go on from that.

`ask` says what a call comes to, and `perform` raises its failure: where the limit on nesting has
too many digits to be written, the reply of a nesting error is the refusal to write it.
-/

namespace Abacus.Grammar
open Text

/-- A text, a place in it, the nesting entered so far, and what to parse by. -/
structure Cursor where
  source : List Char
  pos : Nat := 0
  depth : Int := 0
  extended : Bool := true
  maxDepth : Int := 100
  deriving Repr, DecidableEq

/-- What can be asked of a cursor. -/
inductive Call where
  | peek
  | next
  | takeAny (chars : List Char)
  | readClose
  | atEnd
  | readNumeral
  | readPrimary
  | readTerm
  | readExpression
  deriving Repr, DecidableEq

/-- What a call answers. -/
inductive Reply where
  /-- The next character, or none at the end of the text. -/
  | next (c : Option Char)
  /-- The character taken, if it was one of those asked for. -/
  | taken (c : Option Char)
  | done
  | flag (b : Bool)
  | tree (e : Expr)
  | failed (e : ParseError)
  /-- The limit on nesting cannot be written into a message. -/
  | overlong (limit : Int)
  deriving Repr, DecidableEq

/-- What is raised as a reply. -/
def Raised.reply : Raised → Reply
  | .error e        => .failed e
  | .overlong limit => .overlong limit

/-- Raises the error of a reply. -/
def Reply.raised : Reply → Reply
  | .failed e => e.raised.reply
  | r         => r

namespace Cursor

/-- A cursor at the beginning of a text. -/
def start (source : List Char) (extended : Bool) (maxDepth : Int) : Cursor :=
  { source, extended, maxDepth }

/-- The text from the cursor on. -/
def rest (c : Cursor) : List Char := c.source.drop c.pos

/-- The nesting that may still be entered. -/
def room (c : Cursor) : Int := c.maxDepth - c.depth

/-- The cursor at the beginning of a later part of its text. -/
def goTo (c : Cursor) (r : List Char) : Cursor := { c with pos := c.source.length - r.length }

/-- The cursor before the next character that is no blank. -/
def skip (c : Cursor) : Cursor := c.goTo (skipBlanks c.rest)

/-- The next character that is no blank. -/
def peek (c : Cursor) : Option Char × Cursor := ((skipBlanks c.rest).head?, c.skip)

/-- Takes the next character that is no blank. -/
def next (c : Cursor) : Option Char × Cursor :=
  match skipBlanks c.rest with
  | []     => (none, c.skip)
  | d :: r => (some d, c.goTo r)

/-- Takes the next character if it is one of `chars`. -/
def takeAny (chars : List Char) (c : Cursor) : Option Char × Cursor :=
  match c.peek with
  | (some d, c') => if chars.contains d then c'.next else (none, c')
  | (none, c')   => (none, c')

/-- Whether nothing but blanks is left. -/
def atEnd (c : Cursor) : Bool × Cursor := (c.peek.1.isNone, c.peek.2)

/-- A stop as an error, and the cursor where it happened. -/
def stopped (c : Cursor) (e : Stop) : ParseError × Cursor :=
  let c' := { c.goTo e.rest with depth := c.maxDepth - e.room }
  (⟨.ofReason c.maxDepth e.reason, c'.pos⟩, c')

/-- Takes the parenthesis that closes a group. -/
def readClose (c : Cursor) : Option ParseError × Cursor :=
  match closeParen c.room c.rest with
  | .ok r    => (none, c.goTo r.1)
  | .error e => let (f, c') := c.stopped e; (some f, c')

/-- Reads by a rule. -/
def read {n : Nat} (c : Cursor) : Except Stop (Parsed n) → Except ParseError Expr × Cursor
  | .ok p    => (.ok p.tree, c.goTo p.rest)
  | .error e => let (f, c') := c.stopped e; (.error f, c')

/-- Reads a numeral; blanks before it are not skipped. -/
def readNumeral (c : Cursor) : Except ParseError Expr × Cursor := c.read (numeral c.room c.rest)

def readPrimary (c : Cursor) : Except ParseError Expr × Cursor :=
  c.read (primary c.extended c.room c.rest)

def readTerm (c : Cursor) : Except ParseError Expr × Cursor :=
  c.read (term c.extended c.room c.rest)

def readExpression (c : Cursor) : Except ParseError Expr × Cursor :=
  c.read (expression c.extended c.room c.rest)

/-- A tree or a failure as a reply. -/
def replyTree : Except ParseError Expr × Cursor → Reply × Cursor
  | (.ok e, c)    => (.tree e, c)
  | (.error f, c) => (.failed f, c)

/-- What a call comes to, its error not raised yet. -/
def ask (c : Cursor) : Call → Reply × Cursor
  | .peek           => let (d, c') := c.peek; (.next d, c')
  | .next           => let (d, c') := c.next; (.next d, c')
  | .takeAny chars  => let (d, c') := c.takeAny chars; (.taken d, c')
  | .readClose      =>
      match c.readClose with
      | (none, c')   => (.done, c')
      | (some f, c') => (.failed f, c')
  | .atEnd          => let (b, c') := c.atEnd; (.flag b, c')
  | .readNumeral    => replyTree c.readNumeral
  | .readPrimary    => replyTree c.readPrimary
  | .readTerm       => replyTree c.readTerm
  | .readExpression => replyTree c.readExpression

/-- Performs a call. -/
def perform (c : Cursor) (k : Call) : Reply × Cursor := (c.ask k).map Reply.raised id

/-- Performs calls one after another, each reply with the cursor after it. -/
def performAll (c : Cursor) : List Call → List (Reply × Cursor)
  | []      => []
  | k :: ks => let p := c.perform k; p :: p.2.performAll ks

end Cursor

end Abacus.Grammar
