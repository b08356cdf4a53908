import BrilIR.Text.Snippet
import BrilIR.Token.Basic
import BrilIR.Unicode.Alphabetic
import BrilIR.Unicode.Numeric

/-!
From text to tokens. `front` says what stands at the front of a text: a lexeme as long as its class
allows, a gap, or a fault. `scan` cuts a whole source into these pieces.
-/

namespace BrilIR

namespace Token

inductive Fault where
  | unexpected (c : Char)
  /-- No identifier follows one of the marks `%`, `@` and `^`. -/
  | bareSigil
  | unterminatedString
  /-- The source ends behind a backslash inside a string. -/
  | openEscape
deriving DecidableEq, Repr

def Fault.message : Fault → String
  | unexpected c => "Scanning failed starting at: " ++ c.toString
  | bareSigil => "Expected identifier after prefix"
  | unterminatedString => "Unterminated string"
  | openEscape => "A string ends in a backslash"

/-- The piece at the front of a text. The number counts its characters but the first; a fault is
shown at the last of them. -/
inductive Front where
  | gap (n : Nat)
  | lexeme (kind : Kind) (n : Nat)
  | fault (f : Fault) (n : Nat)
deriving DecidableEq, Repr

namespace Front

def extend (m : Nat) : Front → Front
  | gap n => gap (n + m)
  | lexeme k n => lexeme k (n + m)
  | fault f n => fault f (n + m)

end Front

def isIdentifierStart (c : Char) : Bool :=
  Unicode.isAlphabetic c || c == '_'

def isIdentifierChar (c : Char) : Bool :=
  Unicode.isAlphabetic c || Unicode.isNumeric c || c == '_' || c == '.' || c == '$'

def identifierLength (cs : List Char) : Nat := (cs.takeWhile isIdentifierChar).length

def digitsLength (cs : List Char) : Nat := (cs.takeWhile Char.isDigit).length

/-- A point counts only with a digit behind it. -/
def fractionLength : List Char → Nat
  | [] => 0
  | c :: cs => if c = '.' ∧ digitsLength cs ≠ 0 then 1 + digitsLength cs else 0

def signLength : List Char → Nat
  | [] => 0
  | c :: _ => if c = '+' ∨ c = '-' then 1 else 0

/-- The letter e counts only with a digit behind it or behind its sign. -/
def exponentLength : List Char → Nat
  | [] => 0
  | c :: cs =>
    let n := digitsLength (cs.drop (signLength cs))
    if (c = 'e' ∨ c = 'E') ∧ n ≠ 0 then 1 + signLength cs + n else 0

def numberFront (cs : List Char) : Front :=
  let whole := digitsLength cs
  let fraction := fractionLength (cs.drop whole)
  let exponent := exponentLength (cs.drop (whole + fraction))
  .lexeme (if fraction + exponent = 0 then .integer else .floatLiteral)
    (whole + fraction + exponent)

def isIntTypeWord : List Char → Bool
  | 'i' :: ds => !ds.isEmpty && ds.all Char.isDigit
  | _ => false

def wordKind (w : List Char) : Kind :=
  if w = ['t', 'r', 'u', 'e'] then .kwTrue
  else if w = ['f', 'a', 'l', 's', 'e'] then .kwFalse
  else if isIntTypeWord w then .intType
  else if w = ['f', '1', '6'] ∨ w = ['f', '3', '2'] ∨ w = ['f', '6', '4'] then .floatType
  else .bareIdentifier

def wordFront (c : Char) (cs : List Char) : Front :=
  let n := identifierLength cs
  .lexeme (wordKind (c :: cs.take n)) n

def sigilFront (kind : Kind) (cs : List Char) : Front :=
  match identifierLength cs with
  | 0 => .fault .bareSigil 0
  | n + 1 => .lexeme kind (n + 1)

/-- The string whose opening quote stands before `cs`. A backslash keeps the next character, a line
feed included, from having a meaning. -/
def stringFront : List Char → Front
  | [] => .fault .unterminatedString 0
  | c :: cs =>
    if c = '"' then .lexeme .string 1
    else if c = '\n' then .fault .unterminatedString 0
    else if c = '\\' then
      match cs with
      | [] => .fault .openEscape 1
      | _ :: cs => (stringFront cs).extend 2
    else (stringFront cs).extend 1

def markKind? (c : Char) : Option Kind :=
  match c with
  | '(' => some .lparen
  | ')' => some .rparen
  | '{' => some .lbrace
  | '}' => some .rbrace
  | '[' => some .lbracket
  | ']' => some .rbracket
  | ':' => some .colon
  | ',' => some .comma
  | '=' => some .equal
  | '!' => some .exclamation
  | '>' => some .greater
  | '<' => some .less
  | _ => none

def sigilKind? (c : Char) : Option Kind :=
  match c with
  | '%' => some .percentIdentifier
  | '@' => some .atIdentifier
  | '^' => some .caretIdentifier
  | _ => none

def isBlank (c : Char) : Bool := c == ' ' || c == '\r' || c == '\t' || c == '\n'

def front (c : Char) (cs : List Char) : Front :=
  match markKind? c, sigilKind? c with
  | some kind, _ => .lexeme kind 0
  | none, some kind => sigilFront kind cs
  | none, none =>
    if isBlank c then .gap 0
    else if c = '/' ∧ cs.head? = some '/' then .gap (cs.takeWhile (· ≠ '\n')).length
    else if c = '-' then
      if cs.head? = some '>' then .lexeme .arrow 1 else .lexeme .minus 0
    else if c = '"' then stringFront cs
    else if c.isDigit then numberFront cs
    else if isIdentifierStart c then wordFront c cs
    else .fault (.unexpected c) 0

end Token

structure LexError where
  fault : Token.Fault
  location : Location
deriving DecidableEq, Repr

def LexError.render (source : String) (e : LexError) : String :=
  snippet source e.location e.fault.message

namespace TokenStream

/-- Cuts a text into tokens, the first `skip` characters of which belong to the piece before. Only a
line feed outside of strings begins a new line. -/
def scanFrom (skip : Nat) (l : Location) : List Char → Except LexError TokenStream
  | [] => .ok ⟨[], l⟩
  | c :: cs =>
    match skip with
    | k + 1 => scanFrom k (l.right 1) cs
    | 0 =>
      match Token.front c cs with
      | .gap n => scanFrom n (if c = '\n' then l.nextLine else l.right 1) cs
      | .lexeme kind n =>
        (scanFrom n (l.right 1) cs).map (cons ⟨kind, String.ofList (c :: cs.take n), l⟩)
      | .fault f n => .error ⟨f, l.right n⟩

def scan (source : String) : Except LexError TokenStream :=
  scanFrom 0 .origin source.toList

end TokenStream

end BrilIR
