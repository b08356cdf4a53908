import BrilIR.Parser.Error
import BrilIR.Value

/-!
Reading tokens one after another. A parser is a state monad with errors that keeps its state when
it fails: the tokens ahead and the values in scope. All lists are read by one bounded loop.
-/

namespace BrilIR

/-- The values of one scope, latest first. -/
abbrev Scope := List Value

def Scope.lookup? (scopes : List Scope) (name : String) : Option Value :=
  scopes.findSome? fun scope => scope.find? (·.name == name)

/-- Where a parser stands. The end of the source is no token ahead. -/
structure ParserState where
  previous : Token
  ahead : List Token
  stop : Location
  /-- The scopes in force, innermost first. -/
  scopes : List Scope
  /-- The names of the ops whose general form was begun, latest first. -/
  begun : List String
deriving DecidableEq, Repr

abbrev Parser := EStateM ParseError ParserState

namespace ParserState

/-- The state in front of all tokens, with one empty scope. The first token also counts as the
previous one. -/
def ofTokens (s : TokenStream) : ParserState where
  previous := s.tokens.headD (.atEnd s.stop)
  ahead := s.tokens
  stop := s.stop
  scopes := [[]]
  begun := []

def peekAt (s : ParserState) (n : Nat) : Token :=
  s.ahead.getD n (.atEnd s.stop)

def peek (s : ParserState) : Token := s.peekAt 0

def isAtEnd (s : ParserState) : Bool := s.ahead.isEmpty

def check (s : ParserState) (kind : Token.Kind) : Bool :=
  match s.ahead with
  | [] => false
  | t :: _ => t.kind == kind

def lookup? (s : ParserState) (name : String) : Option Value := Scope.lookup? s.scopes name

/-- The token that holds the name of the next op, behind its result names. -/
def peekOpName (s : ParserState) : Token :=
  if s.check .percentIdentifier then
    let skipped (t : Token) := t.kind == .percentIdentifier || t.kind == .comma
    let rest := s.ahead.dropWhile skipped
    let rest := if (rest.head?.map (·.kind)) = some .equal then rest.tail else rest
    rest.headD (.atEnd s.stop)
  else s.peek

end ParserState

namespace Parser

open ParserState

variable {α β : Type}

def failAt (t : Token) (cause : ParseError.Cause) : Parser α :=
  throw ⟨cause, some t.location⟩

def failBare (cause : ParseError.Cause) : Parser α :=
  throw ⟨cause, none⟩

def require (holds : Prop) [Decidable holds] (t : Token) (cause : ParseError.Cause) : Parser Unit :=
  if holds then return () else failAt t cause

def peek : Parser Token := return (← get).peek

def check (kind : Token.Kind) : Parser Bool := return (← get).check kind

/-- Goes over the next token, unless there is none, and returns the token now behind. -/
def advance : Parser Token := fun s =>
  match s.ahead with
  | [] => .ok s.previous s
  | t :: ts => .ok t { s with previous := t, ahead := ts }

def expect (kind : Token.Kind) : Parser Token := fun s =>
  match s.ahead with
  | [] => failAt s.peek (.expected kind s.peek) s
  | t :: ts =>
    if t.kind = kind then .ok t { s with previous := t, ahead := ts }
    else failAt t (.expected kind t) s

def ifNext (kind : Token.Kind) (part : Parser α) (a : α) : Parser α := do
  if ← check kind then part else return a

def keyword (word : String) : Parser Unit := do
  let t ← expect .bareIdentifier
  require (t.lexeme = word) t (.wrongKeyword word t.lexeme)

/-- Repeats `step` until `stop` holds, `n + 1` times at most. -/
def repeatAtMost (stop : ParserState → Bool) (step : β → Parser β) : Nat → β → Parser β
  | 0, b => fun s => if stop s then .ok b s else step b s
  | n + 1, b => fun s =>
    if stop s then .ok b s
    else match step b s with
      | .ok b s => repeatAtMost stop step n b s
      | .error e s => .error e s

/-- Repeats `step` until `stop` holds. A step that goes over a token each time has all the turns it
can use, since it fails behind the last token. -/
def repeatUntil (stop : ParserState → Bool) (step : β → Parser β) (b : β) : Parser β := fun s =>
  repeatAtMost stop step s.ahead.length b s

def separator (close : Token.Kind) : Parser Unit := do
  if ← check close then return () else discard (expect .comma)

/-- Reads entries up to and including the closing token. A comma may stand behind the last one. -/
def entriesUntil (close : Token.Kind) (entry : β → Parser β) (b : β) : Parser β := do
  let b ← repeatUntil (·.check close) (fun b => do
    let b ← entry b
    separator close
    return b) b
  discard (expect close)
  return b

def listUntil (close : Token.Kind) (entry : Parser α) : Parser (List α) :=
  entriesUntil close (fun as => return as ++ [← entry]) []

def commaSeparated (item : Parser α) : Parser (List α) := do
  let first ← item
  repeatUntil (fun s => !s.check .comma) (fun as => do
    discard advance
    return as ++ [← item]) [first]

def pushScope : Parser Unit :=
  modify fun s => { s with scopes := [] :: s.scopes }

def popScope : Parser Unit :=
  modify fun s => { s with scopes := s.scopes.tail }

def define (t : Token) (v : Value) : Parser Unit := do
  match (← get).scopes with
  | [] => failBare (.noScope v.name)
  | scope :: outer =>
    if scope.any (·.name == v.name) then failAt t (.redefinedValue v.name)
    else modify fun s => { s with scopes := (v :: scope) :: outer }

end Parser

end BrilIR
