import BrilIR.Text.Location

/-! Tokens: the words and marks of the textual form. -/

namespace BrilIR

namespace Token

inductive Kind where
  | eof
  | bareIdentifier
  | atIdentifier
  | percentIdentifier
  | caretIdentifier
  | floatLiteral
  | integer
  | string
  | intType
  | floatType
  | arrow
  | colon
  | comma
  | equal
  | lparen
  | rparen
  | lbrace
  | rbrace
  | lbracket
  | rbracket
  | minus
  | exclamation
  | greater
  | less
  | kwTrue
  | kwFalse
deriving DecidableEq, Repr

namespace Kind

def all : List Kind :=
  [eof, bareIdentifier, atIdentifier, percentIdentifier, caretIdentifier, floatLiteral, integer,
    string, intType, floatType, arrow, colon, comma, equal, lparen, rparen, lbrace, rbrace,
    lbracket, rbracket, minus, exclamation, greater, less, kwTrue, kwFalse]

def name : Kind → String
  | eof => "Eof"
  | bareIdentifier => "BareIdentifier"
  | atIdentifier => "AtIdentifier"
  | percentIdentifier => "PercentIdentifier"
  | caretIdentifier => "CaretIdentifier"
  | floatLiteral => "FloatLiteral"
  | integer => "Integer"
  | string => "String"
  | intType => "IntType"
  | floatType => "FloatType"
  | arrow => "Arrow"
  | colon => "Colon"
  | comma => "Comma"
  | equal => "Equal"
  | lparen => "LParen"
  | rparen => "RParen"
  | lbrace => "LBrace"
  | rbrace => "RBrace"
  | lbracket => "LBracket"
  | rbracket => "RBracket"
  | minus => "Minus"
  | exclamation => "Exclamation"
  | greater => "Greater"
  | less => "Less"
  | kwTrue => "KwTrue"
  | kwFalse => "KwFalse"

def ofName? (s : String) : Option Kind :=
  all.find? (·.name == s)

end Kind

end Token

/-- A word or mark of the source, with the place of its first character. -/
structure Token where
  kind : Token.Kind
  lexeme : String
  location : Location
deriving DecidableEq, Repr

namespace Token

def atEnd (l : Location) : Token := ⟨.eof, "", l⟩

def text (t : Token) : String :=
  t.kind.name ++ " \"" ++ t.lexeme ++ "\" " ++ t.location.text

end Token

structure TokenStream where
  tokens : List Token
  stop : Location
deriving DecidableEq, Repr

namespace TokenStream

def toList (s : TokenStream) : List Token :=
  s.tokens ++ [.atEnd s.stop]

def cons (t : Token) (s : TokenStream) : TokenStream :=
  { s with tokens := t :: s.tokens }

end TokenStream

end BrilIR
