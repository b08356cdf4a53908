import BrilIR.Attribute.Dictionary
import BrilIR.Ty.Parser

/-! Reading attributes and attribute dictionaries. -/

namespace BrilIR

/-- The text without quotes at either end, however many there are. -/
def trimQuotes (s : String) : String :=
  let isQuote (c : Char) := c == '"'
  String.ofList (((s.toList.dropWhile isQuote).reverse.dropWhile isQuote).reverse)

def trimAt (s : String) : String :=
  String.ofList (s.toList.dropWhile (· == '@'))

def int64? (negative : Bool) (digits : List Char) : Option Int64 :=
  let n := numeralValue digits
  if negative then
    if n ≤ UInt64.size / 2 then some (.ofInt (-(n : Int))) else none
  else
    if n < UInt64.size / 2 then some (.ofInt n) else none

namespace Attribute

open BrilIR.Parser

def parseTyped (number : Ty → Attribute) : Parser Attribute := do
  discard (expect .colon)
  return number (← Ty.parse)

def parseNumber (negative : Bool) (t : Token) : Parser Attribute :=
  let sign := if negative then "-" else ""
  match t.kind with
  | .integer =>
    match int64? negative t.lexeme.toList with
    | none => failAt t (.integerRange (sign ++ t.lexeme))
    | some value => parseTyped (.int value)
  | .floatLiteral =>
    match Binary64.read? (sign ++ t.lexeme).toList with
    -- the float literals of a source all have a value
    | none => failBare .badFloat
    | some value => parseTyped (.float value)
  | _ => failAt t (.noNumber t.lexeme)

/-- Reads a number behind its sign. A sign at the end of the source takes the place of the number
that is missing. -/
def parseNegative : Parser Attribute := do
  discard (expect .minus)
  parseNumber true (← advance)

def parse : Parser Attribute := do
  let t ← peek
  match t.kind with
  | .minus => parseNegative
  | .integer | .floatLiteral => parseNumber false (← expect t.kind)
  | .kwTrue =>
    discard (expect .kwTrue)
    return .bool true
  | .kwFalse =>
    discard (expect .kwFalse)
    return .bool false
  | .string => return .string (trimQuotes (← expect .string).lexeme)
  | .atIdentifier => return .symbol (trimAt (← expect .atIdentifier).lexeme)
  | .intType | .floatType | .exclamation => return .type (← Ty.parse)
  | _ => failAt t (.noAttribute t.lexeme)

end Attribute

namespace Attributes

open BrilIR.Parser

def parseEntry (d : Attributes) : Parser Attributes := do
  let key ← expect .bareIdentifier
  require (d.contains key.lexeme = false) key (.duplicateAttribute key.lexeme)
  discard (expect .equal)
  return d.insert key.lexeme (← Attribute.parse)

def parse : Parser Attributes := do
  discard (expect .lbrace)
  entriesUntil .rbrace parseEntry ∅

end Attributes

end BrilIR
