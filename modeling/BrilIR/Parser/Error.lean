import BrilIR.Text.Snippet
import BrilIR.Token.Basic
import BrilIR.Ty.Basic

/-! Why tokens are no source. -/

namespace BrilIR

namespace ParseError

inductive Cause where
  | expected (kind : Token.Kind) (found : Token)
  | wrongKeyword (keyword found : String)
  | unknownOperation (name : String)
  | unknownType (name : String)
  | wrongOperation (name : String)
  | noScope (name : String)
  | redefinedValue (name : String)
  | undeclaredValue (name : String)
  | operandCount (operands types : Nat)
  | operandType (name : String) (written prior : Ty)
  | resultCount (types names : Nat)
  | openRegion
  | redefinedBlock (label : String)
  | undefinedBlock (label : String)
  | noType (found : String)
  | typeText (e : TyTextError)
  | noNumber (found : String)
  | integerRange (text : String)
  | badFloat
  | noAttribute (found : String)
  | duplicateAttribute (key : String)
deriving DecidableEq, Repr

namespace Cause

def message : Cause → String
  | expected kind found =>
    "Expected " ++ kind.name ++ ", but got \"" ++ found.lexeme ++ "\" of kind " ++ found.kind.name
  | wrongKeyword keyword found => "Expected \"" ++ keyword ++ "\", but got \"" ++ found ++ "\""
  | unknownOperation name => "Unknown operation: " ++ name
  | unknownType name => "Unknown type: !" ++ name
  | wrongOperation name => "Expected operation " ++ name
  | noScope name => "No scope to define " ++ name ++ " in"
  | redefinedValue name => "redefinition of SSA value " ++ name
  | undeclaredValue name => "use of undeclared SSA value " ++ name
  | operandCount operands types =>
    "Expected " ++ toString operands ++ " operand types but got " ++ toString types
  | operandType name written prior =>
    "use of value '" ++ name ++ "' expects different type than prior uses: '" ++ written.text ++
      "' vs '" ++ prior.text ++ "'"
  | resultCount types names =>
    "operation defines " ++ toString types ++ " results but was provided " ++ toString names ++
      " to bind"
  | openRegion => "Expected '\x7d' to close the region, but got end of input"
  | redefinedBlock label => "redefinition of block " ++ label
  | undefinedBlock label => "reference to an undefined block " ++ label
  | noType found => "Expected type, but got \"" ++ found ++ "\""
  | typeText e => e.message
  | noNumber found => "Expected number, but got \"" ++ found ++ "\""
  | integerRange text => "Integer " ++ text ++ " is out of range"
  | badFloat => "invalid float literal"
  | noAttribute found => "Expected attribute, but got \"" ++ found ++ "\""
  | duplicateAttribute key => "Duplicate attribute '" ++ key ++ "'"

end Cause

def framed (source : String) (l : Location) (message : String) : String :=
  "\n\n" ++ snippet source l message ++ "\n"

end ParseError

/-- What is wrong, and where. A few causes have no place of their own. -/
structure ParseError where
  cause : ParseError.Cause
  location : Option Location
deriving DecidableEq, Repr

namespace ParseError

def renderAs (source : String) (e : ParseError) (message : String) : String :=
  match e.location with
  | none => message
  | some l => framed source l message

def render (source : String) (e : ParseError) : String :=
  e.renderAs source e.cause.message

end ParseError

end BrilIR
