import BrilIR.Decimal.Shortest
import BrilIR.Ty.Basic

/-! Attributes: constants that belong to an op. -/

namespace BrilIR

/-- A constant. Strings are kept without their quotes and symbols without their mark. -/
inductive Attribute where
  | int (value : Int64) (type : Ty)
  | float (value : Binary64) (type : Ty)
  | bool (value : Bool)
  | string (value : String)
  | symbol (name : String)
  | type (value : Ty)
deriving DecidableEq, Repr

namespace Attribute

def text : Attribute → String
  | int value t => toString value.toInt ++ " : " ++ t.text
  | float value t => value.text ++ " : " ++ t.text
  | bool true => "true"
  | bool false => "false"
  | string s => "\"" ++ s ++ "\""
  | symbol s => "@" ++ s
  | type t => t.text

/-- Equality of values, under which a number that is none differs from itself. -/
def equal : Attribute → Attribute → Bool
  | float x t, float y u => x.equal y && t == u
  | a, b => a == b

end Attribute

end BrilIR
