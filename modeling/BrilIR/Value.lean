import BrilIR.Ty.Basic

/-! The named values that ops use. -/

namespace BrilIR

inductive Value where
  | argument (name : String) (type : Ty)
  | result (name : String) (type : Ty)
deriving DecidableEq, Repr

namespace Value

def name : Value → String
  | argument name _ => name
  | result name _ => name

def type : Value → Ty
  | argument _ type => type
  | result _ type => type

def text : Value → String
  | argument name type => name ++ " : " ++ type.text
  | result name _ => name

def listText (vs : List Value) : String :=
  ", ".intercalate (vs.map text)

/-- Uses of values, which show names only. -/
def usesText (vs : List Value) : String :=
  ", ".intercalate (vs.map name)

end Value

end BrilIR
