/-! Places in a source text. -/

namespace BrilIR

/-- A line and a column, both counted from zero; columns count characters. -/
structure Location where
  line : Nat
  column : Nat
deriving DecidableEq, Repr, Inhabited

namespace Location

def origin : Location := ⟨0, 0⟩

def right (l : Location) (n : Nat) : Location := ⟨l.line, l.column + n⟩

def nextLine (l : Location) : Location := ⟨l.line + 1, 0⟩

/-- People count lines and columns from one. -/
def text (l : Location) : String :=
  "loc(:" ++ toString (l.line + 1) ++ ":" ++ toString (l.column + 1) ++ ")"

def isShowable (l : Location) : Bool :=
  l.line + 1 < UInt64.size && l.column + 1 < UInt64.size

def Before (a b : Location) : Prop :=
  a.line < b.line ∨ (a.line = b.line ∧ a.column < b.column)

instance (a b : Location) : Decidable (a.Before b) :=
  inferInstanceAs (Decidable (_ ∨ _))

end Location

end BrilIR
