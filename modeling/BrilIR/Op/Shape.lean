/-! How many operands, results and successors an op may have. -/

namespace BrilIR

inductive Arity where
  | exact (n : Nat)
  | atMost (n : Nat)
  | variadic
deriving DecidableEq, Repr

namespace Arity

def Fits : Arity → Nat → Prop
  | exact n, found => found = n
  | atMost n, found => found ≤ n
  | variadic, _ => True

instance : (a : Arity) → (n : Nat) → Decidable (a.Fits n)
  | exact m, n => inferInstanceAs (Decidable (n = m))
  | atMost m, n => inferInstanceAs (Decidable (n ≤ m))
  | variadic, _ => isTrue trivial

def complaint? (a : Arity) (what : String) (found : Nat) : Option String :=
  match a with
  | exact n =>
    if n = found then none
    else some ("expected " ++ toString n ++ " " ++ what ++ ", but found " ++ toString found)
  | atMost n =>
    if found ≤ n then none
    else some ("expected at most " ++ toString n ++ " " ++ what ++ ", but found " ++ toString found)
  | variadic => none

theorem complaint?_eq_none_iff (a : Arity) (what : String) (found : Nat) :
    a.complaint? what found = none ↔ a.Fits found := by
  cases a <;> simp [complaint?, Fits, eq_comm]

end Arity

structure Shape where
  operands : Arity
  results : Arity
  successors : Arity
deriving DecidableEq, Repr

namespace Shape

def any : Shape := ⟨.variadic, .variadic, .variadic⟩

def fixed (operands results : Nat) : Shape := ⟨.exact operands, .exact results, .exact 0⟩

end Shape

end BrilIR
