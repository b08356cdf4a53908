import BrilIR.Ty.Basic

/-!
Tables that keep one instance of each type. Two handles are equal when their types are, wherever
they come from; the instance only makes the common case quick.
-/

namespace BrilIR

/-- A type together with the table that keeps it and its place there. -/
structure TyHandle where
  table : Nat
  index : Nat
  type : Ty
deriving DecidableEq, Repr

namespace TyHandle

def sameInstance (a b : TyHandle) : Bool := a.table == b.table && a.index == b.index

def equal (a b : TyHandle) : Bool := a.sameInstance b || a.type == b.type

end TyHandle

/-- A table of types in the order of their first use. The number tells tables apart. -/
structure TyInterner where
  table : Nat
  types : List Ty := []
deriving DecidableEq, Repr

namespace TyInterner

def size (i : TyInterner) : Nat := i.types.length

def isEmpty (i : TyInterner) : Bool := i.types.isEmpty

def intern (i : TyInterner) (t : Ty) : TyHandle × TyInterner :=
  (⟨i.table, i.types.idxOf t, t⟩,
    if i.types.contains t then i else { i with types := i.types ++ [t] })

end TyInterner

end BrilIR
