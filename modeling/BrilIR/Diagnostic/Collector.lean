import BrilIR.Diagnostic.Basic

/-! Diagnostics kept up to a limit. -/

namespace BrilIR

/-- Diagnostics in the order in which they were found. Beyond the limit they are only counted; zero
stands for no limit. -/
structure Diagnostics where
  limit : Nat := 0
  kept : List Diagnostic := []
  dropped : Nat := 0
deriving DecidableEq, Repr

namespace Diagnostics

def isFull (c : Diagnostics) : Bool :=
  c.limit != 0 && c.limit ≤ c.kept.length

def push (c : Diagnostics) (d : Diagnostic) : Diagnostics :=
  if c.isFull then { c with dropped := c.dropped + 1 } else { c with kept := c.kept ++ [d] }

def pushAll (c : Diagnostics) (ds : List Diagnostic) : Diagnostics :=
  ds.foldl push c

def report (c : Diagnostics) (found : List Diagnostic) : Bool × Diagnostics :=
  (found.isEmpty, c.pushAll found)

def checkFailure : String := "operation failed verification"

def droppedLine (c : Diagnostics) : String :=
  "(" ++ toString c.dropped ++ " more errors not shown)"

def text (c : Diagnostics) : String :=
  String.join (c.kept.map fun d => d.text ++ "\n") ++
    (if c.dropped = 0 then "" else c.droppedLine ++ "\n")

def render (source : String) (c : Diagnostics) : String :=
  let lines := Text.pieces source.toList
  "\n".intercalate (c.kept.map (Diagnostic.renderIn lines)) ++
    (if c.dropped = 0 then "" else "\n" ++ c.droppedLine)

end Diagnostics

end BrilIR
