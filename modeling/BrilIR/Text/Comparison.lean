import BrilIR.Text.Lines

/-! Comparing an output with an expectation, line by line. Both texts are trimmed first. -/

namespace BrilIR.Text

/-- Why an output is not the expected one; lines are counted from zero. -/
inductive Difference where
  | absent (line : Nat)
  | surplus (line : Nat)
  | unequal (line : Nat)
deriving DecidableEq, Repr

def firstDifference (n : Nat) : List (List Char) → List (List Char) → Option Difference
  | [], [] => none
  | [], _ :: _ => some (.absent n)
  | _ :: _, [] => some (.surplus n)
  | a :: as, b :: bs => if a = b then firstDifference (n + 1) as bs else some (.unequal n)

def compareExactly (actual expected : List Char) : Option Difference :=
  firstDifference 0 (lines (trim actual)) (lines (trim expected))

/-- The number of the first line in `expected` that is not found. Each line is looked for below the
one found before, and blank lines are passed over. -/
def firstMissing (n : Nat) (actual : List (List Char)) : List (List Char) → Option Nat
  | [] => none
  | l :: expected =>
    let part := trim l
    if part.isEmpty then firstMissing (n + 1) actual expected
    else match actual.dropWhile (fun a => !occursIn part a) with
      | [] => some n
      | _ :: below => firstMissing (n + 1) below expected

def compareContained (actual expected : List Char) : Option Nat :=
  firstMissing 0 (lines (trim actual)) (lines (trim expected))

def Difference.message : Difference → String
  | .absent n => "Line " ++ toString n ++ " not found in output"
  | .surplus n => "Unexpected line " ++ toString n ++ " in output"
  | .unequal _ => "line differs"

def missingMessage (expected : List Char) (missing : Nat) : String :=
  let marked := (lines (trim expected)).mapIdx fun i l =>
    "\n" ++ String.ofList l ++ (if i = missing then "   <== missing" else "")
  "A line is missing from the output:\n```" ++ String.join marked ++ "\n```"

end BrilIR.Text
