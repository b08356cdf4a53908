/-! Decimal numerals of bounded natural numbers. -/

namespace BrilIR

def digitValue (c : Char) : Nat := c.toNat - '0'.toNat

def numeralValue (cs : List Char) : Nat :=
  cs.foldl (fun n c => 10 * n + digitValue c) 0

inductive NumeralError where
  | empty
  | invalidDigit
  | tooLarge
deriving DecidableEq, Repr

def NumeralError.message : NumeralError → String
  | .empty => "cannot parse integer from empty string"
  | .invalidDigit => "invalid digit found in string"
  | .tooLarge => "number too large to fit in target type"

/-- Reads digits behind the value `n`. The first character that is no digit or takes the value over
`bound` decides. -/
def readDigits (bound : Nat) (n : Nat) : List Char → Except NumeralError Nat
  | [] => .ok n
  | c :: cs =>
    if c.isDigit then
      let n := 10 * n + digitValue c
      if n ≤ bound then readDigits bound n cs else .error .tooLarge
    else .error .invalidDigit

def readNumeral (bound : Nat) : List Char → Except NumeralError Nat
  | [] => .error .empty
  | ['+'] => .error .invalidDigit
  | '+' :: cs => readDigits bound 0 cs
  | cs => readDigits bound 0 cs

theorem le_bound_of_readDigits {bound n m : Nat} {cs : List Char} (hn : n ≤ bound)
    (h : readDigits bound n cs = .ok m) : m ≤ bound := by
  induction cs generalizing n with
  | nil => cases h; exact hn
  | cons c cs ih =>
    simp only [readDigits] at h
    split at h
    · split at h
      · next hle => exact ih hle h
      · cases h
    · cases h

end BrilIR
