import BrilIR.Decimal.Binary64

/-!
The shortest decimal text of a double: the fewest digits that read back, of these the nearest to
the value, and of two equally near ones the greater.
-/

namespace BrilIR

namespace Decimal

def fractionAt (code : Nat) (exponent : Int) : Nat × Nat :=
  (Binary64.units code * Nat.pow 10 (-exponent).toNat,
    Binary64.unitsPerOne * Nat.pow 10 exponent.toNat)

/-- The exponent of the first decimal digit of a code greater than zero. No code is less than
`10 ^ (-324)`. -/
def leadingExponent (code : Nat) : Int :=
  let (num, den) := fractionAt code (-324)
  (toString (num / den)).length - 1 - 324

/-- Of the two neighbours with `n` digits the one to write, if one of them reads back. -/
def ofDigits? (code n : Nat) : Option Decimal :=
  let exponent := leadingExponent code - n + 1
  let (num, den) := fractionAt code exponent
  let below : Decimal := ⟨num / den, exponent⟩
  let above : Decimal := ⟨num / den + 1, exponent⟩
  if Binary64.codeOfDecimal below = code then
    if Binary64.codeOfDecimal above = code ∧ den ≤ 2 * (num % den) then some above else some below
  else if Binary64.codeOfDecimal above = code then some above
  else none

/-- Every finite double has a finite decimal expansion. -/
def exact (code : Nat) : Decimal :=
  ⟨Binary64.units code * Nat.pow 5 Binary64.unitBits, -Binary64.unitBits⟩

/-- Seventeen digits are enough to tell doubles apart. -/
def shortest (code : Nat) : Decimal :=
  ((List.range 17).findSome? fun n => ofDigits? code (n + 1)).getD (exact code)

structure Layout where
  least : Int
  bound : Int
deriving DecidableEq, Repr

/-- The digits without zeros at the end, and the exponent of the first of them. -/
def significant (d : Decimal) : List Char × Int :=
  let ds := (toString d.digits).toList
  ((ds.reverse.dropWhile (· = '0')).reverse, d.exponent + ds.length - 1)

def layOut (style : Layout) (d : Decimal) : List Char :=
  let (ds, e) := d.significant
  if style.least ≤ e ∧ e < style.bound then
    if e < 0 then '0' :: '.' :: (List.replicate (-e - 1).toNat '0' ++ ds)
    else
      let whole := e.toNat + 1
      let fraction := ds.drop whole
      ds.take whole ++ List.replicate (whole - ds.length) '0' ++
        '.' :: (if fraction.isEmpty then ['0'] else fraction)
  else
    ds.take 1 ++ (if ds.length ≤ 1 then [] else '.' :: ds.drop 1) ++ 'e' :: (toString e).toList

end Decimal

namespace Binary64

def layout : Decimal.Layout := ⟨-4, 16⟩

def text (x : Binary64) : String :=
  if x.isNaN then "NaN"
  else
    let sign := if x.negative then "-" else ""
    if x.isInfinite then sign ++ "inf"
    else if x.code = 0 then sign ++ "0.0"
    else sign ++ String.ofList ((Decimal.shortest x.code).layOut layout)

end Binary64

end BrilIR
