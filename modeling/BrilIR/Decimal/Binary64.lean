import BrilIR.Decimal.Numeral

/-!
Numbers in the 64-bit binary interchange format, kept as a sign and a magnitude code. A finite
code stands for a whole number of units, the least double above zero, so all arithmetic here is
exact.
-/

namespace BrilIR

structure Decimal where
  digits : Nat
  exponent : Int
deriving DecidableEq, Repr

/-- A double precision number: the sign bit, and the other 63 bits as a number. -/
structure Binary64 where
  negative : Bool
  code : Nat
  code_lt : code < Nat.pow 2 63 := by decide
deriving DecidableEq, Repr

namespace Binary64

/-- The code of infinity; greater codes are no numbers. -/
def infinityCode : Nat := 2047 * Nat.pow 2 52

def isNaN (x : Binary64) : Bool := infinityCode < x.code

def isInfinite (x : Binary64) : Bool := x.code == infinityCode

/-- A unit is `2 ^ (-unitBits)`, the least double above zero. Kept closed, for no step of a proof
should compute a power with so great an exponent. -/
@[irreducible] def unitBits : Nat := 1074

theorem unitBits_eq : unitBits = 1074 := by rw [unitBits]

def unitsPerOne : Nat := Nat.pow 2 unitBits

/-- The magnitude of a finite code in units. -/
def units (code : Nat) : Nat :=
  if code < Nat.pow 2 52 then code
  else (Nat.pow 2 52 + code % Nat.pow 2 52) * Nat.pow 2 (code / Nat.pow 2 52 - 1)

def roundHalfEven (num den : Nat) : Nat :=
  let q := num / den
  let twice := 2 * (num % den)
  if twice < den then q
  else if den < twice then q + 1
  else q + q % 2

/-- The code nearest to `num / den` units; what is too great becomes infinity. At most 53 binary
digits are kept, and carrying over into the next power of two needs no case of its own. -/
def codeOfUnits (num den : Nat) : Nat :=
  let shift := (num / den).log2 - 52
  min (shift * Nat.pow 2 52 + roundHalfEven num (den * Nat.pow 2 shift)) infinityCode

/-- The code nearest to a decimal number. Exponents far outside the range are settled without
computing the power of ten. -/
def codeOfDecimal (d : Decimal) : Nat :=
  if d.digits = 0 then 0
  else if 400 < d.exponent then infinityCode
  else if d.exponent + (toString d.digits).length < -400 then 0
  else codeOfUnits (d.digits * Nat.pow 10 d.exponent.toNat * unitsPerOne)
    (Nat.pow 10 (-d.exponent).toNat)

theorem codeOfUnits_le (num den : Nat) : codeOfUnits num den ≤ infinityCode :=
  Nat.min_le_right _ _

theorem codeOfDecimal_le (d : Decimal) : codeOfDecimal d ≤ infinityCode := by
  simp only [codeOfDecimal]
  split
  · exact Nat.zero_le _
  · split
    · exact Nat.le_refl _
    · split
      · exact Nat.zero_le _
      · exact codeOfUnits_le _ _

theorem infinityCode_lt : infinityCode < Nat.pow 2 63 := by decide

def ofDecimal (negative : Bool) (d : Decimal) : Binary64 where
  negative := negative
  code := codeOfDecimal d
  code_lt := Nat.lt_of_le_of_lt (codeOfDecimal_le d) infinityCode_lt

def infinity (negative : Bool) : Binary64 where
  negative := negative
  code := infinityCode

def nan : Binary64 where
  negative := false
  code := infinityCode + Nat.pow 2 51

def equal (x y : Binary64) : Bool :=
  !x.isNaN && !y.isNaN && x.code == y.code && (x.negative == y.negative || x.code == 0)

def bits (x : Binary64) : Nat :=
  (if x.negative then Nat.pow 2 63 else 0) + x.code

def readExponent? : List Char → Option Int
  | [] => some 0
  | c :: cs =>
    if c = 'e' ∨ c = 'E' then
      let negative := cs.head? = some '-'
      let ds := if cs.head? = some '-' ∨ cs.head? = some '+' then cs.tail else cs
      if ds.isEmpty || !ds.all Char.isDigit then none
      else some (if negative then -(numeralValue ds : Int) else numeralValue ds)
    else none

def readDecimal? (cs : List Char) : Option Decimal := do
  let whole := cs.takeWhile Char.isDigit
  let rest := cs.dropWhile Char.isDigit
  let (fraction, rest) :=
    if rest.head? = some '.' then
      (rest.tail.takeWhile Char.isDigit, rest.tail.dropWhile Char.isDigit)
    else ([], rest)
  let exponent ← readExponent? rest
  if whole.isEmpty && fraction.isEmpty then none
  else some ⟨numeralValue (whole ++ fraction), exponent - fraction.length⟩

def readUnsigned? (negative : Bool) (cs : List Char) : Option Binary64 :=
  match String.ofList (cs.map Char.toLower) with
  | "inf" | "infinity" => some (infinity negative)
  | "nan" => some { nan with negative := negative }
  | _ => (readDecimal? cs).map (ofDecimal negative)

def read? : List Char → Option Binary64
  | '-' :: cs => readUnsigned? true cs
  | '+' :: cs => readUnsigned? false cs
  | cs => readUnsigned? false cs

end Binary64

end BrilIR
