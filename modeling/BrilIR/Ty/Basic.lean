import BrilIR.Decimal.Numeral

/-! The types of values: integers by width, floating point numbers, and pointers. -/

namespace BrilIR

inductive FloatTy where
  | f16
  | f32
  | f64
deriving DecidableEq, Repr

namespace FloatTy

def text : FloatTy → String
  | f16 => "f16"
  | f32 => "f32"
  | f64 => "f64"

end FloatTy

/-- A type. The sign of an integer is no part of its type. -/
inductive Ty where
  | int (width : UInt32)
  | float (format : FloatTy)
  | ptr (pointee : Ty)
deriving DecidableEq, Repr

inductive TyTextError where
  | notInteger (text : String)
  | width (e : NumeralError)
  | zeroWidth (text : String)
  | notFloat (text : String)
deriving DecidableEq, Repr

def TyTextError.message : TyTextError → String
  | notInteger s => "Expected integer type, got " ++ s
  | width e => e.message
  | zeroWidth s => "Integer type must have a width, got " ++ s
  | notFloat s => "Expected float type, got " ++ s

namespace Ty

def text : Ty → String
  | int width => "i" ++ toString width.toNat
  | float format => format.text
  | ptr pointee => "!bril.ptr<" ++ pointee.text ++ ">"

def listText (ts : List Ty) : String :=
  ", ".intercalate (ts.map text)

/-- Reads the letter i and a width of at least one that fits into 32 bits. -/
def intOfText (s : String) : Except TyTextError Ty :=
  match s.toList with
  | 'i' :: ds =>
    match readNumeral (UInt32.size - 1) ds with
    | .error e => .error (.width e)
    | .ok 0 => .error (.zeroWidth s)
    | .ok n => .ok (.int (.ofNat n))
  | _ => .error (.notInteger s)

def floatOfText (s : String) : Except TyTextError Ty :=
  match [FloatTy.f16, .f32, .f64].find? (·.text == s) with
  | some format => .ok (.float format)
  | none => .error (.notFloat s)

def pointee? : Ty → Option Ty
  | ptr t => some t
  | _ => none

end Ty

end BrilIR
