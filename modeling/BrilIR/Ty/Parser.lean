import BrilIR.Parser.Basic

/-! Reading types. -/

namespace BrilIR

namespace Ty

open BrilIR.Parser

def ofToken (type : Except TyTextError Ty) : Parser Ty :=
  match type with
  | .ok t => return t
  | .error e => failBare (.typeText e)

def pointerRest (type : Parser Ty) : Parser Ty := do
  discard (expect .less)
  let pointee ← type
  discard (expect .greater)
  return .ptr pointee

/-- Reads a type, given how to read the type that a pointer points to. -/
def parseStep (type : Parser Ty) : Parser Ty := do
  let t ← peek
  match t.kind with
  | .intType => ofToken (intOfText (← expect .intType).lexeme)
  | .floatType => ofToken (floatOfText (← expect .floatType).lexeme)
  | .exclamation =>
    discard (expect .exclamation)
    let name ← expect .bareIdentifier
    if name.lexeme = "bril.ptr" then pointerRest type
    else failAt name (.unknownType name.lexeme)
  | _ => failAt t (.noType t.lexeme)

/-- Reads a type with fewer than `n` pointers around it. Where no token is ahead there is none. -/
def parseWithin : Nat → Parser Ty
  | 0 => do
    let t ← peek
    failAt t (.noType t.lexeme)
  | n + 1 => parseStep (parseWithin n)

def parse : Parser Ty := fun s => parseWithin s.ahead.length s

def parsePointer : Parser Ty := pointerRest parse

def parseList : Parser (List Ty) := do
  discard (expect .lparen)
  listUntil .rparen parse

def parseResults : Parser (List Ty) := do
  if ← check .lparen then parseList
  else
    let t ← parse
    return [t]

end Ty

end BrilIR
