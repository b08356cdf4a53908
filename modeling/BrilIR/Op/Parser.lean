import BrilIR.Attribute.Parser
import BrilIR.Op.Basic

/-!
Reading ops. Instructions share one form; modules, functions and ops that return have forms of
their own. Regions hold ops again, so the parser of ops is built up by how deep they may nest.
-/

namespace BrilIR

namespace Op

open BrilIR.Parser

def parseOperand : Parser (Token × Value) := do
  let t ← expect .percentIdentifier
  match (← get).lookup? t.lexeme with
  | some v => return (t, v)
  | none => failAt t (.undeclaredValue t.lexeme)

def parseOperands : Parser (List (Token × Value)) :=
  ifNext .percentIdentifier (commaSeparated parseOperand) []

def typeClash? : List (Token × Value) → List Ty → Option (Token × ParseError.Cause)
  | (t, v) :: uses, written :: types =>
    if v.type = written then typeClash? uses types
    else some (t, .operandType t.lexeme written v.type)
  | _, _ => none

def checkOperandTypes (uses : List (Token × Value)) (types : List Ty) : Parser (List Value) := do
  require (uses.length = types.length) (← get).previous (.operandCount uses.length types.length)
  match typeClash? uses types with
  | some (t, cause) => failAt t cause
  | none => return uses.map (·.2)

def parseResultNames : Parser (List Token) :=
  ifNext .percentIdentifier (do
    let names ← commaSeparated (expect .percentIdentifier)
    discard (expect .equal)
    return names) []

def parseSuccessors : Parser (List String) := do
  discard (expect .lbracket)
  listUntil .rbracket do return (← expect .caretIdentifier).lexeme

def defineResults : List Token → List Ty → Parser (List Value)
  | t :: names, type :: types => do
    let v := Value.result t.lexeme type
    define t v
    return v :: (← defineResults names types)
  | _, _ => return []

def parseGeneric (kind : OpKind) : Parser Op := do
  -- an op is at its first token, which is a result name if there is one
  let first ← peek
  let names ← parseResultNames
  let name ← expect .string
  require (trimQuotes name.lexeme = kind.name) name (.wrongOperation kind.name)
  -- told here and not at the end, so a form that fails further on is in the log too
  modify fun s => { s with begun := kind.name :: s.begun }
  discard (expect .lparen)
  let uses ← parseOperands
  discard (expect .rparen)
  let successors ← ifNext .lbracket parseSuccessors []
  let attributes ← ifNext .lbrace Attributes.parse ∅
  discard (expect .colon)
  let operands ← checkOperandTypes uses (← Ty.parseList)
  discard (expect .arrow)
  let resultTypes ← Ty.parseResults
  require (names.length = resultTypes.length) name
    (.resultCount resultTypes.length names.length)
  let results ← defineResults names resultTypes
  return ofOperation kind
    { location := some first.location, operands, attributes, results, successors } none

def parseReturnTypes (uses : List (Token × Value)) : Parser (List Ty) := do
  if uses.isEmpty then return []
  else
    discard (expect .colon)
    commaSeparated Ty.parse

def parseReturn (kind : OpKind) : Parser Op := do
  let first ← peek
  keyword kind.name
  let uses ← parseOperands
  let types ← parseReturnTypes uses
  let operands ← checkOperandTypes uses types
  return ofOperation kind { location := some first.location, operands } none

end Op

namespace Region

open BrilIR.Parser

def parseLabel (labels : List String) : Parser (Option String) :=
  ifNext .caretIdentifier (do
    let t ← expect .caretIdentifier
    discard (expect .colon)
    require (labels.contains t.lexeme = false) t (.redefinedBlock t.lexeme)
    return some t.lexeme) none

def blockEnds (s : ParserState) : Bool :=
  s.check .rbrace || s.check .caretIdentifier || s.isAtEnd

def parseBlock (op : Parser Op) (blocks : List Block) : Parser (List Block) := do
  require ((← get).isAtEnd = false) (← peek) .openRegion
  let label ← parseLabel (blocks.filterMap Block.label)
  let ops ← repeatUntil blockEnds (fun ops => return ops ++ [← op]) []
  return blocks ++ [.mk label ops]

def undefinedSuccessor? (r : List Block) : Option (Option Location × String) :=
  let labels := r.filterMap Block.label
  (Region.ops r).findSome? fun op =>
    (op.operation.successors.find? (!labels.contains ·)).map (op.operation.location, ·)

/-- Reads a region, given how to read an op. Its ops share one scope, and its labels are known to
all of them. -/
def parse (op : Parser Op) : Parser Region := do
  discard (expect .lbrace)
  pushScope
  let blocks ← repeatUntil (·.check .rbrace) (parseBlock op) []
  discard (expect .rbrace)
  popScope
  -- labels can be used in front of their blocks, so they are looked up at the end only
  match undefinedSuccessor? blocks with
  | some (location, label) => throw ⟨.undefinedBlock label, location⟩
  | none => return blocks

end Region

namespace Op

open BrilIR.Parser

def parseModule (op : Parser Op) : Parser Op := do
  let first ← peek
  keyword OpKind.moduleOp.name
  let r ← Region.parse op
  return ofOperation .moduleOp { location := some first.location } (some r)

def parseArgument : Parser Value := do
  let t ← expect .percentIdentifier
  discard (expect .colon)
  let v := Value.argument t.lexeme (← Ty.parse)
  define t v
  return v

/-- Reads a function, given how to read an op. The parameters have a scope around the body. -/
def parseFunc (op : Parser Op) (style : FuncStyle) : Parser Op := do
  let first ← peek
  keyword style.name
  let identifier := trimAt (← expect .atIdentifier).lexeme
  pushScope
  discard (expect .lparen)
  let arguments ← listUntil .rparen parseArgument
  let returns ← ifNext .arrow (do discard (expect .arrow); Ty.parseResults) []
  let region ← ifNext .lbrace (some <$> Region.parse op) none
  popScope
  return ofOperation (.funcOp style { identifier := some identifier, returns })
    { location := some first.location, arguments } region

def parseKind (op : Parser Op) : OpKind → Parser Op
  | .moduleOp => parseModule op
  | .funcOp style _ => parseFunc op style
  | .returnOp => parseReturn .returnOp
  | .instr i => parseGeneric (.instr i)

/-- Reads an op, whose name tells what kind it is of, given how to read the ops inside. -/
def parseStep (op : Parser Op) : Parser Op := do
  let t := (← get).peekOpName
  match OpKind.ofName? (trimQuotes t.lexeme) with
  | some kind => parseKind op kind
  | none => failAt t (.unknownOperation (trimQuotes t.lexeme))

/-- Reads an op that holds fewer than `n` regions inside one another. Where no token is ahead there
is none. -/
def parseWithin : Nat → Parser Op
  | 0 => do
    let t ← peek
    failAt t (.unknownOperation (trimQuotes t.lexeme))
  | n + 1 => parseStep (parseWithin n)

def parse : Parser Op := fun s => parseWithin s.ahead.length s

def parseAll : Parser (List Op) :=
  repeatUntil (·.isAtEnd) (fun ops => return ops ++ [← parse]) []

/-- What the ops of a source stand for: one module for itself, anything else for a module of it. -/
def ofTopLevel : List Op → Op
  | [.mk .moduleOp o r] => .mk .moduleOp o r
  | ops => moduleOf ops

end Op

end BrilIR
