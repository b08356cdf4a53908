import BrilIR.Proofs.Grammar.Tree
import BrilIR.Proofs.Printing.Attribute
import Mathlib.Computability.Language

/-!
The grammar as languages of tokens. Each syntactic class has one production, and nothing in it looks
at the tokens that follow. The productions carry what they stand for, so that the conditions that
are not context free can be put on the tree.
-/

namespace BrilIR

open Token

namespace Production

def one (p : Token → Prop) : Language Token := {us | ∃ t, us = [t] ∧ p t}

/-- A token of the kind, whatever its text. -/
def mark (kind : Kind) : Language Token := one fun t => t.kind = kind

/-- A token of the kind with the given text. -/
def word (kind : Kind) (w : String) : Language Token := one fun t => t.kind = kind ∧ t.lexeme = w

def optional (absent : Prop) (l : Language Token) : Language Token :=
  {us | absent ∧ us = [] ∨ us ∈ l}

def separated : List (Language Token) → Language Token
  | [] => 0
  | [l] => l
  | l :: ls => l * (mark .comma * separated ls)

/-- Items with commas between them, or none. One more comma may stand behind the last item. -/
def listed : List (Language Token) → Language Token
  | [] => 1
  | ls => separated ls * (1 + mark .comma)

def number (kind : Kind) (stands : Bool → String → Prop) : Language Token :=
  mark .minus * one (fun t => t.kind = kind ∧ stands true t.lexeme) +
    one fun t => t.kind = kind ∧ stands false t.lexeme

end Production

open Production

def Ty.tokens : Ty → Language Token
  | int width => one fun t => t.kind = .intType ∧ width ≠ 0 ∧
      ∃ ds, t.lexeme.toList = 'i' :: ds ∧ Digits ds ∧ numeralValue ds = width.toNat
  | float format => word .floatType format.text
  | ptr pointee => mark .exclamation * (word .bareIdentifier "bril.ptr" * (mark .less *
      (pointee.tokens * mark .greater)))

def Ty.listTokens (types : List Ty) : Language Token :=
  mark .lparen * (listed (types.map tokens) * mark .rparen)

def Ty.resultTokens : List Ty → Language Token
  | [t] => t.tokens + listTokens [t]
  | types => listTokens types

def Attribute.tokens : Attribute → Language Token
  | .int value u => number .integer (fun negative w => value.toInt =
      if negative then -(numeralValue w.toList : Int) else numeralValue w.toList) *
      (mark .colon * u.tokens)
  | .float value u => number .floatLiteral (fun negative w =>
      Binary64.read? ((if negative then "-" else "") ++ w).toList = some value) *
      (mark .colon * u.tokens)
  | .bool b => mark (if b then .kwTrue else .kwFalse)
  | .string s => one fun t => t.kind = .string ∧ trimQuotes t.lexeme = s
  | .symbol s => one fun t => t.kind = .atIdentifier ∧ trimAt t.lexeme = s
  | .type u => u.tokens

def Attributes.entryTokens (e : String × Attribute) : Language Token :=
  word .bareIdentifier e.1 * (mark .equal * e.2.tokens)

/-- Entries in braces, in any order, whose keys differ. -/
def Attributes.tokens (d : Attributes) : Language Token :=
  {us | ∃ es, (es.map (·.1)).Nodup ∧ d = ofList es ∧
    us ∈ mark .lbrace * (listed (es.map entryTokens) * mark .rbrace)}

namespace Operation

def nameTokens (vs : List Value) : Language Token :=
  separated ((vs.map Value.name).map (word .percentIdentifier))

def argumentTokens (v : Value) : Language Token :=
  word .percentIdentifier v.name * (mark .colon * v.type.tokens)

def successorTokens (labels : List String) : Language Token :=
  mark .lbracket * (listed (labels.map (word .caretIdentifier)) * mark .rbracket)

/-- The form of instructions: results, the quoted name, operands, successors, attributes and the
types of operands and results. -/
def genericTokens (name : String) (o : Operation) : Language Token :=
  optional (o.results = []) (nameTokens o.results * mark .equal) *
  (word .string ("\"" ++ name ++ "\"") * (mark .lparen *
  (optional (o.operands = []) (nameTokens o.operands) * (mark .rparen *
  (optional (o.successors = []) (successorTokens o.successors) *
  (optional (o.attributes = ∅) o.attributes.tokens * (mark .colon *
  (Ty.listTokens o.operandTypes * (mark .arrow * Ty.resultTokens o.resultTypes)))))))))

def returnTokens (name : String) (o : Operation) : Language Token :=
  word .bareIdentifier name * optional (o.operands = [])
    (nameTokens o.operands * (mark .colon * separated (o.operandTypes.map Ty.tokens)))

def funcTokens (name : String) (signature : Signature) (o : Operation) : Language Token :=
  word .bareIdentifier name *
  (one (fun t => t.kind = .atIdentifier ∧ signature.identifier = some (trimAt t.lexeme)) *
  (mark .lparen * (listed (o.arguments.map argumentTokens) * (mark .rparen *
  optional (signature.returns = []) (mark .arrow * Ty.resultTokens signature.returns)))))

end Operation

def OpKind.formTokens (kind : OpKind) (o : Operation) : Language Token :=
  match kind with
  | moduleOp => word .bareIdentifier kind.name
  | funcOp _ signature => o.funcTokens kind.name signature
  | returnOp => o.returnTokens kind.name
  | instr _ => o.genericTokens kind.name

/-- The form of an op, which says all that is known of the op and begins at its place. -/
def OpKind.headTokens (kind : OpKind) (o : Operation) : Language Token :=
  {us | o.name = kind.name ∧ kind.Shows o ∧ o.location = us.head?.map (·.location) ∧
    us ∈ kind.formTokens o}

/-- The label of a block. The first block of a region has none if ops stand in front of all
labels. -/
def Block.labelTokens (first : Bool) : Option String → List Op → Language Token
  | some label, _ => word .caretIdentifier label * mark .colon
  | none, [] => 0
  | none, _ :: _ => if first then 1 else 0

mutual

def Op.tokens : Op → Language Token
  | .mk kind o none => {us | kind ≠ .moduleOp ∧ us ∈ kind.headTokens o}
  | .mk kind o (some r) => {us | kind.TakesRegion ∧
      us ∈ kind.headTokens o * (mark .lbrace * (Region.tokens true r * mark .rbrace))}

/-- Blocks one after another, where `first` says whether no block is in front of them. -/
def Region.tokens (first : Bool) : List Block → Language Token
  | [] => 1
  | .mk label ops :: r =>
    Block.labelTokens first label ops * (Block.tokens ops * Region.tokens false r)

def Block.tokens : List Op → Language Token
  | [] => 1
  | op :: ops => op.tokens * Block.tokens ops

end

/-! The conditions that are not context free. -/

mutual

/-- Each name that is used is in scope, each that is introduced is new, and the labels of a region
differ and are all that its ops go to. -/
def Op.Fits (σ : List Scope) : Op → Prop
  | .mk _ o none => o.Scoped σ
  | .mk kind o (some r) => o.Scoped σ ∧ Region.Linked r ∧ Region.Fits (kind.inner σ o) r

def Region.Fits (σ : List Scope) : List Block → Prop
  | [] => True
  | .mk _ ops :: r => Block.Fits σ ops ∧ Region.Fits (Scope.extend σ (Block.results ops)) r

def Block.Fits (σ : List Scope) : List Op → Prop
  | [] => True
  | op :: ops => op.Fits σ ∧ Block.Fits (Scope.extend σ op.operation.results) ops

end

end BrilIR
