import BrilIR.Op.Basic

/-!
The textual form of ops. `Op.textAt` writes an op for a line of the given depth, without the spaces
in front of it; a block goes one level deeper than its op, its label does not.
-/

namespace BrilIR

/-- Two spaces for each level; none for levels below zero. -/
def spaces (indent : Int) : String :=
  String.ofList (List.replicate (2 * indent.toNat) ' ')

def resultsText : List Ty → String
  | [t] => t.text
  | ts => "(" ++ Ty.listText ts ++ ")"

namespace Operation

def genericText (o : Operation) : String :=
  (if o.results.isEmpty then "" else Value.listText o.results ++ " = ") ++
    "\"" ++ displayName o.name ++ "\"(" ++ Value.usesText o.operands ++ ")" ++
    (if o.successors.isEmpty then "" else "[" ++ ", ".intercalate o.successors ++ "]") ++
    o.attributes.text ++ " : (" ++ Ty.listText o.operandTypes ++ ") -> " ++
    resultsText o.resultTypes

def funcText (o : Operation) (signature : Signature) : String :=
  displayName o.name ++ " @" ++ signature.identifier.getD "" ++
    "(" ++ Value.listText o.arguments ++ ")" ++
    (if signature.returns.isEmpty then "" else " -> " ++ resultsText signature.returns) ++
    (if o.attributes.isEmpty then "" else " attributes" ++ o.attributes.text)

def returnText (o : Operation) : String :=
  displayName o.name ++
    (if o.operands.isEmpty then ""
      else " " ++ Value.usesText o.operands ++ " : " ++ Ty.listText o.operandTypes)

end Operation

def OpKind.headText (kind : OpKind) (o : Operation) : String :=
  match kind with
  | .moduleOp => "module"
  | .funcOp _ signature => o.funcText signature
  | .returnOp => o.returnText
  | .instr _ => o.genericText

def OpKind.showsRegion : OpKind → Bool
  | .returnOp => false
  | _ => true

def braced (indent : Int) (blocks : String) : String :=
  " \x7b\n" ++ blocks ++ spaces indent ++ "\x7d"

def labelLine (indent : Int) : Option String → String
  | none => ""
  | some label => spaces (indent - 1) ++ label ++ ":\n"

mutual

def Op.textAt (indent : Int) : Op → String
  | .mk kind o none =>
    kind.headText o ++ (if kind = .moduleOp then " \x7b\n\x7d" else "")
  | .mk kind o (some r) =>
    kind.headText o ++
      (if kind.showsRegion then braced indent (Region.blocksText (indent + 1) r) else "")

def Region.blocksText (indent : Int) : List Block → String
  | [] => ""
  | .mk label ops :: r =>
    labelLine indent label ++ Block.opsText indent ops ++ Region.blocksText indent r

def Block.opsText (indent : Int) : List Op → String
  | [] => ""
  | op :: ops => spaces indent ++ op.textAt indent ++ "\n" ++ Block.opsText indent ops

end

def Op.text (op : Op) : String := op.textAt 0

def Region.textAt (indent : Int) (r : Region) : String :=
  braced indent (Region.blocksText (indent + 1) r)

def Block.textAt (indent : Int) (b : Block) : String :=
  labelLine indent b.label ++ Block.opsText indent b.ops

/-- An operation by itself is shown in the form that every operation has. -/
def Operation.textAt (indent : Int) (o : Operation) (region : Option Region) : String :=
  o.genericText ++ (match region with | none => "" | some r => r.textAt indent)

mutual

def Op.levels : Op → Nat
  | .mk _ _ none => 0
  | .mk kind _ (some r) => if kind.showsRegion then Region.levels r else 0

def Region.levels : List Block → Nat
  | [] => 0
  | .mk _ ops :: r => max (Block.levels ops + 1) (Region.levels r)

def Block.levels : List Op → Nat
  | [] => 0
  | op :: ops => max op.levels (Block.levels ops)

end

/-- Levels are the 32-bit integers, from `-levelBound` to below `levelBound`. -/
def levelBound : Int := Nat.pow 2 31

def fitsLevels (indent : Int) (levels : Nat) : Bool := indent + levels < levelBound

/-- Whether there are levels enough for a block. Its label goes one level out. -/
def Block.fits (indent : Int) (b : Block) : Bool :=
  (b.label.isNone || -levelBound < indent) && fitsLevels indent (Block.levels b.ops)

end BrilIR
