import BrilIR.Attribute.Dictionary
import BrilIR.Op.Kind
import BrilIR.Text.Location
import BrilIR.Value

/-!
The tree of ops. An operation is the data that every op has; an op adds what it is and the region
it holds. A region is a list of blocks. Nothing here keeps a tree from being ill-formed: finding
that out is the business of verification.
-/

namespace BrilIR

/-- The data that every op has. Operations made by hand have no location. -/
structure Operation where
  name : String := ""
  location : Option Location := none
  arguments : List Value := []
  operands : List Value := []
  attributes : Attributes := ∅
  results : List Value := []
  successors : List String := []
deriving DecidableEq, Inhabited

namespace Operation

def displayName (name : String) : String :=
  if name.isEmpty then "<unknown>" else name

def operandTypes (o : Operation) : List Ty := o.operands.map (·.type)

def resultTypes (o : Operation) : List Ty := o.results.map (·.type)

end Operation

mutual

inductive Op where
  | mk (kind : OpKind) (operation : Operation) (region : Option (List Block))

inductive Block where
  | mk (label : Option String) (ops : List Op)

end

abbrev Region := List Block

namespace Block

def label : Block → Option String
  | mk label _ => label

def ops : Block → List Op
  | mk _ ops => ops

end Block

namespace Op

def kind : Op → OpKind
  | mk kind _ _ => kind

def operation : Op → Operation
  | mk _ operation _ => operation

def region : Op → Option Region
  | mk _ _ region => region

def ofOperation (kind : OpKind) (o : Operation) (region : Option Region) : Op :=
  mk kind { o with name := kind.name } region

def moduleOf (ops : List Op) : Op :=
  ofOperation .moduleOp {} (some [.mk none ops])

end Op

namespace Region

def ops (r : Region) : List Op := r.flatMap Block.ops

end Region

namespace Op

def name (op : Op) : String := op.operation.name

def children (op : Op) : List Op :=
  match op.region with
  | none => []
  | some r => Region.ops r

/-- What stands for the first op of a module that has none. -/
def noFirstOp : String := "Expected 1 op in module, got 0"

/-- The op reached by going down to the child of each number in turn. -/
def descend? (op : Op) : List Nat → Option Op
  | [] => some op
  | n :: path => do (← op.children[n]?).descend? path

end Op

mutual

/-- The op and all ops below it in the order of the text, each with its depth. -/
def Op.preorder (depth : Nat) : Op → List (Nat × Op)
  | .mk kind o none => [(depth, .mk kind o none)]
  | .mk kind o (some r) => (depth, .mk kind o (some r)) :: Region.preorder (depth + 1) r

def Region.preorder (depth : Nat) : List Block → List (Nat × Op)
  | [] => []
  | .mk _ ops :: r => Block.preorder depth ops ++ Region.preorder depth r

def Block.preorder (depth : Nat) : List Op → List (Nat × Op)
  | [] => []
  | op :: ops => op.preorder depth ++ Block.preorder depth ops

end

end BrilIR
