import BrilIR.Op.Basic

/-!
Trees made by hand. The nodes of a draft are numbered and hold each other by number, so one node can
stand in many places, and a change to it shows in all of them. `op?` unfolds a node into a tree.
-/

namespace BrilIR

namespace Draft

structure OperationNode where
  operation : Operation := {}
  region : Option Nat := none
deriving DecidableEq, Inhabited

structure OpNode where
  kind : OpKind
  operation : Nat
deriving DecidableEq

structure BlockNode where
  label : Option String
  ops : List Nat
deriving DecidableEq

end Draft

/-- Numbered nodes. A region is the list of the numbers of its blocks. -/
structure Draft where
  operations : Array Draft.OperationNode := #[]
  ops : Array Draft.OpNode := #[]
  blocks : Array Draft.BlockNode := #[]
  regions : Array (List Nat) := #[]
deriving DecidableEq, Inhabited

namespace Draft

def addOperation (d : Draft) (o : OperationNode) : Draft :=
  { d with operations := d.operations.push o }

def addBlock (d : Draft) (b : BlockNode) : Draft :=
  { d with blocks := d.blocks.push b }

def addRegion (d : Draft) (blocks : List Nat) : Draft :=
  { d with regions := d.regions.push blocks }

def modifyOperation (d : Draft) (i : Nat) (f : OperationNode → OperationNode) : Draft :=
  { d with operations := d.operations.modify i f }

def addOp (d : Draft) (kind : OpKind) (operation : Nat) : Draft :=
  let d := d.modifyOperation operation fun o =>
    { o with operation := { o.operation with name := kind.name } }
  { d with ops := d.ops.push ⟨kind, operation⟩ }

/-- Adds an op over an operation, which keeps its name. -/
def addUnnamedOp (d : Draft) (kind : OpKind) (operation : Nat) : Draft :=
  { d with ops := d.ops.push ⟨kind, operation⟩ }

def addModule (d : Draft) (ops : List Nat) : Draft :=
  let d := d.addBlock ⟨none, ops⟩
  let d := d.addRegion [d.blocks.size - 1]
  let d := d.addOperation { region := some (d.regions.size - 1) }
  d.addOp .moduleOp (d.operations.size - 1)

def pushOp (d : Draft) (block op : Nat) : Draft :=
  { d with blocks := d.blocks.modify block fun b => { b with ops := b.ops ++ [op] } }

def pushBlock (d : Draft) (region block : Nat) : Draft :=
  { d with regions := d.regions.modify region (· ++ [block]) }

def blockOf? (d : Draft) (op : Nat → Option Op) (i : Nat) : Option Block := do
  let b ← d.blocks[i]?
  return .mk b.label (← b.ops.mapM op)

def regionOf? (d : Draft) (op : Nat → Option Op) (i : Nat) : Option Region := do
  (← d.regions[i]?).mapM (d.blockOf? op)

def opWithin? (d : Draft) : Nat → Nat → Option Op
  | 0, _ => none
  | depth + 1, i => do
    let node ← d.ops[i]?
    let o ← d.operations[node.operation]?
    match o.region with
    | none => return .mk node.kind o.operation none
    | some r => return .mk node.kind o.operation (some (← d.regionOf? (d.opWithin? depth) r))

/-- The tree of an op. On a path that meets no op twice there are no more ops than in the draft. -/
def op? (d : Draft) (i : Nat) : Option Op :=
  d.opWithin? d.ops.size i

def block? (d : Draft) (i : Nat) : Option Block := d.blockOf? d.op? i

def region? (d : Draft) (i : Nat) : Option Region := d.regionOf? d.op? i

def operation? (d : Draft) (i : Nat) : Option (Operation × Option Region) := do
  let o ← d.operations[i]?
  match o.region with
  | none => return (o.operation, none)
  | some r => return (o.operation, some (← d.region? r))

end Draft

end BrilIR
