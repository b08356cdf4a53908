import BrilIR.Diagnostic.Collector
import BrilIR.Verify.Pointer
import BrilIR.Verify.Returns

/-!
Verification of a whole tree. The rules that an op alone breaks come first, then block by block the
misplaced terminators and the ops of the block. The rules of one kind of op are tried only on ops
that keep those for all kinds.
-/

namespace BrilIR

namespace Op

def structureFindings (op : Op) : List Diagnostic :=
  op.kind.structureFindings op.operation

def ownFindings (op : Op) : List Diagnostic :=
  match op.kind with
  | .funcOp style signature => signature.returnsFindings style.returnName op.children
  | .instr .load => op.operation.loadFindings
  | .instr .store => op.operation.storeFindings
  | _ => []

def headFindings (op : Op) : List Diagnostic :=
  match op.structureFindings with
  | [] => op.ownFindings
  | found => found

end Op

/-- A pass under way: the diagnostics so far, and the names of the ops that had their turn, latest
first. -/
structure Pass where
  diagnostics : Diagnostics
  visited : List String := []
deriving DecidableEq, Repr

namespace Pass

def report (p : Pass) (ds : List Diagnostic) : Pass :=
  { p with diagnostics := p.diagnostics.pushAll ds }

def enter (p : Pass) (op : Op) : Pass :=
  { p with visited := Operation.displayName op.name :: p.visited }

end Pass

mutual

/-- Verifies an op and all ops below it, unless no more diagnostics are kept. -/
def Op.verifyFrom (p : Pass) : Op → Pass
  | .mk kind o none =>
    if p.diagnostics.isFull then p
    else (p.enter (.mk kind o none)).report (Op.headFindings (.mk kind o none))
  | .mk kind o (some r) =>
    if p.diagnostics.isFull then p
    else Region.verifyFrom
      ((p.enter (.mk kind o (some r))).report (Op.headFindings (.mk kind o (some r)))) r

def Region.verifyFrom (p : Pass) : List Block → Pass
  | [] => p
  | .mk _ ops :: r =>
    Region.verifyFrom (Block.verifyFrom (p.report (Block.terminatorFindings ops)) ops) r

def Block.verifyFrom (p : Pass) : List Op → Pass
  | [] => p
  | op :: ops => Block.verifyFrom (op.verifyFrom p) ops

end

/-- Verifies a tree, keeping at most `limit` diagnostics; zero stands for no limit. -/
def Op.verify (limit : Nat) (op : Op) : Diagnostics :=
  (op.verifyFrom ⟨{ limit }, []⟩).diagnostics

mutual

def Op.findings : Op → List Diagnostic
  | .mk kind o none => Op.headFindings (.mk kind o none)
  | .mk kind o (some r) => Op.headFindings (.mk kind o (some r)) ++ Region.findings r

def Region.findings : List Block → List Diagnostic
  | [] => []
  | .mk _ ops :: r => Block.terminatorFindings ops ++ Block.findings ops ++ Region.findings r

def Block.findings : List Op → List Diagnostic
  | [] => []
  | op :: ops => op.findings ++ Block.findings ops

end

end BrilIR
