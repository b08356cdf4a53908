import BrilIR.Proofs.Tree.Unlocated
import BrilIR.Verify.Pass

/-! Verification finds the same faults wherever the ops of a tree stand. -/

namespace BrilIR

def Diagnostic.unlocated (d : Diagnostic) : Diagnostic := { d with location := none }

variable {o : Operation}

namespace OpKind

theorem countFindings_located (a : Arity) (what : String) (n : Nat) :
    countFindings (o.located none) a what n = (countFindings o a what n).map .unlocated := by
  unfold countFindings
  cases a.complaint? what n <;> rfl

theorem attributeFindings_located :
    attributeFindings (o.located none) = fun key => (attributeFindings o key).map .unlocated := by
  funext key
  have ha : (o.located none).attributes = o.attributes := rfl
  unfold attributeFindings
  rw [ha]
  by_cases h : o.attributes.contains key = true
  · rw [if_pos h, if_pos h]
    rfl
  · rw [if_neg h, if_neg h]
    rfl

theorem structureFindings_located (kind : OpKind) :
    kind.structureFindings (o.located none) = (kind.structureFindings o).map .unlocated := by
  simp only [structureFindings, countFindings_located, attributeFindings_located, List.map_append,
    List.map_flatMap]
  rfl

end OpKind

namespace Operation

theorem pointeeFindings_located (pointer moved : Ty) (mismatch : String) :
    (o.located none).pointeeFindings pointer moved mismatch =
      (o.pointeeFindings pointer moved mismatch).map .unlocated := by
  unfold pointeeFindings
  cases pointer.pointee? with
  | none => rfl
  | some t => by_cases h : t = moved <;> simp only [h, if_true, if_false] <;> rfl

theorem loadFindings_located : (o.located none).loadFindings = o.loadFindings.map .unlocated := by
  have ho : (o.located none).operandTypes = o.operandTypes := rfl
  have hr : (o.located none).resultTypes = o.resultTypes := rfl
  unfold loadFindings
  rw [OpKind.structureFindings_located, ho, hr]
  cases OpKind.structureFindings (.instr .load) o with
  | cons d ds => rfl
  | nil =>
    cases o.operandTypes with
    | nil => rfl
    | cons pointer _ =>
      cases o.resultTypes with
      | nil => rfl
      | cons moved _ => exact pointeeFindings_located pointer moved _

theorem storeFindings_located :
    (o.located none).storeFindings = o.storeFindings.map .unlocated := by
  have ho : (o.located none).operandTypes = o.operandTypes := rfl
  unfold storeFindings
  rw [OpKind.structureFindings_located, ho]
  cases OpKind.structureFindings (.instr .store) o with
  | cons d ds => rfl
  | nil =>
    match o.operandTypes with
    | [] => rfl
    | [_] => rfl
    | pointer :: moved :: _ => exact pointeeFindings_located pointer moved _

end Operation

namespace Signature

variable {s : Signature}

theorem typeFindings_located (n : Nat) (as es : List Ty) :
    s.typeFindings (o.located none) n as es = (s.typeFindings o n as es).map .unlocated := by
  induction as generalizing n es with
  | nil => rfl
  | cons a as ih =>
    cases es with
    | nil => rfl
    | cons e es =>
      simp only [typeFindings, ih]
      by_cases h : a = e
      · rw [if_pos h, if_pos h]
      · rw [if_neg h, if_neg h]
        rfl

theorem returnFindings_located :
    s.returnFindings (o.located none) = (s.returnFindings o).map .unlocated := by
  have h : (o.located none).operands = o.operands := rfl
  have ht : (o.located none).operandTypes = o.operandTypes := rfl
  unfold returnFindings
  rw [h, ht]
  by_cases hl : o.operands.length = s.returns.length
  · rw [if_pos hl, if_pos hl, typeFindings_located]
  · rw [if_neg hl, if_neg hl]
    rfl

theorem returnsFindings_unlocated (name : String) (ops : List Op) :
    s.returnsFindings name (ops.map Op.unlocated) =
      (s.returnsFindings name ops).map .unlocated := by
  unfold returnsFindings
  have hname : (fun op : Op => op.name == name) ∘ Op.unlocated = fun op => op.name == name := by
    funext op
    simp [Op.name, Op.operation_unlocated, Operation.located]
  rw [List.filter_map, hname, List.flatMap_map, List.map_flatMap]
  congr 1
  funext op
  rw [Op.operation_unlocated, returnFindings_located]

end Signature

theorem Op.children_unlocated (op : Op) : op.unlocated.children = op.children.map Op.unlocated := by
  obtain ⟨kind, o, r⟩ := op
  cases r with
  | none => rfl
  | some r => exact Region.ops_unlocated r

theorem Op.headFindings_unlocated (op : Op) :
    op.unlocated.headFindings = op.headFindings.map .unlocated := by
  have hs : op.unlocated.structureFindings = op.structureFindings.map .unlocated := by
    simp only [structureFindings, kind_unlocated, operation_unlocated,
      OpKind.structureFindings_located]
  have ho : op.unlocated.ownFindings = op.ownFindings.map .unlocated := by
    unfold ownFindings
    rw [kind_unlocated, operation_unlocated, children_unlocated]
    split
    · exact Signature.returnsFindings_unlocated _ _
    · exact Operation.loadFindings_located
    · exact Operation.storeFindings_located
    · rfl
  unfold headFindings
  rw [hs]
  cases op.structureFindings with
  | nil => exact ho
  | cons d ds => rfl

theorem Block.terminatorFindings_unlocated (ops : List Op) :
    terminatorFindings (Block.unlocated ops) = (terminatorFindings ops).map .unlocated := by
  have hkind : (fun op : Op => op.kind.isTerminator) ∘ Op.unlocated =
      fun op => op.kind.isTerminator := by
    funext op
    simp [Op.kind_unlocated]
  unfold terminatorFindings
  rw [Block.unlocated_eq_map, ← List.map_dropLast, List.filter_map, hkind, List.map_map,
    List.map_map]
  refine List.map_congr_left fun op _ => ?_
  simp only [Function.comp, Op.operation_unlocated]
  rfl

mutual

/-- The findings of a tree without places are the findings of the tree without places. -/
theorem Op.findings_unlocated : (op : Op) → op.unlocated.findings = op.findings.map .unlocated
  | .mk kind o none => Op.headFindings_unlocated (.mk kind o none)
  | .mk kind o (some r) => by
    have h := Op.headFindings_unlocated (.mk kind o (some r))
    simp only [Op.unlocated] at h ⊢
    simp only [Op.findings, h, Region.findings_unlocated r, List.map_append]

theorem Region.findings_unlocated : (r : List Block) →
    Region.findings (Region.unlocated r) = (Region.findings r).map .unlocated
  | [] => rfl
  | .mk label ops :: r => by
    simp only [Region.unlocated, Region.findings, Block.terminatorFindings_unlocated,
      Block.findings_unlocated ops, Region.findings_unlocated r, List.map_append]

theorem Block.findings_unlocated : (ops : List Op) →
    Block.findings (Block.unlocated ops) = (Block.findings ops).map .unlocated
  | [] => rfl
  | op :: ops => by
    simp only [Block.unlocated, Block.findings, Op.findings_unlocated op,
      Block.findings_unlocated ops, List.map_append]

end

theorem Op.findings_of_unlocated {op op' : Op} (h : op'.unlocated = op.unlocated) :
    op'.findings.map Diagnostic.unlocated = op.findings.map .unlocated := by
  rw [← findings_unlocated, h, findings_unlocated]

end BrilIR
