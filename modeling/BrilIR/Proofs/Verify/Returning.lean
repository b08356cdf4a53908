import BrilIR.Proofs.Diagnostic.Collector
import BrilIR.Proofs.Verify.Composition
import BrilIR.Proofs.Verify.Sound
import BrilIR.Proofs.Verify.Verifier

/-!
A function is checked against the ops that return from it: those directly in its blocks, in their
order, each value by value. What is below these ops does not count.
-/

namespace BrilIR

def Region.named (r : Region) (name : String) : List Op :=
  r.flatMap fun b => b.ops.filter (·.name == name)

def Region.bare (r : Region) : Region :=
  r.map fun b => .mk b.label (b.ops.map fun op => .mk op.kind op.operation none)

namespace Signature

def valueFault? (s : Signature) (o : Operation) (i : Nat) : Option Diagnostic :=
  match o.operandTypes[i]?, s.returns[i]? with
  | some actual, some expected =>
    if actual = expected then none
    else some ⟨o.location, o.name, .typeMismatch, s.typeText i actual expected⟩
  | _, _ => none

/-- What is said of an op that returns: that the number of values is wrong, or else which values
are, in their order. -/
def returnFaults (s : Signature) (o : Operation) : List Diagnostic :=
  if o.operandTypes.length = s.returns.length then
    (List.range s.returns.length).filterMap (s.valueFault? o)
  else [⟨o.location, o.name, .counts, s.countText o.operandTypes.length⟩]

section

variable (s : Signature) (o : Operation)

theorem typeFindings_eq_filterMap {as es : List Ty} (h : as.length = es.length) (n : Nat) :
    s.typeFindings o n as es = (List.range es.length).filterMap fun i =>
      match as[i]?, es[i]? with
      | some actual, some expected =>
        if actual = expected then none
        else some ⟨o.location, o.name, .typeMismatch, s.typeText (n + i) actual expected⟩
      | _, _ => none := by
  induction as generalizing n es with
  | nil =>
    cases es with
    | nil => rfl
    | cons e es => cases h
  | cons a as ih =>
    cases es with
    | nil => cases h
    | cons e es =>
      have hl : as.length = es.length := Nat.succ.inj h
      rw [typeFindings, ih hl (n + 1), List.length_cons, List.range_succ_eq_map,
        List.filterMap_cons, List.filterMap_map]
      simp only [List.getElem?_cons_zero, Function.comp_def, List.getElem?_cons_succ,
        Nat.add_zero, Nat.succ_eq_add_one, Nat.add_assoc, Nat.add_comm 1]
      by_cases ha : a = e
      · simp only [ha, if_true]
      · simp only [ha, if_false]
        rfl

theorem returnFindings_eq : s.returnFindings o = s.returnFaults o := by
  have hlength : o.operandTypes.length = o.operands.length := List.length_map _
  unfold returnFindings returnFaults
  rw [hlength]
  by_cases h : o.operands.length = s.returns.length
  · rw [if_pos h, if_pos h, typeFindings_eq_filterMap s o (hlength.trans h)]
    simp only [Nat.zero_add]
    rfl
  · rw [if_neg h, if_neg h]
    rfl

theorem returnFaults_eq_nil_iff : s.returnFaults o = [] ↔ o.operandTypes = s.returns := by
  rw [← returnFindings_eq, returnFindings_eq_nil_iff]

theorem returnsFindings_children (op : Op) (returnName : String) :
    s.returnsFindings returnName op.children =
      (Region.named op.blocks returnName).flatMap fun r => s.returnFaults r.operation := by
  have hfilter : op.children.filter (·.name == returnName) = Region.named op.blocks returnName := by
    unfold Op.children Op.blocks
    cases op.region with
    | none => rfl
    | some r => exact List.filter_flatMap
  unfold returnsFindings
  rw [hfilter]
  simp only [returnFindings_eq]

end

theorem named_bare (r : Region) (name : String) :
    ((Region.named r.bare name).map Op.operation) = (Region.named r name).map Op.operation := by
  unfold Region.named Region.bare
  rw [List.flatMap_map, List.map_flatMap, List.map_flatMap]
  congr 1
  funext b
  simp only [Block.ops]
  rw [List.filter_map, List.map_map]
  rfl

/-- Checking the ops that return from a function goes over those of the name directly in its blocks,
whatever regions they hold, and says of each what there is to say; it passes exactly if all of them
return values of the types that the function returns. -/
theorem verifyReturns_exact (s : Signature) (style : FuncStyle) (o : Operation)
    (region : Option Region) (returnName : String) (kept : List Diagnostic) (dropped : Nat) :
    let function := Op.mk (.funcOp style s) o region
    let returns := Region.named (region.getD []) returnName
    s.verifyReturns returnName function.children ⟨0, kept, dropped⟩ =
        (if ∀ r ∈ returns, r.operation.operandTypes = s.returns then
          .ok () ⟨0, kept, dropped⟩
        else .error .failure
          ⟨0, kept ++ returns.flatMap fun r => s.returnFaults r.operation, dropped⟩) ∧
      s.verifyReturns returnName (Op.mk (.funcOp style s) o (region.map Region.bare)).children =
        s.verifyReturns returnName function.children := by
  intro function returns
  have hfound : s.returnsFindings returnName function.children =
      returns.flatMap fun r => s.returnFaults r.operation :=
    s.returnsFindings_children function returnName
  have hnil : (returns.flatMap fun r => s.returnFaults r.operation) = [] ↔
      ∀ r ∈ returns, r.operation.operandTypes = s.returns := by
    simp only [List.flatMap_eq_nil_iff, returnFaults_eq_nil_iff]
  constructor
  · rw [verifyReturns_eq, Verifier.ofFindings, Diagnostics.pushAll_unlimited, hfound]
    exact if_congr hnil rfl rfl
  · rw [verifyReturns_eq, verifyReturns_eq, hfound, returnsFindings_children]
    have hblocks : (Op.mk (.funcOp style s) o (region.map Region.bare)).blocks =
        Region.bare (region.getD []) := by
      cases region with
      | none => rfl
      | some r => rfl
    have hbare : (Region.named (Region.bare (region.getD [])) returnName).map Op.operation =
        returns.map Op.operation := named_bare _ _
    rw [hblocks, ← List.flatMap_map, hbare, List.flatMap_map]

end Signature

end BrilIR
