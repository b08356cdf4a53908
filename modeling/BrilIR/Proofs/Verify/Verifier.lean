import Mathlib.Data.List.Basic
import BrilIR.Verify.Pass
import BrilIR.Verify.Verifier

/-!
Each check reports all findings of its kind, in their order, and fails exactly if there are some.
Nothing else can be told from it, whatever is in the collector.
-/

namespace BrilIR

namespace Verifier

def ofFindings (found : List Diagnostic) : Verifier Unit := fun c =>
  if found = [] then .ok () c else .error .failure (c.pushAll found)

theorem outcome_ofFindings (found : List Diagnostic) (c : Diagnostics) :
    (ofFindings found).outcome c = c.report found := by
  cases found with
  | nil => rfl
  | cons d ds => rfl

theorem forM_report (found : List Diagnostic) (c : Diagnostics) :
    (found.forM fun d => discard (observing (report d))) c = .ok () (c.pushAll found) := by
  induction found generalizing c with
  | nil => rfl
  | cons d ds ih => exact ih (c.push d)

/-- Part of a loop that carries a verdict along: it reports the given findings, each of which makes
the verdict that the check fails. -/
def Notes (part : Verdict → Verifier Verdict) (found : List Diagnostic) : Prop :=
  ∀ before c, part before c =
    .ok (if found = [] then before else .error .failure) (c.pushAll found)

namespace Notes

theorem skip : Notes (fun before => pure before) [] := fun _ _ => rfl

theorem report (d : Diagnostic) : Notes (fun _ => observing (report d)) [d] := fun _ _ => rfl

theorem append {p q : Verdict → Verifier Verdict} {ds es : List Diagnostic} (hp : Notes p ds)
    (hq : Notes q es) : Notes (fun before => p before >>= q) (ds ++ es) := by
  intro before c
  have hbind : (p before >>= q) c = q (if ds = [] then before else .error .failure)
      (c.pushAll ds) := by
    simp only [bind, EStateM.bind, hp before c]
  refine hbind.trans ?_
  rw [hq, Diagnostics.pushAll, Diagnostics.pushAll, Diagnostics.pushAll, List.foldl_append]
  cases ds with
  | nil => rfl
  | cons d ds => simp

theorem foldlM {α : Type} {turn : Verdict → α → Verifier Verdict} {found : α → List Diagnostic}
    (h : ∀ x, Notes (turn · x) (found x)) (xs : List α) :
    Notes (fun before => xs.foldlM turn before) (xs.flatMap found) := by
  induction xs with
  | nil => exact skip
  | cons x xs ih =>
    simp only [List.foldlM_cons, List.flatMap_cons]
    exact (h x).append ih

theorem conclude {part : Verdict → Verifier Verdict} {found : List Diagnostic}
    (h : Notes part found) :
    (part (.ok ()) >>= fun verdict => MonadExcept.ofExcept verdict) = ofFindings found := by
  funext c
  simp only [bind, EStateM.bind, h (.ok ()) c]
  cases found with
  | nil => rfl
  | cons d ds => rfl

end Notes

end Verifier

open Verifier

/-! The rules for all kinds. -/

theorem OpKind.verifyStructure_eq (kind : OpKind) (o : Operation) :
    kind.verifyStructure o = ofFindings (kind.structureFindings o) := by
  funext c
  unfold verifyStructure
  cases h : kind.structureFindings o with
  | nil => rfl
  | cons d ds =>
    have hloop := forM_report (d :: ds) c
    simp only [List.isEmpty_cons, Bool.false_eq_true, if_false, bind, EStateM.bind, hloop]
    rfl

/-! Loads and stores. -/

namespace Transfer

def findings (m : Transfer) (o : Operation) : List Diagnostic :=
  match m with
  | load => o.loadFindings
  | store => o.storeFindings

theorem verifyPointee_eq (m : Transfer) (o : Operation) (pointer moved : Ty) :
    m.verifyPointee o pointer moved =
      ofFindings (o.pointeeFindings pointer moved m.mismatch) := by
  unfold verifyPointee Operation.pointeeFindings
  cases pointer.pointee? with
  | none => rfl
  | some pointee =>
    by_cases h : pointee = moved
    · simp only [h, ne_eq, not_true_eq_false, if_false, if_true]
      rfl
    · simp only [h, ne_eq, not_false_eq_true, if_true, if_false]
      rfl

def operandTypes (m : Transfer) (pointer moved : Ty) : List Ty :=
  match m with
  | load => [pointer]
  | store => [pointer, moved]

def resultTypes (m : Transfer) (moved : Ty) : List Ty :=
  match m with
  | load => [moved]
  | store => []

/-- The operation has what it takes to move a value of type `moved` through a pointer of type
`pointer`, which need not fit each other, and nothing else. -/
structure Moves (m : Transfer) (o : Operation) (pointer moved : Ty) : Prop where
  operands : o.operandTypes = m.operandTypes pointer moved
  results : o.resultTypes = m.resultTypes moved
  successors : o.successors = []

section

variable {m : Transfer} {o : Operation} {pointer moved : Ty}

theorem exists_moves (h : OpKind.Structured (.instr m.instr) o) :
    ∃ pointer moved, m.Moves o pointer moved := by
  obtain ⟨hoperands, hresults, hsuccessors, -⟩ := h
  have hs : o.successors = [] := by
    cases m with
    | load => exact List.length_eq_zero_iff.1 hsuccessors
    | store => exact List.length_eq_zero_iff.1 hsuccessors
  cases m with
  | load =>
    obtain ⟨v, hv⟩ := List.length_eq_one_iff.1 hoperands
    obtain ⟨w, hw⟩ := List.length_eq_one_iff.1 hresults
    refine ⟨v.type, w.type, ?_, ?_, hs⟩
    · rw [Operation.operandTypes, hv]
      rfl
    · rw [Operation.resultTypes, hw]
      rfl
  | store =>
    obtain ⟨v, w, hv⟩ := List.length_eq_two.1 hoperands
    have hr : o.results = [] := List.length_eq_zero_iff.1 hresults
    refine ⟨v.type, w.type, ?_, ?_, hs⟩
    · rw [Operation.operandTypes, hv]
      rfl
    · rw [Operation.resultTypes, hr]
      rfl

namespace Moves

theorem structured (h : m.Moves o pointer moved) : OpKind.Structured (.instr m.instr) o := by
  have hoperands := congrArg List.length h.operands
  have hresults := congrArg List.length h.results
  have hsuccessors := congrArg List.length h.successors
  rw [Operation.operandTypes, List.length_map] at hoperands
  rw [Operation.resultTypes, List.length_map] at hresults
  cases m with
  | load => exact ⟨hoperands, hresults, hsuccessors, fun _ hk => absurd hk List.not_mem_nil⟩
  | store => exact ⟨hoperands, hresults, hsuccessors, fun _ hk => absurd hk List.not_mem_nil⟩

theorem pointer_eq (h : m.Moves o pointer moved) : o.operandTypes[0]? = some pointer := by
  rw [h.operands]
  cases m with
  | load => rfl
  | store => rfl

theorem moved?_eq (h : m.Moves o pointer moved) : m.moved? o = some moved := by
  cases m with
  | load => rw [moved?, h.results]; rfl
  | store => rw [moved?, h.operands]; rfl

theorem findings_eq (h : m.Moves o pointer moved) :
    m.findings o = o.pointeeFindings pointer moved m.mismatch := by
  have hs := OpKind.structureFindings_eq_nil_iff.2 h.structured
  cases m with
  | load =>
    rw [findings, Operation.loadFindings, h.operands, h.results]
    simp only [instr] at hs
    simp only [hs, operandTypes, resultTypes]
    rfl
  | store =>
    rw [findings, Operation.storeFindings, h.operands]
    simp only [instr] at hs
    simp only [hs, operandTypes]
    rfl

end Moves

theorem findings_of_not_structured
    (h : OpKind.structureFindings (.instr m.instr) o ≠ []) :
    m.findings o = OpKind.structureFindings (.instr m.instr) o := by
  cases m with
  | load =>
    rw [findings, Operation.loadFindings]
    split
    · next hs _ _ => exact absurd hs h
    · rfl
  | store =>
    rw [findings, Operation.storeFindings]
    split
    · next hs _ => exact absurd hs h
    · rfl

end

/-- There is always a pointer and a value to check, so that no check fails without a report. -/
theorem verify_eq (m : Transfer) (o : Operation) : m.verify o = ofFindings (m.findings o) := by
  by_cases h : OpKind.structureFindings (.instr m.instr) o = []
  · obtain ⟨pointer, moved, hm⟩ := exists_moves (OpKind.structureFindings_eq_nil_iff.1 h)
    unfold verify
    rw [OpKind.verifyStructure_eq, h, hm.pointer_eq, hm.moved?_eq, hm.findings_eq,
      ← verifyPointee_eq]
    rfl
  · rw [findings_of_not_structured h]
    unfold verify
    rw [OpKind.verifyStructure_eq]
    funext c
    simp only [bind, EStateM.bind, ofFindings, if_neg h]

end Transfer

/-! Ops that return. -/

namespace Signature

theorem typeFindings_eq_flatMap (s : Signature) (o : Operation) (n : Nat) (as es : List Ty) :
    s.typeFindings o n as es = ((as.zip es).zipIdx n).flatMap fun ((actual, expected), i) =>
      if actual ≠ expected then [.ofOperation o .typeMismatch (s.typeText i actual expected)]
      else [] := by
  induction as generalizing n es with
  | nil => rfl
  | cons a as ih =>
    cases es with
    | nil => rfl
    | cons e es =>
      rw [typeFindings, List.zip_cons_cons, List.zipIdx_cons, List.flatMap_cons, ih]
      by_cases h : a = e
      · simp only [h, if_true, ne_eq, not_true_eq_false, if_false, List.nil_append]
      · simp only [h, if_false, ne_eq, not_false_eq_true, if_true, List.singleton_append]
        rfl

theorem notes_verifyReturn (s : Signature) (o : Operation) :
    Notes (s.verifyReturn o) (s.returnFindings o) := by
  have hlength : o.operandTypes.length = o.operands.length := List.length_map _
  unfold verifyReturn returnFindings
  rw [hlength]
  by_cases h : o.operands.length = s.returns.length
  · simp only [h, ne_eq, not_true_eq_false, if_false, if_true, typeFindings_eq_flatMap]
    refine Notes.foldlM (fun ((actual, expected), n) => ?_) _
    by_cases ht : actual = expected
    · simp only [ht, not_true_eq_false, if_false]
      exact Notes.skip
    · simp only [ht, not_false_eq_true, if_true]
      exact Notes.report _
  · simp only [h, ne_eq, not_false_eq_true, if_true, if_false]
    exact Notes.report _

theorem returnsFindings_eq_flatMap (s : Signature) (returnName : String) (ops : List Op) :
    s.returnsFindings returnName ops = ops.flatMap fun op =>
      if op.name ≠ returnName then [] else s.returnFindings op.operation := by
  induction ops with
  | nil => rfl
  | cons op ops ih =>
    rw [List.flatMap_cons, ← ih]
    by_cases h : op.name = returnName
    · simp [returnsFindings, h]
    · simp [returnsFindings, h]

theorem verifyReturns_eq (s : Signature) (returnName : String) (ops : List Op) :
    s.verifyReturns returnName ops = ofFindings (s.returnsFindings returnName ops) := by
  rw [returnsFindings_eq_flatMap]
  refine Notes.conclude (Notes.foldlM (fun op => ?_) ops)
  by_cases h : op.name = returnName
  · simp only [h, ne_eq, not_true_eq_false, if_false]
    exact s.notes_verifyReturn op.operation
  · simp only [h, ne_eq, not_false_eq_true, if_true]
    exact Notes.skip

end Signature

/-! Ops. -/

namespace Op

theorem verifyStructure_eq (op : Op) : op.verifyStructure = ofFindings op.structureFindings :=
  op.kind.verifyStructure_eq op.operation

theorem verifyOwn_eq (op : Op) : op.verifyOwn = ofFindings op.ownFindings := by
  unfold verifyOwn ownFindings
  cases op.kind with
  | moduleOp => rfl
  | funcOp style signature => exact signature.verifyReturns_eq style.returnName op.children
  | returnOp => rfl
  | instr i =>
    cases i with
    | load => exact Transfer.load.verify_eq op.operation
    | store => exact Transfer.store.verify_eq op.operation
    | _ => rfl

/-- What a pass reports of an op, its checks report one after the other. -/
theorem verifyAlone_eq (op : Op) (c : Diagnostics) :
    op.verifyAlone c = .ok () (c.pushAll op.headFindings) := by
  unfold verifyAlone headFindings
  rw [verifyStructure_eq, verifyOwn_eq]
  cases h : op.structureFindings with
  | nil =>
    cases op.ownFindings with
    | nil => rfl
    | cons d ds => rfl
  | cons d ds => rfl

end Op

end BrilIR
