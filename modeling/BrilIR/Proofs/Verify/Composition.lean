import BrilIR.Proofs.Tree.Replacement
import BrilIR.Proofs.Verify.Limit

/-!
Verification is put together from the verification of the parts. Around an op no more of it counts
than its face: the rest of the tree gets the same diagnostics whatever else the op is.
-/

namespace BrilIR

/-- What the ops around an op see of it. -/
structure Face where
  name : String
  location : Option Location
  operandTypes : List Ty
  isTerminator : Bool
deriving DecidableEq, Repr

def Op.face (op : Op) : Face :=
  ⟨op.name, op.operation.location, op.operation.operandTypes, op.kind.isTerminator⟩

/-- An operation that shows this face and has nothing else to it. -/
def Face.operation (f : Face) : Operation where
  name := f.name
  location := f.location
  operands := f.operandTypes.map (Value.result "")

namespace Face

variable {s : Signature} {o o' : Operation}

theorem operandTypes_operation (f : Face) : f.operation.operandTypes = f.operandTypes := by
  simp [operation, Operation.operandTypes, Function.comp_def, Value.type]

theorem typeFindings_congr (hd : Diagnostic.ofOperation o' = Diagnostic.ofOperation o) (n : Nat)
    (as es : List Ty) : s.typeFindings o' n as es = s.typeFindings o n as es := by
  induction as generalizing n es with
  | nil => rfl
  | cons a as ih =>
    cases es with
    | nil => rfl
    | cons e es => simp only [Signature.typeFindings, ih, hd]

theorem returnFindings_operation (op : Op) :
    s.returnFindings op.face.operation = s.returnFindings op.operation := by
  have htypes : op.face.operation.operandTypes = op.operation.operandTypes :=
    operandTypes_operation op.face
  have hlength : op.face.operation.operands.length = op.operation.operands.length := by
    simp [operation, Op.face, Operation.operandTypes]
  have hd : Diagnostic.ofOperation op.face.operation = Diagnostic.ofOperation op.operation := rfl
  simp only [Signature.returnFindings, hlength, htypes, hd, typeFindings_congr hd]

theorem returnsFindings_eq (returnName : String) (ops : List Op) :
    s.returnsFindings returnName ops =
      ((ops.map Op.face).filter (·.name == returnName)).flatMap
        fun f => s.returnFindings f.operation := by
  rw [List.filter_map, List.flatMap_map]
  simp only [returnFindings_operation]
  rfl

theorem terminatorFindings_eq (ops : List Op) : Block.terminatorFindings ops =
    ((ops.map Op.face).dropLast.filter (·.isTerminator)).map fun f =>
      .ofOperation f.operation .counts "must be the last operation in the parent block" := by
  rw [← List.map_dropLast, List.filter_map, List.map_map]
  rfl

theorem map_set {ops : List Op} {n : Nat} {old new : Op} (hn : ops[n]? = some old)
    (h : new.face = old.face) : (ops.set n new).map Op.face = ops.map Op.face := by
  have hface : (ops.map Op.face)[n]? = some new.face := by
    rw [List.getElem?_map, hn, h]
    rfl
  obtain ⟨_, e⟩ := List.getElem?_eq_some_iff.1 hface
  rw [List.map_set, ← e, List.set_getElem_self]

end Face

/-! Findings of a tree, in the order of its parts. -/

theorem Block.findings_eq_flatMap (ops : List Op) :
    Block.findings ops = ops.flatMap Op.findings := by
  induction ops with
  | nil => rfl
  | cons op ops ih => rw [Block.findings, ih, List.flatMap_cons]

theorem Region.findings_eq_flatMap (r : List Block) : Region.findings r = r.flatMap fun b =>
    Block.terminatorFindings b.ops ++ b.ops.flatMap Op.findings := by
  induction r with
  | nil => rfl
  | cons b r ih =>
    obtain ⟨label, ops⟩ := b
    rw [Region.findings, ih, Block.findings_eq_flatMap, List.flatMap_cons]
    rfl

namespace Op

def blocks (op : Op) : List Block := op.region.getD []

theorem findings_eq_append (op : Op) :
    op.findings = op.headFindings ++ Region.findings op.blocks := by
  obtain ⟨kind, o, r⟩ := op
  cases r with
  | none => exact (List.append_nil _).symm
  | some r => rfl

theorem headFindings_eq_append (op : Op) : op.headFindings =
    op.structureFindings ++ if op.structureFindings = [] then op.ownFindings else [] := by
  unfold headFindings
  cases op.structureFindings with
  | nil => rfl
  | cons d ds => simp

end Op

/-! The parts of a tree around one op. -/

variable {child new below : Op} {n : Nat} {path : List Nat}

theorem Region.exists_findings_setOp {r : List Block} (h : (Region.ops r)[n]? = some child) :
    ∃ before after, ∀ new : Op, new.face = child.face →
      Region.findings (setOp r n new) = before ++ (new.findings ++ after) := by
  induction r generalizing n with
  | nil => cases h
  | cons b r ih =>
    obtain ⟨label, ops⟩ := b
    have hops : Region.ops (.mk label ops :: r) = ops ++ Region.ops r := rfl
    rw [hops] at h
    by_cases hn : n < ops.length
    · -- the op stands in this block, whose terminators are told by the faces of its ops
      rw [List.getElem?_append_left hn] at h
      refine ⟨Block.terminatorFindings ops ++ Block.findings (ops.take n),
        Block.findings (ops.drop (n + 1)) ++ Region.findings r, fun new hface => ?_⟩
      have hterm : Block.terminatorFindings (ops.set n new) = Block.terminatorFindings ops := by
        rw [Face.terminatorFindings_eq, Face.terminatorFindings_eq, Face.map_set h hface]
      have hset : Block.findings (ops.set n new) = Block.findings (ops.take n) ++
          (new.findings ++ Block.findings (ops.drop (n + 1))) := by
        rw [List.set_eq_take_append_cons_drop, if_pos hn]
        simp only [Block.findings_eq_flatMap, List.flatMap_append, List.flatMap_cons]
      rw [setOp, if_pos hn, Region.findings, hterm, hset]
      simp only [List.append_assoc]
    · rw [List.getElem?_append_right (Nat.le_of_not_lt hn)] at h
      obtain ⟨before, after, hr⟩ := ih h
      refine ⟨Block.terminatorFindings ops ++ Block.findings ops ++ before, after,
        fun new hface => ?_⟩
      rw [setOp, if_neg hn, Region.findings, hr new hface]
      simp only [List.append_assoc]

namespace Op

variable {op : Op}

theorem headFindings_setChild (hn : op.children[n]? = some child) (h : new.face = child.face) :
    (op.setChild n new).headFindings = op.headFindings := by
  have hs : (op.setChild n new).structureFindings = op.structureFindings := by
    simp only [structureFindings, kind_setChild, operation_setChild]
  have ho : (op.setChild n new).ownFindings = op.ownFindings := by
    unfold ownFindings
    rw [kind_setChild, operation_setChild, children_setChild]
    split
    · rw [Face.returnsFindings_eq, Face.returnsFindings_eq, Face.map_set hn h]
    · rfl
    · rfl
    · rfl
  simp only [headFindings, hs, ho]

theorem exists_findings_setChild (h : op.children[n]? = some child) :
    ∃ before after, ∀ new : Op, new.face = child.face →
      (op.setChild n new).findings = before ++ (new.findings ++ after) := by
  obtain ⟨kind, o, r⟩ := op
  cases r with
  | none => cases h
  | some r =>
    obtain ⟨before, after, hr⟩ := Region.exists_findings_setOp h
    refine ⟨headFindings (.mk kind o (some r)) ++ before, after, fun new hface => ?_⟩
    have hhead := headFindings_setChild h hface
    simp only [setChild, Option.map_some] at hhead
    simp only [setChild, Option.map_some, findings, hhead, hr new hface, List.append_assoc]

theorem face_setChild : (op.setChild n new).face = op.face := by
  simp only [face, name, kind_setChild, operation_setChild]

/-- Around the end of a path the findings are the same for all ops with one face. -/
theorem exists_findings_replace (h : op.descend? path = some below) :
    ∃ before after, ∀ new : Op, new.face = below.face →
      (op.replace path new).face = op.face ∧
        (op.replace path new).findings = before ++ (new.findings ++ after) := by
  induction path generalizing op with
  | nil =>
    cases h
    exact ⟨[], [], fun new hface => ⟨hface, (List.append_nil _).symm⟩⟩
  | cons n path ih =>
    obtain ⟨child, hn, hc⟩ := descend?_cons_iff.1 h
    obtain ⟨before, after, hbelow⟩ := ih hc
    obtain ⟨before', after', hchild⟩ := exists_findings_setChild hn
    refine ⟨before' ++ before, after ++ after', fun new hface => ?_⟩
    obtain ⟨hf, hd⟩ := hbelow new hface
    rw [replace_cons hn, hchild _ hf, hd]
    simp only [face_setChild, List.append_assoc, and_self]

/-- An op is verified by its own rules and then block by block: what terminators are misplaced, and
what each op of the block is verified to alone. So the diagnostics of an op further down stand
together among those of the tree, and another op with the same face changes nothing but them. -/
theorem kept_verify_compositional (op : Op) :
    (op.verify 0).kept =
      (op.structureFindings ++ if op.structureFindings = [] then op.ownFindings else []) ++
        op.blocks.flatMap (fun b => Block.terminatorFindings b.ops ++
          b.ops.flatMap fun child => (child.verify 0).kept) ∧
      ∀ path below, op.descend? path = some below → ∃ before after,
        (op.verify 0).kept = before ++ ((below.verify 0).kept ++ after) ∧
          ∀ new : Op, new.face = below.face →
            (op.replace path new).descend? path = some new ∧
            ((op.replace path new).verify 0).kept = before ++ ((new.verify 0).kept ++ after) := by
  simp only [kept_verify_zero]
  constructor
  · rw [findings_eq_append, headFindings_eq_append, Region.findings_eq_flatMap]
  · intro path below h
    obtain ⟨before, after, hr⟩ := exists_findings_replace h
    refine ⟨before, after, ?_, fun new hface => ⟨descend?_replace h, (hr new hface).2⟩⟩
    rw [← (hr below rfl).2, replace_self h]

def idleFunction : Op :=
  .moduleOf [.ofOperation (.funcOp .func { identifier := some "f", returns := [.int 64] }) {} (some
    [.mk none [.ofOperation (.instr .const) {} none, .ofOperation .returnOp {} none]])]

/-- The function answers for its `return`, and the constant for itself. -/
example : (idleFunction.verify 0).kept.map (·.op) = ["return", "bril.const", "bril.const"] := by
  decide

theorem kept_verify_compositional_idleFunction :
    idleFunction.descend? [0, 0] = some (.ofOperation (.instr .const) {} none) ∧
      ∃ before after, (idleFunction.verify 0).kept = before ++
          (((ofOperation (.instr .const) {} none).verify 0).kept ++ after) ∧
        ∀ new : Op, new.face = (ofOperation (.instr .const) {} none).face →
          (idleFunction.replace [0, 0] new).descend? [0, 0] = some new ∧
          ((idleFunction.replace [0, 0] new).verify 0).kept =
            before ++ ((new.verify 0).kept ++ after) :=
  ⟨rfl, (kept_verify_compositional idleFunction).2 [0, 0] _ rfl⟩

end Op

end BrilIR
