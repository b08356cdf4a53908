import Mathlib.Data.List.Basic
import BrilIR.Proofs.Verify.Limit

/-! Verification finds nothing exactly in trees that keep all rules. -/

namespace BrilIR

namespace Operation

def Loads (o : Operation) : Prop :=
  ∃ t, o.operandTypes = [.ptr t] ∧ o.resultTypes = [t]

def Stores (o : Operation) : Prop :=
  ∃ t, o.operandTypes = [.ptr t, t]

end Operation

/-- The declared rules for one op. -/
structure Op.Sound (op : Op) : Prop where
  structured : op.kind.Structured op.operation
  load : op.kind = .instr .load → op.operation.Loads
  store : op.kind = .instr .store → op.operation.Stores
  returns : ∀ style signature, op.kind = .funcOp style signature → ∀ child ∈ op.children,
    child.name = style.returnName → child.operation.operandTypes = signature.returns
  terminators : ∀ r, op.region = some r → ∀ b ∈ r, ∀ o ∈ b.ops.dropLast,
    o.kind.isTerminator = false

namespace Operation

theorem pointeeFindings_eq_nil_iff {o : Operation} {pointer moved : Ty} {mismatch : String} :
    o.pointeeFindings pointer moved mismatch = [] ↔ pointer = .ptr moved := by
  unfold pointeeFindings
  cases pointer with
  | int width => simp [Ty.pointee?]
  | float format => simp [Ty.pointee?]
  | ptr t =>
    by_cases h : t = moved
    · simp [Ty.pointee?, h]
    · simp [Ty.pointee?, h]

theorem loadFindings_eq_nil_iff {o : Operation} (h : OpKind.Structured (.instr .load) o) :
    o.loadFindings = [] ↔ o.Loads := by
  have hs := OpKind.structureFindings_eq_nil_iff.2 h
  obtain ⟨hn, hr, -, -⟩ := h
  obtain ⟨v, hv⟩ := List.length_eq_one_iff.1 hn
  obtain ⟨w, hw⟩ := List.length_eq_one_iff.1 hr
  simp [loadFindings, Loads, hs, operandTypes, resultTypes, hv, hw, pointeeFindings_eq_nil_iff]

theorem storeFindings_eq_nil_iff {o : Operation} (h : OpKind.Structured (.instr .store) o) :
    o.storeFindings = [] ↔ o.Stores := by
  have hs := OpKind.structureFindings_eq_nil_iff.2 h
  obtain ⟨hn, -, -, -⟩ := h
  obtain ⟨v, w, hv⟩ := List.length_eq_two.1 hn
  simp [storeFindings, Stores, hs, operandTypes, hv, pointeeFindings_eq_nil_iff]

end Operation

namespace Signature

theorem typeFindings_eq_nil_iff {s : Signature} {o : Operation} {n : Nat} {as es : List Ty}
    (h : as.length = es.length) : s.typeFindings o n as es = [] ↔ as = es := by
  induction as generalizing n es with
  | nil =>
    cases es with
    | nil => simp [typeFindings]
    | cons e es => simp at h
  | cons a as ih =>
    cases es with
    | nil => simp at h
    | cons e es =>
      have hl : as.length = es.length := by simpa using h
      by_cases ha : a = e
      · simp [typeFindings, ha, ih hl]
      · simp [typeFindings, ha]

theorem returnFindings_eq_nil_iff {s : Signature} {o : Operation} :
    s.returnFindings o = [] ↔ o.operandTypes = s.returns := by
  unfold returnFindings
  by_cases h : o.operands.length = s.returns.length
  · rw [if_pos h]
    exact typeFindings_eq_nil_iff (by simpa [Operation.operandTypes] using h)
  · rw [if_neg h]
    refine iff_of_false (by simp) fun he => h ?_
    rw [← he, Operation.operandTypes, List.length_map]

theorem returnsFindings_eq_nil_iff {s : Signature} {returnName : String} {ops : List Op} :
    s.returnsFindings returnName ops = [] ↔
      ∀ op ∈ ops, op.name = returnName → op.operation.operandTypes = s.returns := by
  simp only [returnsFindings, List.flatMap_eq_nil_iff, List.mem_filter, beq_iff_eq,
    returnFindings_eq_nil_iff, and_imp]

end Signature

theorem Block.terminatorFindings_eq_nil_iff {ops : List Op} :
    Block.terminatorFindings ops = [] ↔ ∀ op ∈ ops.dropLast, op.kind.isTerminator = false := by
  simp only [terminatorFindings, List.map_eq_nil_iff, List.filter_eq_nil_iff, Bool.not_eq_true]

namespace Op

def HeadSound (op : Op) : Prop :=
  op.kind.Structured op.operation ∧ (op.kind = .instr .load → op.operation.Loads) ∧
    (op.kind = .instr .store → op.operation.Stores) ∧
    ∀ style signature, op.kind = .funcOp style signature → ∀ child ∈ op.children,
      child.name = style.returnName → child.operation.operandTypes = signature.returns

theorem headFindings_eq_nil_iff {op : Op} : op.headFindings = [] ↔ op.HeadSound := by
  by_cases h : op.kind.Structured op.operation
  · have hs : op.structureFindings = [] := OpKind.structureFindings_eq_nil_iff.2 h
    simp only [headFindings, hs, HeadSound, h, true_and]
    unfold ownFindings
    split
    · next style signature hk => simp [hk, Signature.returnsFindings_eq_nil_iff]
    · next hk =>
      rw [hk] at h
      simp [hk, Operation.loadFindings_eq_nil_iff h]
    · next hk =>
      rw [hk] at h
      simp [hk, Operation.storeFindings_eq_nil_iff h]
    · next hf hl hs =>
      refine iff_of_true rfl ⟨fun hk => (hl hk).elim, fun hk => (hs hk).elim, ?_⟩
      exact fun style signature hk => (hf style signature hk).elim
  · have hs : op.structureFindings ≠ [] := fun e => h (OpKind.structureFindings_eq_nil_iff.1 e)
    refine iff_of_false ?_ fun hh => h hh.1
    unfold headFindings
    split
    · next e => exact absurd e hs
    · exact hs

theorem sound_iff {op : Op} : op.Sound ↔ op.HeadSound ∧
    ∀ r, op.region = some r → ∀ b ∈ r, Block.terminatorFindings b.ops = [] := by
  simp only [Block.terminatorFindings_eq_nil_iff]
  constructor
  · rintro ⟨hs, hl, hst, hr, ht⟩
    exact ⟨⟨hs, hl, hst, hr⟩, ht⟩
  · rintro ⟨⟨hs, hl, hst, hr⟩, ht⟩
    exact ⟨hs, hl, hst, hr, ht⟩

end Op

mutual

theorem Op.findings_eq_nil_iff : (op : Op) → (depth : Nat) →
    (op.findings = [] ↔ ∀ p ∈ op.preorder depth, p.2.Sound)
  | .mk kind o none, depth => by
    simp [Op.findings, Op.preorder, Op.headFindings_eq_nil_iff, Op.sound_iff, Op.region]
  | .mk kind o (some r), depth => by
    simp only [Op.findings, Op.preorder, List.append_eq_nil_iff, Op.headFindings_eq_nil_iff,
      List.forall_mem_cons, Op.sound_iff, Op.region, Option.some.injEq, forall_eq',
      Region.findings_eq_nil_iff r (depth + 1), and_assoc]

theorem Region.findings_eq_nil_iff : (r : List Block) → (depth : Nat) →
    (Region.findings r = [] ↔ (∀ b ∈ r, Block.terminatorFindings b.ops = []) ∧
      ∀ p ∈ Region.preorder depth r, p.2.Sound)
  | [], depth => by simp [Region.findings, Region.preorder]
  | .mk label ops :: r, depth => by
    simp only [Region.findings, Region.preorder, List.append_eq_nil_iff, List.forall_mem_cons,
      List.forall_mem_append, Block.ops, Block.findings_eq_nil_iff ops depth,
      Region.findings_eq_nil_iff r depth]
    constructor
    · rintro ⟨⟨ht, ho⟩, hr, hp⟩
      exact ⟨⟨ht, hr⟩, ho, hp⟩
    · rintro ⟨⟨ht, hr⟩, ho, hp⟩
      exact ⟨⟨ht, ho⟩, hr, hp⟩

theorem Block.findings_eq_nil_iff : (ops : List Op) → (depth : Nat) →
    (Block.findings ops = [] ↔ ∀ p ∈ Block.preorder depth ops, p.2.Sound)
  | [], depth => by simp [Block.findings, Block.preorder]
  | op :: ops, depth => by
    simp only [Block.findings, Block.preorder, List.append_eq_nil_iff, List.forall_mem_append,
      Op.findings_eq_nil_iff op depth, Block.findings_eq_nil_iff ops depth]

end

/-- Verification under any limit finds nothing exactly if every op of the tree keeps its rules. -/
theorem Op.kept_verify_eq_nil_iff (limit : Nat) (op : Op) :
    (op.verify limit).kept = [] ↔ ∀ p ∈ op.preorder 0, p.2.Sound := by
  rw [Op.kept_verify, Diagnostics.upTo_eq_nil_iff, Op.findings_eq_nil_iff op 0]

end BrilIR
