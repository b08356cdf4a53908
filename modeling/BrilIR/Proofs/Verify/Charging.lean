import BrilIR.Proofs.Tree.Replacement
import BrilIR.Proofs.Verify.Composition

/-!
Which op a diagnostic is about. Most rules are about the op that they look at; a wrong return and a
misplaced terminator are held against the op further down.
-/

namespace BrilIR

def Diagnostic.IsAbout (d : Diagnostic) (o : Operation) : Prop :=
  d.op = o.name ∧ d.location = o.location

open Diagnostic

variable {d : Diagnostic} {o : Operation}

theorem Diagnostic.isAbout_of_mem_singleton {kind : Kind} {message : String}
    (h : d ∈ [ofOperation o kind message]) : d.IsAbout o := by
  cases List.mem_singleton.1 h
  exact ⟨rfl, rfl⟩

theorem OpKind.isAbout_of_mem_structureFindings {kind : OpKind}
    (h : d ∈ kind.structureFindings o) : d.IsAbout o := by
  have hcount {a : Arity} {what : String} {found : Nat} (h : d ∈ countFindings o a what found) :
      d.IsAbout o := by
    unfold countFindings at h
    split at h
    · cases h
    · exact isAbout_of_mem_singleton h
  simp only [structureFindings, List.mem_append, List.mem_flatMap] at h
  obtain ((h | h) | h) | ⟨key, -, h⟩ := h
  · exact hcount h
  · exact hcount h
  · exact hcount h
  · unfold attributeFindings at h
    split at h
    · cases h
    · exact isAbout_of_mem_singleton h

namespace Operation

theorem isAbout_of_mem_pointeeFindings {pointer moved : Ty} {mismatch : String}
    (h : d ∈ o.pointeeFindings pointer moved mismatch) : d.IsAbout o := by
  unfold pointeeFindings at h
  split at h
  · exact isAbout_of_mem_singleton h
  · split at h
    · cases h
    · exact isAbout_of_mem_singleton h

theorem isAbout_of_mem_loadFindings (h : d ∈ o.loadFindings) : d.IsAbout o := by
  unfold loadFindings at h
  split at h
  · exact isAbout_of_mem_pointeeFindings h
  · exact OpKind.isAbout_of_mem_structureFindings h

theorem isAbout_of_mem_storeFindings (h : d ∈ o.storeFindings) : d.IsAbout o := by
  unfold storeFindings at h
  split at h
  · exact isAbout_of_mem_pointeeFindings h
  · exact OpKind.isAbout_of_mem_structureFindings h

end Operation

namespace Signature

variable {s : Signature}

theorem isAbout_of_mem_typeFindings {n : Nat} {as es : List Ty}
    (h : d ∈ s.typeFindings o n as es) : d.IsAbout o := by
  induction as generalizing n es with
  | nil => cases h
  | cons a as ih =>
    cases es with
    | nil => cases h
    | cons e es =>
      simp only [typeFindings] at h
      split at h
      · exact ih h
      · cases List.mem_cons.1 h with
        | inl hd =>
          subst hd
          exact ⟨rfl, rfl⟩
        | inr h => exact ih h

theorem exists_isAbout_of_mem_returnsFindings {returnName : String} {ops : List Op}
    (h : d ∈ s.returnsFindings returnName ops) : ∃ op ∈ ops, d.IsAbout op.operation := by
  obtain ⟨op, hop, h⟩ := List.mem_flatMap.1 h
  refine ⟨op, (List.mem_filter.1 hop).1, ?_⟩
  unfold returnFindings at h
  split at h
  · exact isAbout_of_mem_typeFindings h
  · exact isAbout_of_mem_singleton h

end Signature

theorem Block.exists_isAbout_of_mem_terminatorFindings {ops : List Op}
    (h : d ∈ Block.terminatorFindings ops) : ∃ op ∈ ops, d.IsAbout op.operation := by
  obtain ⟨op, hop, rfl⟩ := List.mem_map.1 h
  exact ⟨op, List.dropLast_subset _ (List.mem_filter.1 hop).1, rfl, rfl⟩

/-- What an op itself gets is about the op, unless it is a module, or about one of its children. -/
theorem Op.isAbout_of_mem_headFindings {op : Op} (h : d ∈ op.headFindings) :
    d.IsAbout op.operation ∧ op.kind ≠ .moduleOp ∨
      ∃ child ∈ op.children, d.IsAbout child.operation := by
  have hmodule : op.kind = .moduleOp → op.headFindings = [] := by
    intro hk
    simp [headFindings, structureFindings, ownFindings, hk, OpKind.structureFindings,
      OpKind.countFindings, OpKind.shape, Shape.any, Arity.complaint?, OpKind.required]
  have hne : op.kind ≠ .moduleOp := by
    intro hk
    rw [hmodule hk] at h
    cases h
  rw [headFindings_eq_append, List.mem_append] at h
  cases h with
  | inl h => exact .inl ⟨OpKind.isAbout_of_mem_structureFindings h, hne⟩
  | inr h =>
    split at h
    · unfold ownFindings at h
      split at h
      · exact .inr (Signature.exists_isAbout_of_mem_returnsFindings h)
      · exact .inl ⟨Operation.isAbout_of_mem_loadFindings h, hne⟩
      · exact .inl ⟨Operation.isAbout_of_mem_storeFindings h, hne⟩
      · cases h
    · cases h

namespace Op

/-- The op of the diagnostic is one of the tree, but not its top if that is a module. -/
def Charges (op : Op) (d : Diagnostic) : Prop :=
  ∃ path below, op.descend? path = some below ∧ d.IsAbout below.operation ∧
    (path = [] → op.kind ≠ .moduleOp)

theorem Charges.of_child {op child : Op} (hc : child ∈ op.children) {path : List Nat} {below : Op}
    (hd : child.descend? path = some below) (h : d.IsAbout below.operation) : op.Charges d := by
  obtain ⟨n, hn⟩ := List.getElem?_of_mem hc
  exact ⟨n :: path, below, descend?_cons_iff.2 ⟨child, hn, hd⟩, h, by simp⟩

end Op

mutual

theorem Op.charges : (op : Op) → d ∈ op.findings → op.Charges d
  | .mk kind o r, h => by
    rw [Op.findings_eq_append, List.mem_append] at h
    cases h with
    | inl h =>
      cases Op.isAbout_of_mem_headFindings h with
      | inl h => exact ⟨[], _, rfl, h.1, fun _ => h.2⟩
      | inr h =>
        obtain ⟨child, hc, hd⟩ := h
        have hb : child.descend? [] = some child := rfl
        exact .of_child hc hb hd
    | inr h =>
      cases r with
      | none => cases h
      | some r =>
        obtain ⟨child, hc, path, below, hb, hd⟩ := Region.exists_charged r h
        exact .of_child hc hb hd

theorem Region.exists_charged : (r : List Block) → d ∈ Region.findings r →
    ∃ child ∈ Region.ops r, ∃ path below,
      child.descend? path = some below ∧ d.IsAbout below.operation
  | [], h => by cases h
  | .mk label ops :: r, h => by
    have hops : Region.ops (.mk label ops :: r) = ops ++ Region.ops r := rfl
    simp only [Region.findings, List.mem_append] at h
    rw [hops]
    obtain (h | h) | h := h
    · obtain ⟨op, hop, hd⟩ := Block.exists_isAbout_of_mem_terminatorFindings h
      exact ⟨op, List.mem_append_left _ hop, [], op, rfl, hd⟩
    · obtain ⟨child, hc, hb⟩ := Block.exists_charged ops h
      exact ⟨child, List.mem_append_left _ hc, hb⟩
    · obtain ⟨child, hc, hb⟩ := Region.exists_charged r h
      exact ⟨child, List.mem_append_right _ hc, hb⟩

theorem Block.exists_charged : (ops : List Op) → d ∈ Block.findings ops →
    ∃ child ∈ ops, ∃ path below, child.descend? path = some below ∧ d.IsAbout below.operation
  | [], h => by cases h
  | op :: ops, h => by
    cases List.mem_append.1 h with
    | inl h =>
      obtain ⟨path, below, hb, hd, -⟩ := op.charges h
      exact ⟨op, List.mem_cons_self, path, below, hb, hd⟩
    | inr h =>
      obtain ⟨child, hc, hb⟩ := Block.exists_charged ops h
      exact ⟨child, List.mem_cons_of_mem op hc, hb⟩

end

/-- No limit brings other diagnostics. -/
theorem Op.charges_of_mem_kept_verify {op : Op} {limit : Nat} (h : d ∈ (op.verify limit).kept) :
    op.Charges d := by
  rw [kept_verify, Diagnostics.upTo] at h
  split at h
  · exact op.charges h
  · exact op.charges (List.mem_of_mem_take h)

end BrilIR
