import Mathlib.Data.List.Basic
import BrilIR.Op.Basic

/-! One op of a tree in the place of another. -/

namespace BrilIR

def Region.setOp : List Block → Nat → Op → List Block
  | [], _, _ => []
  | .mk label ops :: r, n, new =>
    if n < ops.length then .mk label (ops.set n new) :: r
    else .mk label ops :: setOp r (n - ops.length) new

def Op.setChild : Op → Nat → Op → Op
  | .mk kind o region, n, new => .mk kind o (region.map fun r => Region.setOp r n new)

/-- The tree with another op at the end of a path. A path that leads nowhere changes nothing. -/
def Op.replace (op : Op) : List Nat → Op → Op
  | [], new => new
  | n :: path, new =>
    match op.children[n]? with
    | none => op
    | some child => op.setChild n (child.replace path new)

theorem Region.ops_setOp (r : List Block) (n : Nat) (new : Op) :
    Region.ops (setOp r n new) = (Region.ops r).set n new := by
  induction r generalizing n with
  | nil => rfl
  | cons b r ih =>
    obtain ⟨label, ops⟩ := b
    have hops (r : List Block) (os : List Op) :
        Region.ops (.mk label os :: r) = os ++ Region.ops r := rfl
    unfold setOp
    by_cases h : n < ops.length
    · rw [if_pos h, hops, hops, List.set_append_left _ _ h]
    · rw [if_neg h, hops, hops, ih, List.set_append_right _ _ (Nat.le_of_not_lt h)]

theorem Region.setOp_self {r : List Block} {n : Nat} {old : Op}
    (h : (Region.ops r)[n]? = some old) : setOp r n old = r := by
  induction r generalizing n with
  | nil => rfl
  | cons b r ih =>
    obtain ⟨label, ops⟩ := b
    have hops : Region.ops (.mk label ops :: r) = ops ++ Region.ops r := rfl
    rw [hops] at h
    unfold setOp
    by_cases hn : n < ops.length
    · rw [List.getElem?_append_left hn, List.getElem?_eq_some_iff] at h
      obtain ⟨_, rfl⟩ := h
      rw [if_pos hn, List.set_getElem_self]
    · rw [List.getElem?_append_right (Nat.le_of_not_lt hn)] at h
      rw [if_neg hn, ih h]

namespace Op

variable {op new child below : Op} {n : Nat} {path : List Nat}

theorem descend?_cons_iff : op.descend? (n :: path) = some below ↔
    ∃ child, op.children[n]? = some child ∧ child.descend? path = some below := by
  simp [descend?, Option.bind_eq_some_iff]

theorem kind_setChild : (op.setChild n new).kind = op.kind := by
  cases op
  rfl

theorem operation_setChild : (op.setChild n new).operation = op.operation := by
  cases op
  rfl

theorem children_setChild : (op.setChild n new).children = op.children.set n new := by
  obtain ⟨kind, o, r⟩ := op
  cases r with
  | none => rfl
  | some r => exact Region.ops_setOp r n new

theorem replace_cons (h : op.children[n]? = some child) :
    op.replace (n :: path) new = op.setChild n (child.replace path new) := by
  simp only [replace, h]

theorem setChild_self (h : op.children[n]? = some child) : op.setChild n child = op := by
  obtain ⟨kind, o, r⟩ := op
  cases r with
  | none => rfl
  | some r =>
    have hr : Region.setOp r n child = r := Region.setOp_self h
    simp only [setChild, Option.map_some, hr]

theorem replace_self (h : op.descend? path = some below) : op.replace path below = op := by
  induction path generalizing op with
  | nil =>
    cases h
    rfl
  | cons n path ih =>
    obtain ⟨child, hn, hc⟩ := descend?_cons_iff.1 h
    rw [replace_cons hn, ih hc, setChild_self hn]

theorem descend?_replace (h : op.descend? path = some below) :
    (op.replace path new).descend? path = some new := by
  induction path generalizing op with
  | nil => rfl
  | cons n path ih =>
    obtain ⟨child, hn, hc⟩ := descend?_cons_iff.1 h
    obtain ⟨hlt, -⟩ := List.getElem?_eq_some_iff.1 hn
    rw [replace_cons hn, descend?_cons_iff]
    refine ⟨child.replace path new, ?_, ih hc⟩
    rw [children_setChild, List.getElem?_set_self hlt]

end Op

end BrilIR
