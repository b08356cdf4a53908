import Mathlib.Data.List.Basic
import Mathlib.Logic.Function.Basic
import BrilIR.Ty.Interner

/-!
Interners at work. Each hands out one instance of a type; so the handles they have handed out are
equal exactly if their types are, be they from one interner or from several.
-/

namespace BrilIR

namespace TyInterner

/-- Interners by their numbers, and the handles they have handed out, latest first. -/
inductive Handed : (Nat → TyInterner) → List TyHandle → Prop
  | start : Handed (fun n => { table := n }) []
  | intern {interners : Nat → TyInterner} {handles : List TyHandle} (n : Nat) (t : Ty)
      (h : Handed interners handles) :
      Handed (Function.update interners n ((interners n).intern t).2)
        (((interners n).intern t).1 :: handles)

variable {interners : Nat → TyInterner} {handles : List TyHandle} {a b : TyHandle}

theorem table_intern (i : TyInterner) (t : Ty) : (i.intern t).2.table = i.table := by
  unfold intern
  split
  · rfl
  · rfl

theorem getElem?_intern (i : TyInterner) (t : Ty) :
    (i.intern t).2.types[(i.intern t).1.index]? = some t := by
  by_cases h : t ∈ i.types
  · have hi : i.types.contains t = true := List.contains_iff_mem.2 h
    simp only [intern, hi, if_true]
    exact List.getElem?_idxOf h
  · have hi : i.types.contains t = false := by simpa using h
    simp only [intern, hi, Bool.false_eq_true, if_false]
    rw [List.idxOf_eq_length h, List.getElem?_concat_length]

theorem getElem?_intern_of_some {i : TyInterner} {n : Nat} {t : Ty} (u : Ty)
    (h : i.types[n]? = some t) : (i.intern u).2.types[n]? = some t := by
  unfold intern
  split
  · exact h
  · have hn : n < i.types.length := (List.getElem?_eq_some_iff.1 h).1
    exact (List.getElem?_append_left hn).trans h

namespace Handed

theorem table_eq (h : Handed interners handles) (n : Nat) : (interners n).table = n := by
  induction h with
  | start => rfl
  | @intern interners handles m t _ ih =>
    by_cases hn : n = m
    · subst hn
      rw [Function.update_self, table_intern, ih]
    · rw [Function.update_of_ne hn, ih]

theorem getElem?_eq (h : Handed interners handles) (ha : a ∈ handles) :
    (interners a.table).types[a.index]? = some a.type := by
  induction h with
  | start => cases ha
  | @intern interners handles m t hprev ih =>
    have htable : ((interners m).intern t).1.table = m := hprev.table_eq m
    cases ha with
    | head => rw [htable, Function.update_self, getElem?_intern]; rfl
    | tail _ ha =>
      by_cases hm : a.table = m
      · subst hm
        rw [Function.update_self]
        exact getElem?_intern_of_some t (ih ha)
      · rw [Function.update_of_ne hm]
        exact ih ha

theorem type_eq_of_sameInstance (h : Handed interners handles) (ha : a ∈ handles)
    (hb : b ∈ handles) (hs : a.sameInstance b = true) : a.type = b.type := by
  simp only [TyHandle.sameInstance, Bool.and_eq_true, beq_iff_eq] at hs
  have hget := h.getElem?_eq ha
  rw [hs.1, hs.2, h.getElem?_eq hb] at hget
  exact (Option.some.inj hget).symm

/-- Equality of handles looks at the instances first, which makes no difference. -/
theorem equal_iff (h : Handed interners handles) (ha : a ∈ handles) (hb : b ∈ handles) :
    a.equal b = true ↔ a.type = b.type := by
  simp only [TyHandle.equal, Bool.or_eq_true, beq_iff_eq]
  exact ⟨fun he => he.elim (h.type_eq_of_sameInstance ha hb) id, Or.inr⟩

end Handed

end TyInterner

end BrilIR
