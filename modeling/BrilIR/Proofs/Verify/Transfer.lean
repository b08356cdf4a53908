import Mathlib.Logic.Function.Iterate
import BrilIR.Proofs.Diagnostic.Collector
import BrilIR.Proofs.Ty.Interning
import BrilIR.Proofs.Verify.Sound
import BrilIR.Proofs.Verify.Verifier

/-!
Loads and stores are told exactly what is wrong with them: first which numbers of things, and if
these are right, that the pointer is none or that it points to something else. Types are compared as
wholes, and one level of pointers is gone through.
-/

namespace BrilIR

namespace Ty

theorem sizeOf_le_iterate_ptr (t : Ty) (n : Nat) : sizeOf t + n ≤ sizeOf (Ty.ptr^[n] t) := by
  induction n with
  | zero => exact Nat.le_refl _
  | succ n ih =>
    rw [Function.iterate_succ_apply', Ty.ptr.sizeOf_spec]
    omega

theorem iterate_ptr_ne (t : Ty) (n : Nat) : Ty.ptr^[n + 1] t ≠ t := by
  intro h
  have hsize := t.sizeOf_le_iterate_ptr (n + 1)
  rw [h] at hsize
  omega

end Ty

namespace Transfer

def operandCount : Transfer → Nat
  | load => 1
  | store => 2

def resultCount : Transfer → Nat
  | load => 1
  | store => 0

def miscounts (m : Transfer) (o : Operation) : List (String × Nat × Nat) :=
  [("operands", m.operandCount, o.operands.length), ("results", m.resultCount, o.results.length),
    ("successors", 0, o.successors.length)].filter fun (_, expected, found) => expected ≠ found

def miscountText : String × Nat × Nat → String
  | (what, expected, found) =>
    "expected " ++ toString expected ++ " " ++ what ++ ", but found " ++ toString found

section

variable {m : Transfer} {o : Operation}

theorem countFindings_exact (o : Operation) (what : String) (expected found : Nat) :
    OpKind.countFindings o (.exact expected) what found =
      ([(what, expected, found)].filter fun (_, expected, found) => expected ≠ found).map
        fun w => ⟨o.location, o.name, .counts, miscountText w⟩ := by
  unfold OpKind.countFindings Arity.complaint?
  by_cases h : expected = found
  · simp [h]
  · simp only [h, if_false, ne_eq, not_false_eq_true, decide_true, List.filter_cons_of_pos,
      List.filter_nil, List.map_cons, List.map_nil]
    rfl

theorem structureFindings_eq_miscounts (m : Transfer) (o : Operation) :
    OpKind.structureFindings (.instr m.instr) o =
      (m.miscounts o).map fun w => ⟨o.location, o.name, .counts, miscountText w⟩ := by
  have hsplit : m.miscounts o =
      ([("operands", m.operandCount, o.operands.length)].filter fun (_, e, f) => e ≠ f) ++
        ([("results", m.resultCount, o.results.length)].filter fun (_, e, f) => e ≠ f) ++
        ([("successors", 0, o.successors.length)].filter fun (_, e, f) => e ≠ f) := by
    rw [← List.filter_append, ← List.filter_append]
    rfl
  rw [hsplit, List.map_append, List.map_append, ← countFindings_exact, ← countFindings_exact,
    ← countFindings_exact]
  cases m with
  | load => exact List.append_nil _
  | store => exact List.append_nil _

theorem structured_iff_miscounts :
    OpKind.Structured (.instr m.instr) o ↔ m.miscounts o = [] := by
  rw [← OpKind.structureFindings_eq_nil_iff, structureFindings_eq_miscounts, List.map_eq_nil_iff]

/-- Nothing is wrong exactly if the value is of the type that the pointer points to. -/
theorem findings_eq_nil_iff : m.findings o = [] ↔ ∃ t, m.Moves o (.ptr t) t := by
  constructor
  · intro h
    have hs : OpKind.structureFindings (.instr m.instr) o = [] := by
      by_contra hs
      rw [findings_of_not_structured hs] at h
      exact hs h
    obtain ⟨pointer, moved, hm⟩ := exists_moves (OpKind.structureFindings_eq_nil_iff.1 hs)
    rw [hm.findings_eq, Operation.pointeeFindings_eq_nil_iff] at h
    exact ⟨moved, h ▸ hm⟩
  · rintro ⟨t, hm⟩
    rw [hm.findings_eq, Operation.pointeeFindings_eq_nil_iff]

def complaint (m : Transfer) (pointer : Ty) : String :=
  match pointer with
  | .ptr _ => m.mismatch
  | _ => notPointer

theorem notPointer_ne_mismatch (m : Transfer) : notPointer ≠ m.mismatch := by
  cases m with
  | load => decide
  | store => decide

theorem complaint_eq_notPointer_iff {pointer : Ty} :
    m.complaint pointer = notPointer ↔ ¬ ∃ t, pointer = .ptr t := by
  cases pointer with
  | int width => simp [complaint]
  | float format => simp [complaint]
  | ptr t => simpa [complaint] using m.notPointer_ne_mismatch.symm

theorem complaint_eq_mismatch_iff {pointer : Ty} :
    m.complaint pointer = m.mismatch ↔ ∃ t, pointer = .ptr t := by
  have hne := m.notPointer_ne_mismatch
  cases pointer with
  | int width => simp [complaint, hne]
  | float format => simp [complaint, hne]
  | ptr t => simp [complaint]

theorem Moves.findings_of_ne {pointer moved : Ty} (h : m.Moves o pointer moved)
    (hne : pointer ≠ .ptr moved) :
    m.findings o = [⟨o.location, o.name, .typeMismatch, m.complaint pointer⟩] := by
  rw [h.findings_eq]
  cases pointer with
  | int width => rfl
  | float format => rfl
  | ptr t =>
    have ht : t ≠ moved := fun e => hne (e ▸ rfl)
    simp only [Operation.pointeeFindings, Ty.pointee?, if_neg ht]
    rfl

/-! What a check reports to a collector without a limit. -/

variable {kept : List Diagnostic} {dropped : Nat}

theorem verify_unlimited : m.verify o ⟨0, kept, dropped⟩ =
    if m.findings o = [] then .ok () ⟨0, kept, dropped⟩
    else .error .failure ⟨0, kept ++ m.findings o, dropped⟩ := by
  rw [verify_eq, Verifier.ofFindings, Diagnostics.pushAll_unlimited]

theorem verify_eq_ok_iff :
    m.verify o ⟨0, kept, dropped⟩ = .ok () ⟨0, kept, dropped⟩ ↔ m.findings o = [] := by
  rw [verify_unlimited]
  by_cases h : m.findings o = []
  · simp [h]
  · simp [h]

theorem verify_eq_error {ds : List Diagnostic} (h : m.findings o = ds) (hne : ds ≠ []) :
    m.verify o ⟨0, kept, dropped⟩ = .error .failure ⟨0, kept ++ ds, dropped⟩ := by
  rw [verify_unlimited, h, if_neg hne]

end

/-- Without a limit on diagnostics, a load or a store passes and leaves the collector as it was
exactly if it moves a value of type `t` through a pointer to `t`. Otherwise it is told which counts
are wrong; if none is, that the pointer is none, or that it points to something else. What it points
to is compared by its structure, from whatever interner it comes, and only what it points to itself:
a value further down is another one. -/
theorem verify_exact (m : Transfer) (o : Operation) (kept : List Diagnostic) (dropped : Nat) :
    let c : Diagnostics := ⟨0, kept, dropped⟩
    let reported (ds : List Diagnostic) : Diagnostics := ⟨0, kept ++ ds, dropped⟩
    (m.verify o c = .ok () c ↔ ∃ t, m.Moves o (.ptr t) t) ∧
      (m.miscounts o ≠ [] → m.verify o c = .error .failure
        (reported ((m.miscounts o).map fun w => ⟨o.location, o.name, .counts, miscountText w⟩))) ∧
      (m.miscounts o = [] → m.verify o c ≠ .ok () c → ∃ message,
        m.verify o c =
          .error .failure (reported [⟨o.location, o.name, .typeMismatch, message⟩]) ∧
        (message = "expected 'ptr' type for 'ptr' operand" ↔
          ¬ ∃ t, o.operandTypes[0]? = some (.ptr t)) ∧
        (message = m.mismatch ↔ ∃ t, o.operandTypes[0]? = some (.ptr t))) ∧
      (∀ interners handles, TyInterner.Handed interners handles →
        ∀ pointee ∈ handles, ∀ moved ∈ handles, m.Moves o (.ptr pointee.type) moved.type →
          (m.verify o c = .ok () c ↔ pointee.equal moved = true)) ∧
      ∀ (t : Ty) (n : Nat), m.Moves o (Ty.ptr^[n + 2] t) t → m.verify o c =
        .error .failure (reported [⟨o.location, o.name, .typeMismatch, m.mismatch⟩]) := by
  intro c reported
  refine ⟨verify_eq_ok_iff.trans findings_eq_nil_iff, fun h => ?_, fun h hv => ?_, ?_,
    fun t n hm => ?_⟩
  · have hs : OpKind.structureFindings (.instr m.instr) o ≠ [] := by
      rwa [structureFindings_eq_miscounts, ne_eq, List.map_eq_nil_iff]
    rw [← structureFindings_eq_miscounts]
    exact verify_eq_error (findings_of_not_structured hs) hs
  · obtain ⟨pointer, moved, hm⟩ := exists_moves (structured_iff_miscounts.2 h)
    have hne : pointer ≠ .ptr moved := by
      rintro rfl
      exact hv (verify_eq_ok_iff.2 (findings_eq_nil_iff.2 ⟨moved, hm⟩))
    refine ⟨m.complaint pointer, verify_eq_error (hm.findings_of_ne hne) (List.cons_ne_nil _ _), ?_⟩
    simp only [hm.pointer_eq, Option.some.injEq]
    exact ⟨complaint_eq_notPointer_iff, complaint_eq_mismatch_iff⟩
  · intro interners handles hh pointee hp moved hq hm
    rw [verify_eq_ok_iff, hm.findings_eq, Operation.pointeeFindings_eq_nil_iff,
      hh.equal_iff hp hq, Ty.ptr.injEq]
  · have hptr : Ty.ptr^[n + 2] t = .ptr (Ty.ptr^[n + 1] t) := Function.iterate_succ_apply' _ _ _
    rw [hptr] at hm
    have hne : Ty.ptr (Ty.ptr^[n + 1] t) ≠ .ptr t := fun e => t.iterate_ptr_ne n (Ty.ptr.inj e)
    exact verify_eq_error (hm.findings_of_ne hne) (List.cons_ne_nil _ _)

def innerLoad : Operation where
  name := "bril.load"
  operands := [.argument "%p" (.ptr (.ptr (.int 64)))]
  results := [.result "%0" (.int 64)]

def numberStore : Operation where
  name := "bril.store"
  operands := [.argument "%p" (.ptr (.int 64)), .argument "%v" (.int 64)]

theorem handed_numbers : ∃ interners,
    TyInterner.Handed interners [⟨1, 0, .int 64⟩, ⟨0, 0, .int 64⟩] :=
  ⟨_, .intern 1 (.int 64) (.intern 0 (.int 64) .start)⟩

theorem verify_exact_innerLoad :
    (store.miscounts {} ≠ [] ∧ store.verify {} ⟨0, [], 0⟩ =
      .error .failure ⟨0, [⟨none, "", .counts, "expected 2 operands, but found 0"⟩], 0⟩) ∧
    (load.Moves innerLoad (Ty.ptr^[0 + 2] (.int 64)) (.int 64) ∧
      load.verify innerLoad ⟨0, [], 0⟩ = .error .failure
        ⟨0, [⟨none, "bril.load", .typeMismatch, load.mismatch⟩], 0⟩) ∧
    (load.miscounts innerLoad = [] ∧ load.verify innerLoad ⟨0, [], 0⟩ ≠ .ok () ⟨0, [], 0⟩ ∧
      ∃ message, load.verify innerLoad ⟨0, [], 0⟩ =
          .error .failure ⟨0, [⟨none, "bril.load", .typeMismatch, message⟩], 0⟩ ∧
        (message = "expected 'ptr' type for 'ptr' operand" ↔
          ¬ ∃ t, innerLoad.operandTypes[0]? = some (.ptr t)) ∧
        (message = load.mismatch ↔ ∃ t, innerLoad.operandTypes[0]? = some (.ptr t))) ∧
    (store.Moves numberStore (.ptr (.int 64)) (.int 64) ∧
      (store.verify numberStore ⟨0, [], 0⟩ = .ok () ⟨0, [], 0⟩ ↔
        TyHandle.equal ⟨0, 0, .int 64⟩ ⟨1, 0, .int 64⟩ = true)) := by
  have hload : load.Moves innerLoad (Ty.ptr^[0 + 2] (.int 64)) (.int 64) := ⟨rfl, rfl, rfl⟩
  have hstore : store.Moves numberStore (.ptr (.int 64)) (.int 64) := ⟨rfl, rfl, rfl⟩
  have hfail := (verify_exact load innerLoad [] 0).2.2.2.2 (.int 64) 0 hload
  have hne : load.verify innerLoad ⟨0, [], 0⟩ ≠ .ok () ⟨0, [], 0⟩ := fun h =>
    nomatch h.symm.trans hfail
  obtain ⟨interners, hh⟩ := handed_numbers
  refine ⟨⟨by decide, (verify_exact store {} [] 0).2.1 (by decide)⟩, ⟨hload, hfail⟩,
    ⟨by decide, hne, (verify_exact load innerLoad [] 0).2.2.1 (by decide) hne⟩, hstore, ?_⟩
  exact (verify_exact store numberStore [] 0).2.2.2.1 interners _ hh ⟨0, 0, .int 64⟩ (by simp)
    ⟨1, 0, .int 64⟩ (by simp) hstore

end Transfer

end BrilIR
