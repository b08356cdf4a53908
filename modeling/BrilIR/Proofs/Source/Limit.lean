import BrilIR.Proofs.Source.Reading
import BrilIR.Proofs.Verify.Limit

/-!
A limit on diagnostics cuts the list of diagnostics short and does nothing else: what passes under
one limit passes under all of them.
-/

namespace BrilIR

open Diagnostics

namespace Op

theorem kept_verify_eq_take (op : Op) {n : Nat} (hn : 0 < n) :
    (op.verify n).kept = op.findings.take n := by
  rw [kept_verify, upTo, if_neg (Nat.ne_of_gt hn)]

theorem dropped_verify_eq_zero {op : Op} {n : Nat} (hn : 0 < n) (h : op.findings.length ≤ n) :
    (op.verify n).dropped = 0 := by
  have hle := op.kept_add_dropped_verify_le n
  rw [op.kept_verify_eq_take hn, List.take_of_length_le h] at hle
  omega

theorem verifyOrFail_eq_ok_iff (limit : Nat) (op : Op) :
    op.verifyOrFail limit = .ok () ↔ op.findings = [] := by
  have hkept : (op.verify limit).kept = [] ↔ op.findings = [] := by
    rw [kept_verify]
    exact upTo_eq_nil_iff
  rw [← hkept]
  unfold verifyOrFail
  cases h : (op.verify limit).kept with
  | nil => simp [h]
  | cons d ds => simp [h]

end Op

theorem VerifyOptions.format_limit {verify : Bool} {n m : Nat} {source p : String} :
    format ⟨verify, n⟩ source = .ok p → format ⟨verify, m⟩ source = .ok p := by
  intro h
  cases hs : Op.ofSource source with
  | error e => simp [format, check, hs, Except.map] at h
  | ok op =>
    rw [format_ok_iff hs] at h ⊢
    refine ⟨h.1, fun hv => ?_⟩
    have hkept := h.2 hv
    rw [Op.kept_verify, upTo_eq_nil_iff] at hkept ⊢
    exact hkept

/-- A limit of `n` keeps the first `n` of all diagnostics, counts no more than there are, and has no
say in what passes verification. -/
theorem Op.verify_limit_truncates (op : Op) {n : Nat} (hn : 0 < n) :
    (op.verify n).kept = (op.verify 0).kept.take n ∧
      (op.verify n).kept.length + (op.verify n).dropped ≤ (op.verify 0).kept.length ∧
      ((op.verify 0).kept.length ≤ n → (op.verify n).dropped = 0) ∧
      (∀ m, op.verifyOrFail n = .ok () ↔ op.verifyOrFail m = .ok ()) ∧
      ∀ (m : Nat) (verify : Bool) (source p : String),
        VerifyOptions.format ⟨verify, n⟩ source = .ok p ↔
          VerifyOptions.format ⟨verify, m⟩ source = .ok p := by
  rw [kept_verify_zero]
  refine ⟨op.kept_verify_eq_take hn, op.kept_add_dropped_verify_le n, dropped_verify_eq_zero hn,
    fun m => ?_, fun m verify source p => ?_⟩
  · rw [verifyOrFail_eq_ok_iff, verifyOrFail_eq_ok_iff]
  · exact ⟨VerifyOptions.format_limit, VerifyOptions.format_limit⟩

def Op.bareConstants : Op :=
  .moduleOf [.ofOperation (.instr .const) {} none, .ofOperation (.instr .const) {} none]

/-- Of the four diagnostics one is kept and one is counted; the second constant is passed over. -/
example : (Op.bareConstants.verify 0).kept.length = 4 ∧
    (Op.bareConstants.verify 1).kept.length = 1 ∧ (Op.bareConstants.verify 1).dropped = 1 := by
  decide

theorem Op.verify_limit_truncates_bareConstants : 0 < 1 ∧
    (bareConstants.verify 1).kept = (bareConstants.verify 0).kept.take 1 ∧
      (bareConstants.verify 1).kept.length + (bareConstants.verify 1).dropped ≤
        (bareConstants.verify 0).kept.length ∧
      ((bareConstants.verify 0).kept.length ≤ 1 → (bareConstants.verify 1).dropped = 0) ∧
      (∀ m, bareConstants.verifyOrFail 1 = .ok () ↔ bareConstants.verifyOrFail m = .ok ()) ∧
      ∀ (m : Nat) (verify : Bool) (source p : String),
        VerifyOptions.format ⟨verify, 1⟩ source = .ok p ↔
          VerifyOptions.format ⟨verify, m⟩ source = .ok p :=
  ⟨Nat.one_pos, bareConstants.verify_limit_truncates Nat.one_pos⟩

end BrilIR
