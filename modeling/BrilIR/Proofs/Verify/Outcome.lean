import BrilIR.Proofs.Diagnostic.Collector
import BrilIR.Proofs.Verify.Verifier

/-!
The verdict of a check and what it leaves in the collector tell the same story: a check that passes
has reported nothing, and one that fails has reported something, be it that a full collector only
counted it.
-/

namespace BrilIR

namespace Verifier

/-- From a collector `c` the check passes exactly if it leaves `c` as it was, and fails exactly if
it gives `c` more diagnostics. Either way it takes nothing back. -/
structure Faithful (v : Verifier Unit) (c : Diagnostics) : Prop where
  passes_iff : (v.outcome c).1 = true ↔ (v.outcome c).2 = c
  fails_iff : (v.outcome c).1 = false ↔
    c.kept.length + c.dropped < (v.outcome c).2.kept.length + (v.outcome c).2.dropped
  kept_prefix : c.kept <+: (v.outcome c).2.kept
  limit_eq : (v.outcome c).2.limit = c.limit

theorem faithful_ofFindings (found : List Diagnostic) (c : Diagnostics) :
    (ofFindings found).Faithful c := by
  have hpasses : ((ofFindings found).outcome c).1 = true ↔ found = [] := by
    rw [outcome_ofFindings, Diagnostics.report]
    exact List.isEmpty_iff
  have hcollector : ((ofFindings found).outcome c).2 = c.pushAll found := by
    rw [outcome_ofFindings]
    rfl
  have hgrows := c.grows_pushAll found
  have htotal := hgrows.total_eq
  constructor
  · rw [hpasses, hcollector]
    constructor
    · rintro rfl
      rfl
    · intro h
      rw [h] at htotal
      exact List.length_eq_zero_iff.1 (by omega)
  · have hlength : 0 < found.length ↔ found ≠ [] := List.length_pos_iff
    rw [hcollector, ← Bool.not_eq_true, hpasses, ← ne_eq, ← hlength]
    simp only [Diagnostics.total] at htotal
    omega
  · rw [hcollector]
    exact hgrows.kept_prefix
  · rw [hcollector]
    exact hgrows.limit_eq

end Verifier

/-- No check fails silently, and none reports a fault and passes: not the checks of any op, and no
check of loads, of stores or of what a function returns, on any operation and on any ops. -/
theorem Op.checks_faithful (op : Op) (c : Diagnostics) :
    op.verifyStructure.Faithful c ∧ op.verifyOwn.Faithful c ∧
      (∀ m : Transfer, (m.verify op.operation).Faithful c) ∧
      ∀ (signature : Signature) (returnName : String),
        (signature.verifyReturns returnName op.children).Faithful c := by
  refine ⟨?_, ?_, fun m => ?_, fun signature returnName => ?_⟩
  · rw [verifyStructure_eq]
    exact Verifier.faithful_ofFindings _ c
  · rw [verifyOwn_eq]
    exact Verifier.faithful_ofFindings _ c
  · rw [m.verify_eq]
    exact Verifier.faithful_ofFindings _ c
  · rw [signature.verifyReturns_eq]
    exact Verifier.faithful_ofFindings _ c

end BrilIR
