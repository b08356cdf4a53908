import Mathlib.Data.List.Basic
import BrilIR.Diagnostic.Collector

/-!
What a collector holds when it was given more diagnostics: it counts all of them, keeps what it
kept, and without a limit keeps the rest as well.
-/

namespace BrilIR

namespace Diagnostics

def total (c : Diagnostics) : Nat := c.kept.length + c.dropped

/-- From `c` to `c'` a collector was given `n` diagnostics more: it counts them all and takes
nothing back. -/
structure Grows (n : Nat) (c c' : Diagnostics) : Prop where
  limit_eq : c'.limit = c.limit
  total_eq : c'.total = c.total + n
  kept_prefix : c.kept <+: c'.kept

namespace Grows

variable {m n : Nat} {a b c : Diagnostics}

theorem refl (c : Diagnostics) : Grows 0 c c :=
  ⟨rfl, rfl, List.prefix_refl _⟩

theorem trans (h : Grows m a b) (h' : Grows n b c) : Grows (m + n) a c :=
  ⟨h'.limit_eq.trans h.limit_eq, by rw [h'.total_eq, h.total_eq, Nat.add_assoc],
    h.kept_prefix.trans h'.kept_prefix⟩

end Grows

theorem grows_push (c : Diagnostics) (d : Diagnostic) : Grows 1 c (c.push d) := by
  unfold push
  split
  · exact ⟨rfl, rfl, List.prefix_refl _⟩
  · refine ⟨rfl, ?_, List.prefix_append _ _⟩
    simp only [total, List.length_append, List.length_singleton]
    omega

theorem grows_pushAll (c : Diagnostics) (ds : List Diagnostic) :
    Grows ds.length c (c.pushAll ds) := by
  induction ds generalizing c with
  | nil => exact .refl c
  | cons d ds ih =>
    rw [List.length_cons, Nat.add_comm]
    exact (c.grows_push d).trans (ih (c.push d))

theorem pushAll_unlimited (kept : List Diagnostic) (dropped : Nat) (ds : List Diagnostic) :
    pushAll ⟨0, kept, dropped⟩ ds = ⟨0, kept ++ ds, dropped⟩ := by
  induction ds generalizing kept with
  | nil => rw [List.append_nil]; rfl
  | cons d ds ih =>
    rw [List.append_cons]
    exact ih (kept ++ [d])

end Diagnostics

end BrilIR
