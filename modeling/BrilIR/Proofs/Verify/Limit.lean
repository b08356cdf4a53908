import BrilIR.Verify.Pass

/-! What a limited pass keeps: the first of all findings, in their order. -/

namespace BrilIR

namespace Diagnostics

def upTo (limit : Nat) (ds : List Diagnostic) : List Diagnostic :=
  if limit = 0 then ds else ds.take limit

theorem upTo_eq_nil_iff {limit : Nat} {ds : List Diagnostic} : upTo limit ds = [] ↔ ds = [] := by
  unfold upTo
  by_cases h : limit = 0
  · rw [if_pos h]
  · simp [h]

theorem upTo_append {limit : Nat} {ds es : List Diagnostic} (h : limit ≠ 0)
    (hl : limit ≤ (upTo limit ds).length) : upTo limit (ds ++ es) = upTo limit ds := by
  simp only [upTo, if_neg h, List.length_take] at hl ⊢
  exact List.take_append_of_le_length (by omega)

theorem upTo_concat {limit : Nat} {ds : List Diagnostic} {d : Diagnostic}
    (h : limit = 0 ∨ (upTo limit ds).length < limit) :
    upTo limit (ds ++ [d]) = upTo limit ds ++ [d] := by
  by_cases hz : limit = 0
  · simp [upTo, hz]
  · have hl := h.resolve_left hz
    simp only [upTo, if_neg hz, List.length_take] at hl ⊢
    rw [List.take_of_length_le (by simp; omega), List.take_of_length_le (by omega)]

theorem isFull_iff {c : Diagnostics} : c.isFull = true ↔ c.limit ≠ 0 ∧ c.limit ≤ c.kept.length := by
  simp [isFull]

structure Given (limit : Nat) (ds : List Diagnostic) (c : Diagnostics) : Prop where
  limit_eq : c.limit = limit
  kept_eq : c.kept = upTo limit ds

namespace Given

variable {limit : Nat} {c : Diagnostics} {ds es : List Diagnostic}

theorem empty (limit : Nat) : Given limit [] { limit } :=
  ⟨rfl, (upTo_eq_nil_iff.2 rfl).symm⟩

theorem full (h : Given limit ds c) (hf : c.isFull = true) : Given limit (ds ++ es) c := by
  obtain ⟨hz, hl⟩ := isFull_iff.1 hf
  rw [h.limit_eq] at hz hl
  refine ⟨h.limit_eq, ?_⟩
  rw [upTo_append hz (by rwa [← h.kept_eq]), h.kept_eq]

theorem push (h : Given limit ds c) (d : Diagnostic) : Given limit (ds ++ [d]) (c.push d) := by
  unfold Diagnostics.push
  by_cases hf : c.isFull = true
  · rw [if_pos hf]
    obtain ⟨hl, hk⟩ : Given limit (ds ++ [d]) c := h.full hf
    exact ⟨hl, hk⟩
  · rw [if_neg hf]
    have hroom : limit = 0 ∨ (upTo limit ds).length < limit := by
      rw [← h.kept_eq, ← h.limit_eq]
      simp only [isFull_iff, not_and, Nat.not_le] at hf
      by_cases hz : c.limit = 0
      · exact .inl hz
      · exact .inr (hf hz)
    exact ⟨h.limit_eq, by rw [upTo_concat hroom, h.kept_eq]⟩

end Given

def Counted (ds : List Diagnostic) (c : Diagnostics) : Prop :=
  c.kept.length + c.dropped ≤ ds.length

/-- A relation between all diagnostics so far and their collector that a report keeps, and that
diagnostics which are not reported to a full collector keep. -/
structure Tracks (I : List Diagnostic → Diagnostics → Prop) : Prop where
  push : ∀ {ds c} d, I ds c → I (ds ++ [d]) (c.push d)
  skip : ∀ {ds c} es, c.isFull = true → I ds c → I (ds ++ es) c

theorem tracks_given (limit : Nat) : Tracks (Given limit) :=
  ⟨fun d h => h.push d, fun _ hf h => h.full hf⟩

theorem tracks_counted : Tracks Counted := by
  constructor
  · intro ds c d h
    unfold Counted Diagnostics.push at *
    by_cases hf : c.isFull = true
    · simp only [if_pos hf, List.length_append, List.length_singleton]
      omega
    · simp only [if_neg hf, List.length_append, List.length_singleton]
      omega
  · intro ds c es _ h
    unfold Counted at *
    rw [List.length_append]
    omega

theorem Tracks.pushAll {I : List Diagnostic → Diagnostics → Prop} (hI : Tracks I)
    {ds es : List Diagnostic} {c : Diagnostics} (h : I ds c) : I (ds ++ es) (c.pushAll es) := by
  induction es generalizing c ds with
  | nil =>
    rw [List.append_nil]
    exact h
  | cons e es ih =>
    have := ih (hI.push e h)
    rwa [List.append_assoc] at this

end Diagnostics

open Diagnostics

variable {I : List Diagnostic → Diagnostics → Prop}

mutual

theorem Op.tracks_verifyFrom (hI : Tracks I) : (op : Op) → {p : Pass} → {ds : List Diagnostic} →
    I ds p.diagnostics → I (ds ++ op.findings) (op.verifyFrom p).diagnostics
  | .mk kind o none, p, ds, h => by
    simp only [Op.verifyFrom, Op.findings]
    by_cases hf : p.diagnostics.isFull = true
    · rw [if_pos hf]
      exact hI.skip _ hf h
    · rw [if_neg hf]
      exact hI.pushAll h
  | .mk kind o (some r), p, ds, h => by
    simp only [Op.verifyFrom, Op.findings]
    by_cases hf : p.diagnostics.isFull = true
    · rw [if_pos hf]
      exact hI.skip _ hf h
    · rw [if_neg hf, ← List.append_assoc]
      exact Region.tracks_verifyFrom hI r (hI.pushAll h)

theorem Region.tracks_verifyFrom (hI : Tracks I) : (r : List Block) → {p : Pass} →
    {ds : List Diagnostic} →
    I ds p.diagnostics → I (ds ++ Region.findings r) (Region.verifyFrom p r).diagnostics
  | [], p, ds, h => by simpa [Region.verifyFrom, Region.findings] using h
  | .mk label ops :: r, p, ds, h => by
    simp only [Region.verifyFrom, Region.findings, ← List.append_assoc]
    exact Region.tracks_verifyFrom hI r (Block.tracks_verifyFrom hI ops (hI.pushAll h))

theorem Block.tracks_verifyFrom (hI : Tracks I) : (ops : List Op) → {p : Pass} →
    {ds : List Diagnostic} →
    I ds p.diagnostics → I (ds ++ Block.findings ops) (Block.verifyFrom p ops).diagnostics
  | [], p, ds, h => by simpa [Block.verifyFrom, Block.findings] using h
  | op :: ops, p, ds, h => by
    simp only [Block.verifyFrom, Block.findings, ← List.append_assoc]
    exact Block.tracks_verifyFrom hI ops (Op.tracks_verifyFrom hI op h)

end

/-- Verification keeps the first findings, as many as the limit allows. -/
theorem Op.kept_verify (limit : Nat) (op : Op) :
    (op.verify limit).kept = upTo limit op.findings :=
  (Op.tracks_verifyFrom (tracks_given limit) op (p := ⟨{ limit }, []⟩)
    (Given.empty limit)).kept_eq

theorem Op.kept_verify_zero (op : Op) : (op.verify 0).kept = op.findings := by
  simp [kept_verify, upTo]

/-- Of an op that is passed over for want of room no finding is counted. -/
theorem Op.kept_add_dropped_verify_le (limit : Nat) (op : Op) :
    (op.verify limit).kept.length + (op.verify limit).dropped ≤ op.findings.length := by
  have empty : Counted [] { limit } := Nat.le_refl 0
  exact Op.tracks_verifyFrom tracks_counted op (p := ⟨{ limit }, []⟩) empty

end BrilIR
