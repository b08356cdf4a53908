import BrilIR.Proofs.Grammar.TreeParser
import BrilIR.Source

/-! What reading a source comes to: cutting it into tokens that derive from the grammar. -/

namespace BrilIR

theorem exists_ok_of_test {ε α : Type} {x : Except ε α} {test : α → Bool}
    (h : x.toOption.any test = true) : ∃ a, x = .ok a ∧ test a = true := by
  cases x with
  | error e => cases h
  | ok a => exact ⟨a, rfl, h⟩

namespace Op

theorem readAll_ok_iff {source : String} {ops : List Op} : readAll source = .ok ops ↔
    ∃ s, TokenStream.scan source = .ok s ∧ DeriveAll [[]] s.tokens ops := by
  unfold readAll
  cases TokenStream.scan source with
  | error e => simp
  | ok s =>
    have h := denotes_parseAll (.ofTokens s) ops (Scope.extend [[]] (Block.results ops)) []
    constructor
    · intro e
      refine ⟨s, rfl, ?_⟩
      cases hp : parseAll (.ofTokens s) with
      | error e' s' => simp [hp] at e
      | ok ops' s' =>
        simp only [hp, Except.ok.injEq] at e
        subst e
        exact (denotes_parseAll.apply_ok hp).1
    · rintro ⟨s', e, hd⟩
      cases e
      obtain ⟨s', hp, -⟩ := h.2 ⟨hd, rfl, rfl⟩
      simp [hp]

theorem ofSource_ok_iff {source : String} {op : Op} :
    ofSource source = .ok op ↔ ∃ ops, readAll source = .ok ops ∧ op = ofTopLevel ops := by
  unfold ofSource
  cases readAll source with
  | error e => simp [Except.map]
  | ok ops => simp [Except.map, eq_comm]

theorem exists_readAll (source : String) (test : List Op → Bool)
    (h : (readAll source).toOption.any test = true) :
    ∃ ops, readAll source = .ok ops ∧ test ops = true :=
  exists_ok_of_test h

end Op

theorem VerifyOptions.format_ok_iff {o : VerifyOptions} {source p : String} {op : Op}
    (h : Op.ofSource source = .ok op) : o.format source = .ok p ↔
    op.text = p ∧ (o.verify = true → (op.verify o.maxDiagnostics).kept = []) := by
  simp only [format, check, h, Op.verifyOrFail]
  cases o.verify with
  | false => simp [Except.map]
  | true =>
    cases (op.verify o.maxDiagnostics).kept with
    | nil => simp [Except.map]
    | cons d ds => simp [Except.map]

end BrilIR
