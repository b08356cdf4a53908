import BrilIR.Proofs.Grammar.Scoping
import BrilIR.Proofs.Source.Acceptance
import BrilIR.Proofs.Source.RoundTrip

/-! Names in an accepted source are resolved by lexical scoping. -/

namespace BrilIR.Op

open Token

variable {source : String} {ops : List Op}

theorem children_moduleOf (ops : List Op) : (moduleOf ops).children = ops :=
  List.append_nil ops

theorem exists_fitsInside (h : Block.Fits [[]] ops) :
    ∃ σ : List Scope, (∀ scope ∈ σ, scope = []) ∧ (ofTopLevel ops).FitsInside σ := by
  cases ofTopLevel_cases ops with
  | inl hm =>
    obtain ⟨t, rfl, ht⟩ := hm
    rw [ofTopLevel_of_module ht]
    simp only [Block.Fits] at h
    exact ⟨[[]], by simp, h.1.inside⟩
  | inr hm =>
    rw [hm.2]
    refine ⟨[], by simp, ?_, List.nodup_nil⟩
    rw [children_moduleOf]
    exact h

theorem operands_ofTopLevel {us : List Token} (h : us ∈ Block.tokens ops) :
    (ofTopLevel ops).operation.operands = [] := by
  cases ofTopLevel_cases ops with
  | inl hm =>
    obtain ⟨t, rfl, ht⟩ := hm
    obtain ⟨vs, hv, -⟩ := Block.occurs h (List.mem_singleton_self t)
    have hs := shows_of_mem_tokens hv
    rw [ht] at hs
    rw [ofTopLevel_of_module ht, hs]
  | inr hm =>
    rw [hm.2]
    rfl

theorem occurs_ofTopLevel {us : List Token} {n : Nat} {path : List Nat} {op : Op}
    (h : us ∈ Block.tokens ops) (hd : (ofTopLevel ops).descend? (n :: path) = some op) :
    Occurs op.tokens us := by
  cases ofTopLevel_cases ops with
  | inl hm =>
    obtain ⟨t, rfl, ht⟩ := hm
    rw [ofTopLevel_of_module ht] at hd
    obtain ⟨vs, hv, hi⟩ := Block.occurs h (List.mem_singleton_self t)
    exact (occurs_descend hv hd).mono hi
  | inr hm =>
    rw [hm.2] at hd
    obtain ⟨child, hn, hd⟩ := descend?_cons_iff.1 hd
    rw [children_moduleOf] at hn
    obtain ⟨vs, hv, hi⟩ := Block.occurs h (List.mem_of_getElem? hn)
    exact (occurs_descend hv hd).mono hi

/-- In the tree of a source each operand is the value that the innermost scope around the op with
such a name has introduced before the op. Each op inside of the module stands in the source, where
the types that are written behind the names of its operands are those of the values. The names that
one region introduces differ, and so do those of one list of parameters. -/
theorem ofSource_scoping {top : Op} (h : ofSource source = .ok top) :
    ∃ s, TokenStream.scan source = .ok s ∧
      ∀ path op, top.descend? path = some op →
        (∀ v ∈ op.operation.operands, Scope.Binds (top.scopes path) v) ∧
        (path ≠ [] → Occurs op.tokens s.tokens) ∧
        ((Block.results op.children).map Value.name).Nodup ∧
        (op.operation.arguments.map Value.name).Nodup := by
  obtain ⟨ops, hr, rfl⟩ := ofSource_ok_iff.1 h
  obtain ⟨s, hs, ht, hf, -⟩ := readAll_ok_iff_tokens.1 hr
  obtain ⟨σ, hσ, hinside⟩ := exists_fitsInside hf
  refine ⟨s, hs, fun path op hop => ?_⟩
  cases path with
  | nil =>
    cases hop
    rw [operands_ofTopLevel ht]
    exact ⟨by simp, by simp, hinside.nodup_results, hinside.arguments⟩
  | cons n path =>
    obtain ⟨hfits, hnodup⟩ := hinside.descend hop
    have hbinds : ∀ v ∈ op.operation.operands,
        Scope.Binds ((ofTopLevel ops).scopes (n :: path)) v := by
      intro v hv
      exact Scope.binds_of_lookup? hnodup hσ (hfits.scoped.resolves v hv)
    exact ⟨hbinds, fun _ => occurs_ofTopLevel ht hop, hfits.inside.nodup_results,
      hfits.inside.arguments⟩

/-- A parameter is not seen behind its function. -/
example : (readAll "func.func @f(%a : i32) \x7b return \x7d").isOk = true ∧
    (readAll "func.func @f(%a : i32) \x7b return \x7d return %a : i32").isOk = false := by
  decide +kernel

def shadowing : String :=
  "func.func @f(%a : i32) -> i32 \x7b %a = \"bril.id\"(%a) : (i32) -> i32 return %a : i32 \x7d"

/-- The op reads the parameter, and what is returned is its result. -/
theorem ofSource_scoping_shadowing : ∃ top, ofSource shadowing = .ok top ∧
    (top.descend? [0, 0]).map (·.operation.operands) = some [.argument "%a" (.int 32)] ∧
    (top.descend? [0, 1]).map (·.operation.operands) = some [.result "%a" (.int 32)] ∧
    ∃ s, TokenStream.scan shadowing = .ok s ∧
      ∀ path op, top.descend? path = some op →
        (∀ v ∈ op.operation.operands, Scope.Binds (top.scopes path) v) ∧
        (path ≠ [] → Occurs op.tokens s.tokens) ∧
        ((Block.results op.children).map Value.name).Nodup ∧
        (op.operation.arguments.map Value.name).Nodup := by
  obtain ⟨ops, hr, ht⟩ := exists_readAll shadowing (fun ops => decide
    (((ofTopLevel ops).descend? [0, 0]).map (·.operation.operands) =
        some [.argument "%a" (.int 32)] ∧
      ((ofTopLevel ops).descend? [0, 1]).map (·.operation.operands) =
        some [.result "%a" (.int 32)])) (by decide +kernel)
  have h : ofSource shadowing = .ok (ofTopLevel ops) := ofSource_ok_iff.2 ⟨ops, hr, rfl⟩
  obtain ⟨hparameter, hresult⟩ := of_decide_eq_true ht
  exact ⟨ofTopLevel ops, h, hparameter, hresult, ofSource_scoping h⟩

end BrilIR.Op
