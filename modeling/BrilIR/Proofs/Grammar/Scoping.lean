import BrilIR.Proofs.Grammar.TreeRecognition
import BrilIR.Proofs.Tree.Replacement

/-!
Where the values come from that an op uses. The scopes around an op belong to the regions and the
parameter lists that it is inside of; a region's scope holds what the ops in front have introduced.
-/

namespace BrilIR

open Token Scope Production

/-- The innermost of the scopes that have a value of this name has this one, and no other under the
name. -/
def Scope.Binds (scopes : List (List Value)) (v : Value) : Prop :=
  ∃ inner scope outer, scopes = inner ++ scope :: outer ∧ v ∈ scope ∧
    (∀ u ∈ scope, u.name = v.name → u = v) ∧ ∀ s ∈ inner, ∀ u ∈ s, u.name ≠ v.name

namespace Op

def parameterScopes (op : Op) : List (List Value) :=
  match op.kind with
  | .funcOp _ _ => [op.operation.arguments]
  | _ => []

/-- The scopes around the op at a path, innermost first, with their values in order. Going down to
a child leaves the results of the ops in front of it and the parameters around it. -/
def scopes (op : Op) : List Nat → List (List Value)
  | [] => []
  | n :: path =>
    match op.children[n]? with
    | none => []
    | some child => child.scopes path ++ Block.results (op.children.take n) :: op.parameterScopes

end Op

theorem Scope.binds_of_lookup? {scopes : List (List Value)} {σ : List Scope} {v : Value}
    (hn : ∀ scope ∈ scopes, (scope.map Value.name).Nodup) (hσ : ∀ scope ∈ σ, scope = [])
    (h : lookup? (scopes.map List.reverse ++ σ) v.name = some v) : Binds scopes v := by
  have hnone : lookup? σ v.name = none := by
    refine List.findSome?_eq_none_iff.2 fun scope hs => ?_
    rw [hσ scope hs, List.find?_nil]
  have hv : lookup? (scopes.map List.reverse) v.name = some v := by
    rw [lookup?, List.findSome?_append] at h
    rwa [← lookup?, ← lookup?, hnone, Option.or_none] at h
  rw [lookup?, List.findSome?_map, List.findSome?_eq_some_iff] at hv
  obtain ⟨inner, scope, outer, rfl, hv, hinner⟩ := hv
  have hmem : v ∈ scope := List.mem_reverse.1 (List.mem_of_find?_eq_some hv)
  refine ⟨inner, scope, outer, rfl, hmem, ?_, ?_⟩
  · intro u hu e
    exact List.inj_on_of_nodup_map (hn scope (by simp)) hu hmem e
  · intro s hs u hu
    have hnone := List.find?_eq_none.1 (hinner s hs) u (List.mem_reverse.2 hu)
    simpa using hnone

/-! Down the tree. -/

theorem Op.Fits.scoped {op : Op} {σ : List Scope} (h : op.Fits σ) : op.operation.Scoped σ := by
  obtain ⟨kind, o, r⟩ := op
  cases r with
  | none =>
    simp only [Op.Fits] at h
    exact h
  | some r =>
    simp only [Op.Fits] at h
    exact h.1

namespace Block

variable {σ : List Scope} {ops : List Op}

theorem results_append (ops ops' : List Op) : results (ops ++ ops') = results ops ++ results ops' :=
  List.flatMap_append

theorem fits_append {ops' : List Op} :
    Fits σ (ops ++ ops') ↔ Fits σ ops ∧ Fits (extend σ (results ops)) ops' := by
  induction ops generalizing σ with
  | nil => simp [Fits, results]
  | cons op ops ih =>
    simp only [List.cons_append, Fits, ih, results_cons, extend_append, and_assoc]

theorem Fits.getElem? {n : Nat} {op : Op} (h : Fits σ ops) (hn : ops[n]? = some op) :
    op.Fits (extend σ (results (ops.take n))) := by
  obtain ⟨hlt, rfl⟩ := List.getElem?_eq_some_iff.1 hn
  rw [← List.take_append_drop n ops, fits_append, List.drop_eq_getElem_cons hlt] at h
  simp only [Fits] at h
  exact h.2.1

theorem Fits.fresh (h : Fits σ ops) : Fresh σ (results ops) := by
  induction ops generalizing σ with
  | nil => exact fresh_nil σ
  | cons op ops ih =>
    simp only [Fits] at h
    rw [results_cons, fresh_append]
    exact ⟨h.1.scoped.results, ih h.2⟩

end Block

theorem Region.fits_iff {r : List Block} {σ : List Scope} :
    Region.Fits σ r ↔ Block.Fits σ (Region.ops r) := by
  induction r generalizing σ with
  | nil => simp [Region.Fits, Region.ops, Block.Fits]
  | cons b r ih =>
    obtain ⟨label, ops⟩ := b
    have hops : Region.ops (.mk label ops :: r) = ops ++ Region.ops r := rfl
    rw [Region.Fits, hops, Block.fits_append, ih]

namespace Op

variable {σ : List Scope} {op child : Op} {path : List Nat}

/-- The ops in an op fit behind its parameters, whose names differ. -/
structure FitsInside (σ : List Scope) (op : Op) : Prop where
  children : Block.Fits ([] :: (op.parameterScopes.map List.reverse ++ σ)) op.children
  arguments : (op.operation.arguments.map Value.name).Nodup

theorem inner_eq (kind : OpKind) (o : Operation) (r : Option Region) :
    kind.inner σ o = [] :: ((mk kind o r).parameterScopes.map List.reverse ++ σ) := by
  cases kind with
  | funcOp _ _ => simp [OpKind.inner, parameterScopes, Op.kind, operation, extend]
  | moduleOp => rfl
  | returnOp => rfl
  | instr _ => rfl

theorem Fits.inside (h : op.Fits σ) : op.FitsInside σ := by
  refine ⟨?_, fresh_push_iff.1 h.scoped.arguments⟩
  obtain ⟨kind, o, r⟩ := op
  cases r with
  | none => trivial
  | some r =>
    simp only [Fits] at h
    obtain ⟨-, -, hr⟩ := h
    rw [Region.fits_iff, inner_eq kind o (some r)] at hr
    exact hr

theorem FitsInside.fits_child {n : Nat} (h : op.FitsInside σ) (hn : op.children[n]? = some child) :
    child.Fits
      ((Block.results (op.children.take n) :: op.parameterScopes).map List.reverse ++ σ) := by
  have hc := h.children.getElem? hn
  simpa [extend] using hc

theorem FitsInside.nodup_results (h : op.FitsInside σ) :
    ((Block.results op.children).map Value.name).Nodup :=
  fresh_push_iff.1 h.children.fresh

theorem FitsInside.nodup_parameters (h : op.FitsInside σ) :
    ∀ scope ∈ op.parameterScopes, (scope.map Value.name).Nodup := by
  intro scope hs
  unfold parameterScopes at hs
  split at hs
  · cases List.mem_singleton.1 hs
    exact h.arguments
  · cases hs

theorem FitsInside.nodup_child {n : Nat} (h : op.FitsInside σ) :
    ∀ scope ∈ Block.results (op.children.take n) :: op.parameterScopes,
      (scope.map Value.name).Nodup := by
  refine List.forall_mem_cons.2 ⟨?_, h.nodup_parameters⟩
  have hall := h.nodup_results
  rw [← List.take_append_drop n op.children, Block.results_append, List.map_append] at hall
  exact hall.of_append_left

theorem scopes_cons {n : Nat} (hn : op.children[n]? = some child) : op.scopes (n :: path) =
    child.scopes path ++ Block.results (op.children.take n) :: op.parameterScopes := by
  rw [scopes, hn]

/-- An op further down fits the scopes around it, whose names differ in each of them. -/
theorem FitsInside.descend {n : Nat} {below : Op} (h : op.FitsInside σ)
    (hd : op.descend? (n :: path) = some below) :
    below.Fits ((op.scopes (n :: path)).map List.reverse ++ σ) ∧
      ∀ scope ∈ op.scopes (n :: path), (scope.map Value.name).Nodup := by
  induction path generalizing op σ n with
  | nil =>
    obtain ⟨child, hn, hd⟩ := descend?_cons_iff.1 hd
    cases hd
    rw [scopes_cons hn]
    exact ⟨h.fits_child hn, h.nodup_child⟩
  | cons m path ih =>
    -- What is around the child is outside of everything further down.
    obtain ⟨child, hn, hd⟩ := descend?_cons_iff.1 hd
    obtain ⟨hbelow, hnodup⟩ := ih (h.fits_child hn).inside hd
    rw [scopes_cons hn, List.map_append, List.append_assoc]
    exact ⟨hbelow, List.forall_mem_append.2 ⟨hnodup, h.nodup_child⟩⟩

end Op

/-! The text of an op is a part of the text of each op that it is inside of. -/

def Occurs (l : Language Token) (us : List Token) : Prop := ∃ vs ∈ l, vs <:+: us

theorem Occurs.mono {l : Language Token} {us ws : List Token} (h : Occurs l us) (hs : us <:+: ws) :
    Occurs l ws := by
  obtain ⟨vs, hv, hi⟩ := h
  exact ⟨vs, hv, hi.trans hs⟩

theorem Block.occurs {ops : List Op} {op : Op} {us : List Token} (h : us ∈ Block.tokens ops)
    (ho : op ∈ ops) : Occurs op.tokens us := by
  induction ops generalizing us with
  | nil => cases ho
  | cons first ops ih =>
    simp only [Block.tokens] at h
    obtain ⟨as, ha, bs, hb, rfl⟩ := Language.mem_mul.1 h
    cases List.mem_cons.1 ho with
    | inl e => exact ⟨as, e ▸ ha, (List.prefix_append as bs).isInfix⟩
    | inr ho => exact (ih hb ho).mono (List.suffix_append as bs).isInfix

theorem Region.occurs {r : List Block} {first : Bool} {op : Op} {us : List Token}
    (h : us ∈ Region.tokens first r) (ho : op ∈ Region.ops r) : Occurs op.tokens us := by
  induction r generalizing first us with
  | nil => cases ho
  | cons b r ih =>
    obtain ⟨label, ops⟩ := b
    simp only [Region.tokens] at h
    obtain ⟨as, -, _, hblocks, rfl⟩ := Language.mem_mul.1 h
    obtain ⟨bs, hb, cs, hc, rfl⟩ := Language.mem_mul.1 hblocks
    have hops : op ∈ ops ∨ op ∈ Region.ops r := List.mem_append.1 ho
    cases hops with
    | inl ho => exact (Block.occurs hb ho).mono ⟨as, cs, List.append_assoc as bs cs⟩
    | inr ho =>
      refine (ih hc ho).mono (List.IsSuffix.isInfix ?_)
      exact (List.suffix_append bs cs).trans (List.suffix_append as (bs ++ cs))

namespace Op

theorem shows_of_mem_tokens {op : Op} {us : List Token} (h : us ∈ op.tokens) :
    op.kind.Shows op.operation := by
  obtain ⟨kind, o, r⟩ := op
  cases r with
  | none =>
    simp only [Op.tokens] at h
    obtain ⟨-, -, hs, -⟩ := h
    exact hs
  | some r =>
    simp only [Op.tokens] at h
    obtain ⟨as, ⟨-, hs, -⟩, -⟩ := Language.mem_mul.1 h.2
    exact hs

theorem occurs_child {op child : Op} {us : List Token} (h : us ∈ op.tokens)
    (hc : child ∈ op.children) : Occurs child.tokens us := by
  obtain ⟨kind, o, r⟩ := op
  cases r with
  | none => cases hc
  | some r =>
    simp only [Op.tokens] at h
    obtain ⟨as, -, _, hbraces, rfl⟩ := Language.mem_mul.1 h.2
    obtain ⟨bs, -, _, hregion, rfl⟩ := Language.mem_mul.1 hbraces
    obtain ⟨cs, hr, ds, -, rfl⟩ := Language.mem_mul.1 hregion
    refine (Region.occurs hr hc).mono ⟨as ++ bs, ds, ?_⟩
    simp only [List.append_assoc]

theorem occurs_descend {op below : Op} {path : List Nat} {us : List Token} (h : us ∈ op.tokens)
    (hd : op.descend? path = some below) : Occurs below.tokens us := by
  induction path generalizing op us with
  | nil =>
    cases hd
    exact ⟨us, h, List.infix_rfl⟩
  | cons n path ih =>
    obtain ⟨child, hn, hd⟩ := descend?_cons_iff.1 hd
    obtain ⟨vs, hv, hi⟩ := occurs_child h (List.mem_of_getElem? hn)
    exact (ih hv hd).mono hi

end Op

end BrilIR
