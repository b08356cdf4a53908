import BrilIR.Proofs.Parser.Denotation

/-! What reading does to scopes: it adds values with new names to the innermost one. -/

namespace BrilIR

namespace Scope

def extend : List Scope → List Value → List Scope
  | scope :: outer, vs => (vs.reverse ++ scope) :: outer
  | [], _ => []

/-- The values can be added one after another, each under a name that is new. -/
def Fresh : List Scope → List Value → Prop
  | _, [] => True
  | [], _ :: _ => False
  | scope :: outer, v :: vs => (∀ u ∈ scope, u.name ≠ v.name) ∧ Fresh ((v :: scope) :: outer) vs

@[simp] theorem extend_nil (σ : List Scope) : extend σ [] = σ := by
  cases σ <;> rfl

@[simp] theorem fresh_nil (σ : List Scope) : Fresh σ [] := by
  cases σ <;> trivial

theorem extend_append (σ : List Scope) (vs ws : List Value) :
    extend σ (vs ++ ws) = extend (extend σ vs) ws := by
  cases σ <;> simp [extend]

theorem extend_cons (σ : List Scope) (v : Value) (vs : List Value) :
    extend σ (v :: vs) = extend (extend σ [v]) vs :=
  extend_append σ [v] vs

theorem fresh_cons {σ : List Scope} {v : Value} {vs : List Value} :
    Fresh σ (v :: vs) ↔ Fresh σ [v] ∧ Fresh (extend σ [v]) vs := by
  cases σ with
  | nil => simp [Fresh]
  | cons scope outer => simp [Fresh, extend]

theorem fresh_append {σ : List Scope} {vs ws : List Value} :
    Fresh σ (vs ++ ws) ↔ Fresh σ vs ∧ Fresh (extend σ vs) ws := by
  induction vs generalizing σ with
  | nil => simp
  | cons v vs ih =>
    rw [List.cons_append, fresh_cons, ih, @fresh_cons σ v vs, and_assoc, ← extend_cons]

theorem fresh_cons_scope_iff {scope : Scope} {outer : List Scope} {vs : List Value} :
    Fresh (scope :: outer) vs ↔
      (vs.map Value.name).Nodup ∧ ∀ v ∈ vs, ∀ u ∈ scope, u.name ≠ v.name := by
  induction vs generalizing scope with
  | nil => simp
  | cons v vs ih =>
    simp only [Fresh, ih, List.map_cons, List.nodup_cons, List.mem_map, List.forall_mem_cons]
    grind

theorem fresh_push_iff {σ : List Scope} {vs : List Value} :
    Fresh ([] :: σ) vs ↔ (vs.map Value.name).Nodup := by
  simp [fresh_cons_scope_iff]

theorem name_eq_of_lookup? {σ : List Scope} {name : String} {v : Value}
    (h : lookup? σ name = some v) : v.name = name := by
  obtain ⟨scope, -, h⟩ := List.exists_of_findSome?_eq_some h
  simpa using List.find?_some h

/-! Scopes count as far as they can be told apart. -/

/-- The same values are in scope, and the same names are taken in the innermost scope. -/
structure Alike (σ τ : List Scope) : Prop where
  head : σ.head? = τ.head?
  lookup : ∀ name, lookup? σ name = lookup? τ name

variable {σ τ : List Scope}

theorem fresh_congr (h : σ.head? = τ.head?) {vs : List Value} (hf : Fresh σ vs) : Fresh τ vs := by
  induction vs generalizing σ τ with
  | nil => exact fresh_nil τ
  | cons v vs ih =>
    cases σ with
    | nil => exact hf.elim
    | cons scope outer =>
      cases τ with
      | nil => cases h
      | cons scope' outer' =>
        cases h
        have he : ((v :: scope) :: outer).head? = ((v :: scope) :: outer').head? := rfl
        exact ⟨hf.1, ih he hf.2⟩

theorem lookup?_extend {scope : Scope} {outer : List Scope} (vs : List Value) (name : String) :
    lookup? (extend (scope :: outer) vs) name =
      (vs.reverse.find? (·.name == name)).or (lookup? (scope :: outer) name) := by
  simp only [lookup?, extend, List.findSome?_cons, List.find?_append]
  cases vs.reverse.find? (·.name == name) with
  | some v => rfl
  | none => rfl

namespace Alike

theorem push (h : Alike σ τ) : Alike ([] :: σ) ([] :: τ) :=
  ⟨rfl, fun name => h.lookup name⟩

theorem extend (h : Alike σ τ) (vs : List Value) : Alike (extend σ vs) (extend τ vs) := by
  obtain ⟨hh, hl⟩ := h
  cases σ with
  | nil =>
    cases τ with
    | nil => exact ⟨rfl, fun _ => rfl⟩
    | cons _ _ => cases hh
  | cons scope outer =>
    cases τ with
    | nil => cases hh
    | cons scope' outer' =>
      cases hh
      refine ⟨rfl, fun name => ?_⟩
      rw [lookup?_extend, lookup?_extend, hl]

end Alike

end Scope

namespace Parser

open Scope

theorem denotes_define {t : Token} {v : Value} :
    Denotes (define t v) fun σ ts _ σ' rest => Fresh σ [v] ∧ σ' = extend σ [v] ∧ rest = ts := by
  rintro ⟨previous, ahead, stop, scopes, begun⟩ _ σ rest
  cases scopes with
  | nil =>
    constructor
    · rintro ⟨s', e, -⟩
      cases e
    · rintro ⟨h, -⟩
      exact h.elim
  | cons scope outer =>
    have unfolded : define t v ⟨previous, ahead, stop, scope :: outer, begun⟩ =
        if scope.any (·.name == v.name) then
          failAt t (.redefinedValue v.name) ⟨previous, ahead, stop, scope :: outer, begun⟩
        else .ok () ⟨previous, ahead, stop, (v :: scope) :: outer, begun⟩ := by
      show (if scope.any (·.name == v.name) = true then failAt t (.redefinedValue v.name)
        else modify fun s => { s with scopes := (v :: scope) :: outer } : Parser Unit) _ = _
      split <;> rfl
    rw [unfolded]
    by_cases h : scope.any (·.name == v.name) = true
    · rw [if_pos h]
      obtain ⟨u, hu, hn⟩ := List.any_eq_true.1 h
      constructor
      · rintro ⟨s', e, -⟩
        cases e
      · rintro ⟨hf, -⟩
        exact absurd (beq_iff_eq.1 hn) (hf.1 u hu)
    · rw [if_neg h]
      have hf : ∀ u ∈ scope, u.name ≠ v.name := by
        intro u hu hn
        exact h (List.any_eq_true.2 ⟨u, hu, beq_iff_eq.2 hn⟩)
      constructor
      · rintro ⟨s', e, rfl, rfl⟩
        cases e
        exact ⟨⟨hf, trivial⟩, rfl, rfl⟩
      · rintro ⟨-, rfl, rfl⟩
        exact ⟨_, rfl, rfl, rfl⟩

theorem denotes_pushScope :
    Denotes pushScope fun σ ts _ σ' rest => σ' = [] :: σ ∧ rest = ts := by
  intro s _ σ rest
  constructor
  · rintro ⟨s', e, rfl, rfl⟩
    cases e
    exact ⟨rfl, rfl⟩
  · rintro ⟨rfl, rfl⟩
    exact ⟨_, rfl, rfl, rfl⟩

theorem denotes_popScope :
    Denotes popScope fun σ ts _ σ' rest => σ' = σ.tail ∧ rest = ts := by
  intro s _ σ rest
  constructor
  · rintro ⟨s', e, rfl, rfl⟩
    cases e
    exact ⟨rfl, rfl⟩
  · rintro ⟨rfl, rfl⟩
    exact ⟨_, rfl, rfl, rfl⟩

variable {close : Token.Kind} {G : List Token → Value → List Token → Prop} {vs : List Value}
  {σ σ' : List Scope} {ts rest : List Token}

def Visible (G : List Token → Value → List Token → Prop) : Reading Value :=
  fun σ ts v σ' rest => G ts v rest ∧ Fresh σ [v] ∧ σ' = extend σ [v]

theorem Listed.visible {τ τ' : List Scope} (h : Listed close (Plain G) τ ts vs τ' rest)
    (hf : Fresh σ vs) : Listed close (Visible G) σ ts vs (extend σ vs) rest := by
  induction h generalizing σ with
  | nil ht => simpa using .nil ht
  | last hv ht => exact .last ⟨hv.2, hf, rfl⟩ ht
  | cons hv ht _ ih =>
    rw [fresh_cons] at hf
    rw [extend_cons]
    exact .cons ⟨hv.2, hf.1, rfl⟩ ht (ih hf.2)

theorem listed_visible_iff : Listed close (Visible G) σ ts vs σ' rest ↔
    Listed close (Plain G) [] ts vs [] rest ∧ Fresh σ vs ∧ σ' = extend σ vs := by
  constructor
  · intro h
    induction h with
    | @nil σ _ _ ht => exact ⟨.nil ht, fresh_nil σ, (extend_nil σ).symm⟩
    | last hv ht =>
      obtain ⟨hg, hf, rfl⟩ := hv
      exact ⟨.last ⟨rfl, hg⟩ ht, hf, rfl⟩
    | cons hv ht _ ih =>
      obtain ⟨hg, hf, rfl⟩ := hv
      obtain ⟨hl, hfs, rfl⟩ := ih
      exact ⟨.cons ⟨rfl, hg⟩ ht hl, fresh_cons.2 ⟨hf, hfs⟩, (extend_cons ..).symm⟩
  · rintro ⟨hl, hf, rfl⟩
    exact hl.visible hf

end Parser

end BrilIR
