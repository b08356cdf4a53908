import BrilIR.Proofs.Grammar.Scoping
import BrilIR.Proofs.Grammar.TreeParser
import BrilIR.Proofs.Parser.Cursor

/-!
What reading leaves behind in the scopes. An op makes its results visible in the innermost scope and
touches no other. A region has a scope of its own that is gone behind it, whatever its ops have put
into it, if only they leave alone the scopes around.
-/

namespace BrilIR

open BrilIR.Parser

namespace Scope

/-- The scope has become `inner` by values that it had no names for, each under a name of its own.
What it had before is still there. -/
structure Gains (scope inner : Scope) (vs : List Value) : Prop where
  absent : ∀ v ∈ vs, lookup? [scope] v.name = none
  nodup : (vs.map Value.name).Nodup
  lookup?_iff : ∀ name v, lookup? [inner] name = some v ↔
    lookup? [scope] name = some v ∨ v ∈ vs ∧ v.name = name

theorem tail_extend (σ : List Scope) (vs : List Value) : (extend σ vs).tail = σ.tail := by
  cases σ <;> rfl

theorem gains_of_fresh {scope : Scope} {outer : List Scope} {vs : List Value}
    (h : Fresh (scope :: outer) vs) : Gains scope (vs.reverse ++ scope) vs := by
  obtain ⟨hnodup, hnew⟩ := fresh_cons_scope_iff.1 h
  have habsent : ∀ v ∈ vs, lookup? [scope] v.name = none := by
    intro v hv
    simpa [lookup?] using hnew v hv
  refine ⟨habsent, hnodup, fun name v => ?_⟩
  have hinner : lookup? [vs.reverse ++ scope] name =
      (vs.reverse.find? (·.name == name)).or (lookup? [scope] name) := lookup?_extend vs name
  rw [hinner]
  -- A value that is gained is the only one under its name, since the scope had none.
  cases hfind : vs.reverse.find? (·.name == name) with
  | none =>
    have hnone : ∀ u ∈ vs, u.name ≠ name := by simpa using hfind
    rw [Option.none_or]
    constructor
    · exact .inl
    · rintro (h | ⟨hv, e⟩)
      · exact h
      · exact absurd e (hnone v hv)
  | some u =>
    have hu : u ∈ vs := List.mem_reverse.1 (List.mem_of_find?_eq_some hfind)
    have hname : u.name = name := by simpa using List.find?_some hfind
    rw [Option.some_or, ← hname, habsent u hu]
    constructor
    · intro e
      cases e
      exact .inr ⟨hu, rfl⟩
    · rintro (e | ⟨hv, e⟩)
      · cases e
      · rw [List.inj_on_of_nodup_map hnodup hv hu e]

end Scope

namespace Parser

variable {α β : Type} {x : Parser α}

def Keeps (x : Parser α) : Prop := ∀ ⦃p a q⦄, x p = .ok a q → q.scopes = p.scopes

def KeepsOuter (x : Parser α) : Prop := ∀ ⦃p a q⦄, x p = .ok a q → q.scopes.tail = p.scopes.tail

theorem Denotes.keeps {G : List Token → α → List Token → Prop} (h : Denotes x (Plain G)) :
    Keeps x :=
  fun _ _ _ e => (h.apply_ok e).1

theorem keeps_get : Keeps (get : Parser ParserState) := by
  intro p a q e
  cases e
  rfl

theorem keeps_require {c : Prop} [Decidable c] {t : Token} {cause : ParseError.Cause} :
    Keeps (require c t cause) :=
  fun _ _ _ e => (denotes_require.apply_ok e).2.1

theorem Keeps.outer (h : Keeps x) : KeepsOuter x :=
  fun _ _ _ e => congrArg List.tail (h e)

namespace KeepsOuter

variable {f : α → Parser β}

protected theorem bind (hx : KeepsOuter x) (hf : ∀ a, KeepsOuter (f a)) : KeepsOuter (x >>= f) := by
  intro p b q e
  obtain ⟨a, mid, ha, hb⟩ := bind_ok.1 e
  exact (hf a hb).trans (hx ha)

protected theorem pure (a : α) : KeepsOuter (pure a : Parser α) :=
  (Denotes.pure a).keeps.outer

theorem repeatUntil {stop : ParserState → Bool} {step : β → Parser β}
    (h : ∀ b, KeepsOuter (step b)) (b : β) : KeepsOuter (Parser.repeatUntil stop step b) := by
  refine repeatUntil_rule (C := KeepsOuter) (P := fun _ => True) ?_ (fun b _ => .pure b)
    (fun b _ => h b) (fun b f _ hf => (h b).bind fun c => hf c trivial) trivial
  intro x hx p a q e
  obtain ⟨y, hxy, hy⟩ := hx p
  exact hy (hxy ▸ e)

end KeepsOuter

theorem ok_of_test {p : ParserState} (test : α → Bool)
    (h : (match x p with | .ok a _ => test a | .error _ _ => false) = true) :
    ∃ a q, x p = .ok a q ∧ test a = true := by
  cases hx : x p with
  | ok a q =>
    rw [hx] at h
    exact ⟨a, q, rfl, h⟩
  | error e q =>
    rw [hx] at h
    cases h

end Parser

namespace Region

variable {op : Parser Op}

theorem keepsOuter_parseBlock (h : KeepsOuter op) (blocks : List Block) :
    KeepsOuter (parseBlock op blocks) := by
  have turn (ops : List Op) : KeepsOuter (itemTurn op ops) := h.bind fun _ => .pure _
  exact .bind keeps_get.outer fun _ => .bind (.bind keeps_get.outer fun _ => .pure _) fun _ =>
    .bind keeps_require.outer fun _ => .bind denotes_parseLabel.keeps.outer fun _ =>
    .bind (.repeatUntil turn []) fun _ => .pure _

/-- The scope of a region is the one that its ops add to, and it is taken away behind them. -/
theorem keeps_parse (h : KeepsOuter op) : Keeps (Region.parse op) := by
  intro p r q e
  obtain ⟨_, p₁, hopen, e⟩ := bind_ok.1 e
  obtain ⟨_, p₂, hpush, e⟩ := bind_ok.1 e
  obtain ⟨blocks, p₃, hblocks, e⟩ := bind_ok.1 e
  obtain ⟨_, p₄, hclose, e⟩ := bind_ok.1 e
  obtain ⟨_, p₅, hpop, e⟩ := bind_ok.1 e
  have hend : q.scopes = p₅.scopes := by
    cases hlinked : undefinedSuccessor? blocks with
    | some clash =>
      rw [hlinked] at e
      cases e
    | none =>
      rw [hlinked] at e
      cases e
      rfl
  calc q.scopes
      = p₅.scopes := hend
    _ = p₄.scopes.tail := (denotes_popScope.apply_ok hpop).1
    _ = p₃.scopes.tail := congrArg List.tail (denotes_mark.keeps hclose)
    _ = p₂.scopes.tail := KeepsOuter.repeatUntil (keepsOuter_parseBlock h) [] hblocks
    _ = p₁.scopes := congrArg List.tail (denotes_pushScope.apply_ok hpush).1
    _ = p.scopes := denotes_mark.keeps hopen

end Region

theorem OpKind.Shows.results_eq_nil {kind : OpKind} {o : Operation} (h : kind.Shows o)
    (hkind : ∀ i, kind ≠ .instr i) : o.results = [] := by
  cases kind with
  | moduleOp => rw [h]
  | funcOp style signature => rw [h.1]
  | returnOp => rw [h]
  | instr i => exact absurd rfl (hkind i)

namespace Op

variable {p q : ParserState} {op : Op}

theorem scopes_of_parse (h : parse p = .ok op q) :
    Scope.Fresh p.scopes op.operation.results ∧
      q.scopes = Scope.extend p.scopes op.operation.results := by
  obtain ⟨hderives, hscopes⟩ := denotes_parse.apply_ok h
  exact ⟨hderives.fits.scoped.results, hscopes⟩

theorem results_of_parse (h : parse p = .ok op q) (hkind : ∀ i, op.kind ≠ .instr i) :
    op.operation.results = [] := by
  obtain ⟨hderives, -⟩ := denotes_parse.apply_ok h
  obtain ⟨mid, hhead⟩ := hderives.exists_head
  exact hhead.shows.results_eq_nil hkind

theorem keepsOuter_parse : KeepsOuter parse := by
  intro p op q h
  rw [(scopes_of_parse h).2, Scope.tail_extend]

/-- Reading an op changes the innermost scope only. That one gains the results of the op under their
names, none of which it had; for a module, a function or an op that returns it stays as it is, and
whatever is defined in their regions is gone behind them. Reading a region leaves all scopes as they
were. -/
theorem parse_changes_innermost :
    (∀ p op q, parse p = .ok op q → ∀ scope outer, p.scopes = scope :: outer →
      ∃ inner, q.scopes = inner :: outer ∧ Scope.Gains scope inner op.operation.results ∧
        ((∀ i, op.kind ≠ .instr i) → inner = scope)) ∧
    ∀ p r q, Region.parse parse p = .ok r q → q.scopes = p.scopes := by
  refine ⟨fun p op q h scope outer hp => ?_, Region.keeps_parse keepsOuter_parse⟩
  obtain ⟨hfresh, hscopes⟩ := scopes_of_parse h
  rw [hp] at hfresh hscopes
  refine ⟨op.operation.results.reverse ++ scope, hscopes, Scope.gains_of_fresh hfresh, ?_⟩
  intro hkind
  rw [results_of_parse h hkind, List.reverse_nil, List.nil_append]

def rebinding : List Token :=
  [⟨.percentIdentifier, "%a", ⟨0, 24⟩⟩, ⟨.equal, "=", ⟨0, 27⟩⟩, ⟨.string, "\"bril.id\"", ⟨0, 29⟩⟩,
    ⟨.lparen, "(", ⟨0, 38⟩⟩, ⟨.percentIdentifier, "%a", ⟨0, 39⟩⟩, ⟨.rparen, ")", ⟨0, 41⟩⟩,
    ⟨.colon, ":", ⟨0, 43⟩⟩, ⟨.lparen, "(", ⟨0, 45⟩⟩, ⟨.intType, "i1", ⟨0, 46⟩⟩,
    ⟨.rparen, ")", ⟨0, 48⟩⟩, ⟨.arrow, "->", ⟨0, 50⟩⟩, ⟨.intType, "i1", ⟨0, 53⟩⟩]

def rebindingRegion : List Token :=
  ⟨.lbrace, "\x7b", ⟨0, 22⟩⟩ :: rebinding ++ [⟨.rbrace, "\x7d", ⟨0, 56⟩⟩]

def rebindingFunction : List Token :=
  [⟨.bareIdentifier, "bril.func", ⟨0, 0⟩⟩, ⟨.atIdentifier, "@f", ⟨0, 10⟩⟩, ⟨.lparen, "(", ⟨0, 12⟩⟩,
    ⟨.percentIdentifier, "%a", ⟨0, 13⟩⟩, ⟨.colon, ":", ⟨0, 16⟩⟩, ⟨.intType, "i1", ⟨0, 18⟩⟩,
    ⟨.rparen, ")", ⟨0, 20⟩⟩] ++ rebindingRegion

/-- A state in front of the tokens, in a function with the parameter `%a` and behind an op with the
result `%b`. -/
def insideOfFunction (ts : List Token) : ParserState :=
  { ParserState.ofTokens ⟨ts, ⟨0, 57⟩⟩ with
    scopes := [[.result "%b" (.int 1)], [.argument "%a" (.int 1)]] }

/-- The op adds its result in front of the parameter, the function and the region add nothing. -/
theorem parse_changes_innermost_rebinding :
    (∃ op q inner, parse (insideOfFunction rebinding) = .ok op q ∧
      q.scopes = [inner, [.argument "%a" (.int 1)]] ∧
      Scope.Gains [.result "%b" (.int 1)] inner [.result "%a" (.int 1)]) ∧
    (∃ op q, parse (insideOfFunction rebindingFunction) = .ok op q ∧
      q.scopes = [[.result "%b" (.int 1)], [.argument "%a" (.int 1)]]) ∧
    ∃ r q, Region.parse parse (insideOfFunction rebindingRegion) = .ok r q ∧
      q.scopes = [[.result "%b" (.int 1)], [.argument "%a" (.int 1)]] := by
  obtain ⟨hparse, hregion⟩ := parse_changes_innermost
  refine ⟨?_, ?_, ?_⟩
  · obtain ⟨op, q, h, htest⟩ := ok_of_test (x := parse) (p := insideOfFunction rebinding)
      (fun op => decide (op.operation.results = [.result "%a" (.int 1)]))
      (by decide +kernel)
    obtain ⟨inner, hq, hgains, -⟩ := hparse _ op q h _ _ rfl
    rw [of_decide_eq_true htest] at hgains
    exact ⟨op, q, inner, h, hq, hgains⟩
  · obtain ⟨op, q, h, htest⟩ := ok_of_test (x := parse) (p := insideOfFunction rebindingFunction)
      (fun op => decide (op.kind = .funcOp .bril { identifier := some "f" }))
      (by decide +kernel)
    obtain ⟨inner, hq, -, hkind⟩ := hparse _ op q h _ _ rfl
    have hinner := hkind (by simp [of_decide_eq_true htest])
    exact ⟨op, q, h, hinner ▸ hq⟩
  · obtain ⟨r, q, h, -⟩ := ok_of_test (x := Region.parse parse)
      (p := insideOfFunction rebindingRegion) (fun _ => true) (by decide +kernel)
    exact ⟨r, q, h, hregion _ r q h⟩

end Op

end BrilIR
