import BrilIR.Proofs.Printing.Tree

/-! What the grammar accepts can be shown again: trees that were read are regular. -/

namespace BrilIR

open Token BrilIR.Parser Scope

/-- No op that was read has a name behind it that it could take for a returned value. -/
theorem Op.Derives.not_percent {op : Op} {σ : List Scope} {ts rest : List Token}
    (h : op.Derives σ ts rest) (hr : op.ReturnsNothing) : ¬ StartsWith .percentIdentifier rest := by
  obtain ⟨kind, o, r⟩ := op
  obtain ⟨hk, ho⟩ := hr
  cases hk
  have form {mid : List Token} (hf : OpKind.returnOp.ReadsHead ts o mid) :
      ¬ StartsWith .percentIdentifier mid := by
    obtain ⟨ts₁, ts₂, -, hn, ht⟩ := hf.form
    have ho : o.operands = [] := ho
    rw [if_pos ho] at ht
    rw [ho] at hn
    subst ht
    rcases hn with ⟨-, hn⟩ | ⟨hn, -, rfl⟩
    · cases hn
    · exact hn
  cases r with
  | none =>
    simp only [Op.Derives] at h
    exact form h.1
  | some r =>
    simp only [Op.Derives] at h
    obtain ⟨_, _, _, -, -, ht, -⟩ := h
    exact ht.elim

theorem Op.Derives.next_results {op next : Op} {σ τ : List Scope} {ts mid rest : List Token}
    (h : op.Derives σ ts mid) (hn : next.Derives τ mid rest) (hr : op.ReturnsNothing) :
    next.operation.results = [] := by
  rcases hn.front with ⟨hs, -⟩ | ⟨-, he⟩
  · exact absurd hs (h.not_percent hr)
  · exact he

mutual

theorem Op.Derives.returnsApart : {op : Op} → {σ : List Scope} → {ts rest : List Token} →
    op.Derives σ ts rest → op.ReturnsApart
  | .mk kind o none, σ, ts, rest, h => trivial
  | .mk kind o (some r), σ, ts, rest, h => by
    simp only [Op.Derives] at h
    obtain ⟨_, _, _, -, -, -, -, hr, -⟩ := h
    exact hr.returnsApart

theorem Region.Derives.returnsApart : {r : List Block} → {σ : List Scope} →
    {ts rest : List Token} → Region.Derives σ ts r rest → Region.ReturnsApart r
  | [], σ, ts, rest, h => trivial
  | .mk label ops :: r, σ, ts, rest, h => by
    simp only [Region.Derives] at h
    obtain ⟨_, _, -, -, -, ho, hr⟩ := h
    exact ⟨ho.returnsApart, hr.returnsApart⟩

theorem Block.Derives.returnsApart : {ops : List Op} → {σ : List Scope} →
    {ts rest : List Token} → Block.Derives σ ts ops rest → Block.ReturnsApart ops
  | [], σ, ts, rest, h => trivial
  | op :: ops, σ, ts, rest, h => by
    simp only [Block.Derives] at h
    obtain ⟨mid, -, ho, hs⟩ := h
    refine ⟨ho.returnsApart, fun hr next hn => ?_, hs.returnsApart⟩
    cases ops with
    | nil => cases hn
    | cons next' ops =>
      cases hn
      simp only [Block.Derives] at hs
      obtain ⟨_, -, hn, -⟩ := hs
      exact ho.next_results hn hr

end

/-! Places have no part in how ops that return stand. -/

theorem Op.returnsNothing_unlocated_iff {op : Op} :
    op.unlocated.ReturnsNothing ↔ op.ReturnsNothing := by
  rw [ReturnsNothing, kind_unlocated, operation_unlocated]
  exact Iff.rfl

mutual

theorem Op.returnsApart_unlocated_iff : (op : Op) →
    (op.unlocated.ReturnsApart ↔ op.ReturnsApart)
  | .mk _ _ none => Iff.rfl
  | .mk _ _ (some r) => Region.returnsApart_unlocated_iff r

theorem Region.returnsApart_unlocated_iff : (r : List Block) →
    (Region.ReturnsApart (Region.unlocated r) ↔ Region.ReturnsApart r)
  | [] => Iff.rfl
  | .mk _ ops :: r =>
    and_congr (Block.returnsApart_unlocated_iff ops) (Region.returnsApart_unlocated_iff r)

theorem Block.returnsApart_unlocated_iff : (ops : List Op) →
    (Block.ReturnsApart (Block.unlocated ops) ↔ Block.ReturnsApart ops)
  | [] => Iff.rfl
  | op :: ops => by
    have hnext : (∀ next ∈ (Block.unlocated ops).head?, next.operation.results = []) ↔
        ∀ next ∈ ops.head?, next.operation.results = [] := by
      cases ops with
      | nil => exact Iff.rfl
      | cons next ops => simp [Block.unlocated, Op.operation_unlocated, Operation.located]
    simp only [Block.unlocated, Block.ReturnsApart, Op.returnsApart_unlocated_iff op,
      Op.returnsNothing_unlocated_iff, hnext, Block.returnsApart_unlocated_iff ops]

end

/-! What is read of a source has the form of what is shown. -/

/-- Tokens of a source in which no string value of an attribute ends in two quotes, unless it is
empty. -/
structure Clean (ts : List Token) : Prop where
  lexemes : ∀ t ∈ ts, Lexeme t.kind t.lexeme.toList
  strings : ∀ key eq t rest, key :: eq :: t :: rest <:+ ts → key.kind = .bareIdentifier →
    eq.kind = .equal → t.kind = .string → t.lexeme = "\"\"" ∨ ¬ ['"', '"'] <:+ t.lexeme.toList

namespace Clean

variable {ts rest : List Token}

theorem mono (h : Clean ts) (hs : rest <:+ ts) : Clean rest :=
  ⟨fun t ht => h.lexemes t (hs.subset ht),
    fun key eq t us hu => h.strings key eq t us (hu.trans hs)⟩

theorem word {kind : Kind} {w : String} (h : Clean ts) (hw : Word kind ts w rest) :
    Lexeme kind w.toList := by
  obtain ⟨t, rfl, hk, rfl⟩ := hw
  exact hk ▸ h.lexemes t (by simp)

variable {α : Type} {G : List Token → α → List Token → Prop} {P : α → Prop} {σ σ' : List Scope}
  {as : List α}

theorem listed {close : Kind} (h : Clean ts) (hl : Listed close (Plain G) σ ts as σ' rest)
    (hG : Consumes (Plain G)) (hP : ∀ {ts a rest}, Clean ts → G ts a rest → P a) :
    ∀ a ∈ as, P a := by
  intro a ha
  obtain ⟨us, us', hs, hr⟩ := hl.exists_reads hG a ha
  exact hP (h.mono hs) hr

theorem separated (h : Clean ts) (hs : Separated (Plain G) σ ts as σ' rest)
    (hG : Consumes (Plain G)) (hP : ∀ {ts a rest}, Clean ts → G ts a rest → P a) :
    ∀ a ∈ as, P a := by
  induction hs with
  | last ha _ => simpa using hP h ha.2
  | cons ha _ _ ih =>
    exact List.forall_mem_cons.2 ⟨hP h ha.2, ih (h.mono (hG ha).next.suffix)⟩

theorem words {kind : Kind} {ws : List String} (h : Clean ts)
    (hw : CommaList (Word kind) ts ws rest) : ∀ w ∈ ws, Lexeme kind w.toList :=
  h.separated hw (fun h => h.2.beyond) fun h => h.word

end Clean

theorem Ty.ReadsList.regular {ts rest : List Token} {types : List Ty}
    (h : Ty.ReadsList ts types rest) : ∀ t ∈ types, t.Regular := by
  obtain ⟨mid, -, hl⟩ := h
  exact Listed.forall (fun h => h.regular) hl

theorem Ty.ReadsResults.regular {ts rest : List Token} {types : List Ty}
    (h : Ty.ReadsResults ts types rest) : ∀ t ∈ types, t.Regular := by
  rcases h with h | ⟨t, rfl, h⟩
  · exact h.regular
  · simpa using h.regular

theorem Value.regular_of_map {vs : List Value}
    (hn : ∀ n ∈ vs.map Value.name, Lexeme .percentIdentifier n.toList)
    (ht : ∀ t ∈ vs.map Value.type, t.Regular) : ∀ v ∈ vs, v.Regular :=
  fun v hv => ⟨hn v.name (List.mem_map_of_mem hv), ht v.type (List.mem_map_of_mem hv)⟩

theorem isName_trimAt {w : String} (h : Lexeme .atIdentifier w.toList) : IsName (trimAt w) := by
  obtain ⟨c, body, e, hc, hne, hb⟩ := h
  have hw : w = "@" ++ String.ofList body := by
    have : c = '@' := by
      unfold sigilKind? at hc
      split at hc <;> cases hc
      rfl
    rw [← String.toList_inj, e, this]
    simp
  have hn : IsName (String.ofList body) := by simpa [IsName] using ⟨hne, hb⟩
  rw [hw, trimAt_at hn]
  exact hn

theorem exists_content {w : String} (h : Lexeme .string w.toList)
    (hw : w = "\"\"" ∨ ¬ ['"', '"'] <:+ w.toList) :
    ∃ s, IsContent s ∧ w = "\"" ++ s ++ "\"" := by
  obtain ⟨body, e, hb⟩ := h
  refine ⟨String.ofList body, ⟨by simpa using hb, ?_⟩, ?_⟩
  · rw [String.toList_ofList]
    intro hl
    obtain ⟨body', rfl⟩ := List.getLast?_eq_some_iff.1 hl
    rcases hw with rfl | hw
    · have := congrArg List.length e
      simp at this
    · exact hw ⟨'"' :: body', by rw [e]; simp⟩
  · rw [← String.toList_inj, e]
    simp

theorem isContent_trimQuotes {w : String} (h : Lexeme .string w.toList)
    (hw : w = "\"\"" ∨ ¬ ['"', '"'] <:+ w.toList) : IsContent (trimQuotes w) := by
  obtain ⟨s, hs, rfl⟩ := exists_content h hw
  rw [hs.trimQuotes]
  exact hs

def Attribute.IsInfinite : Attribute → Prop
  | .float x _ => x.isInfinite = true
  | _ => False

instance : DecidablePred Attribute.IsInfinite
  | .float x _ => inferInstanceAs (Decidable (x.isInfinite = true))
  | .int _ _ | .bool _ | .string _ | .symbol _ | .type _ => isFalse id

theorem Attribute.Reads.regular {ts rest : List Token} {a : Attribute} (h : a.Reads ts rest)
    (hl : ∀ t ∈ ts, Lexeme t.kind t.lexeme.toList)
    (hs : ∀ t us, ts = t :: us → t.kind = .string →
      t.lexeme = "\"\"" ∨ ¬ ['"', '"'] <:+ t.lexeme.toList) (hf : ¬ a.IsInfinite) :
    a.Regular := by
  cases a with
  | int _ u =>
    obtain ⟨_, _, _, _, -, -, -, -, hu⟩ := h
    exact hu.regular
  | float x u =>
    obtain ⟨negative, t, colon, mid, hsign, hk, hv, -, hu⟩ := h
    have ht : t ∈ ts := by
      cases negative with
      | true =>
        obtain ⟨m, rfl, -⟩ := hsign
        simp
      | false =>
        cases hsign
        simp
    have hw : Lexeme .floatLiteral t.lexeme.toList := hk ▸ hl t ht
    exact ⟨Binary64.finite_of_read? hw hv (by simpa [IsInfinite] using hf), hu.regular⟩
  | bool _ => trivial
  | string s =>
    obtain ⟨t, rfl, hk, rfl⟩ := h
    exact isContent_trimQuotes (hk ▸ hl t (by simp)) (hs t rest rfl hk)
  | symbol s =>
    obtain ⟨t, rfl, hk, rfl⟩ := h
    exact isName_trimAt (hk ▸ hl t (by simp))
  | type u => exact Ty.Reads.regular h

theorem Attributes.mem_of_mem_foldl_insert {d : Attributes} {es : List (String × Attribute)}
    {e : String × Attribute} (h : e ∈ (es.foldl (fun d e => d.insert e.1 e.2) d).entries) :
    e ∈ d.entries ∨ e ∈ es := by
  induction es generalizing d with
  | nil => exact .inl h
  | cons e' es ih =>
    rcases ih h with h | h
    · rcases mem_insertEntry h with h | h
      · exact .inr (by simp [h])
      · exact .inl h
    · exact .inr (by simp [h])

theorem Attributes.Reads.regular {ts rest : List Token} {d : Attributes} (h : d.Reads ts rest)
    (hc : Clean ts) (hf : ∀ e ∈ d.entries, ¬ e.2.IsInfinite) : d.Regular := by
  obtain ⟨es, ⟨mid, hm, hl⟩, -, rfl⟩ := h
  have hall := (hc.mono hm.beyond.suffix).listed (P := fun e =>
    Lexeme .bareIdentifier e.1.toList ∧ (¬ e.2.IsInfinite → e.2.Regular)) hl
    (fun h => h.2.beyond) ?_
  · intro e he
    have hes : e ∈ es := by
      rcases mem_of_mem_foldl_insert he with h | h
      · cases h
      · exact h
    exact ⟨(hall e hes).1, (hall e hes).2 (hf e he)⟩
  · rintro ts e rest hc ⟨key, eq, mid, rfl, hk, hn, he, ha⟩
    refine ⟨hn ▸ hk ▸ hc.lexemes key (by simp), fun hf => ?_⟩
    refine ha.regular (fun t ht => hc.lexemes t (by simp [ht])) ?_ hf
    rintro t us rfl ht
    exact hc.strings key eq t us (List.suffix_refl _) hk he ht

namespace Op

variable {ts rest : List Token}

theorem ReadsNames.lexemes {names : List String} (h : ReadsNames ts names rest) (hc : Clean ts) :
    ∀ n ∈ names, Lexeme .percentIdentifier n.toList := by
  rcases h with ⟨-, h⟩ | ⟨-, rfl, -⟩
  · exact hc.words h
  · simp

theorem ReadsResultNames.lexemes {names : List String} (h : ReadsResultNames ts names rest)
    (hc : Clean ts) : ∀ n ∈ names, Lexeme .percentIdentifier n.toList := by
  rcases h with ⟨-, mid, h, -⟩ | ⟨-, rfl, -⟩
  · exact hc.words h
  · simp

theorem ReadsSuccessors.lexemes {labels : List String} (h : ReadsSuccessors ts labels rest)
    (hc : Clean ts) : ∀ l ∈ labels, Lexeme .caretIdentifier l.toList := by
  rcases h with ⟨-, mid, hm, h⟩ | ⟨-, rfl, -⟩
  · exact (hc.mono hm.beyond.suffix).listed h (fun h => h.2.beyond) fun h => h.word
  · simp

theorem regular_of_generic {i : Instr} {o : Operation} (hn : o.name = i.name)
    (hs : (OpKind.instr i).Shows o) (h : ReadsGeneric i.name ts o rest) (hc : Clean ts)
    (hf : ∀ e ∈ o.attributes.entries, ¬ e.2.IsInfinite) : (OpKind.instr i).Regular o := by
  obtain ⟨quoted, ts₁, ts₂, ts₃, ts₄, ts₅, ts₆, ts₇, ts₈, ts₉, hr, -, -, hlp, hu, hrp, hss, ha, -,
    ht, -, hrt⟩ := h
  have hc₂ : Clean ts₂ :=
    hc.mono (((hlp.beyond.suffix).trans (List.suffix_cons quoted ts₁)).trans hr.suffix)
  have hc₄ : Clean ts₄ := hc₂.mono (hrp.beyond.suffix.trans hu.suffix)
  refine ⟨hn, hs, by simp, by simp [hs.1], Value.regular_of_map (hu.lexemes hc₂) ht.regular,
    Value.regular_of_map (hr.lexemes hc) hrt.regular, ?_, hss.lexemes hc₄⟩
  rcases ha with ⟨-, ha⟩ | ⟨-, ha, -⟩
  · exact ha.regular (hc₄.mono hss.suffix) hf
  · rw [ha]
    exact Attributes.regular_empty

theorem regular_of_return {o : Operation} (hn : o.name = "return")
    (hs : OpKind.returnOp.Shows o) (h : ReadsReturn "return" ts o rest) (hc : Clean ts) :
    OpKind.returnOp.Regular o := by
  obtain ⟨ts₁, ts₂, hw, hu, ht⟩ := h
  have types : ∀ t ∈ o.operandTypes, t.Regular := by
    by_cases ho : o.operands = []
    · simp [Operation.operandTypes, ho]
    · rw [if_neg ho] at ht
      obtain ⟨ts₃, hm, ht⟩ := ht
      exact (hc.mono (hm.beyond.suffix.trans (hu.suffix.trans hw.beyond.suffix))).separated ht
        Ty.Reads.consumes fun _ h => h.regular
  have operands := Value.regular_of_map (hu.lexemes (hc.mono hw.beyond.suffix)) types
  rw [hs] at operands ⊢
  exact ⟨hn, rfl, by simp, by simp, operands, by simp, Attributes.regular_empty, by simp⟩

theorem regular_of_func {style : FuncStyle} {s : Signature} {o : Operation}
    (hn : o.name = style.name)
    (hs : (OpKind.funcOp style s).Shows o) (h : ReadsFunc style.name s ts o rest) (hc : Clean ts) :
    (OpKind.funcOp style s).Regular o := by
  obtain ⟨symbol, ts₁, ts₂, ts₃, hw, hk, hid, hm, ha, hr⟩ := h
  have hc₁ : Clean (symbol :: ts₁) := hc.mono hw.beyond.suffix
  have signature : s.Regular := by
    refine ⟨⟨_, hid, isName_trimAt (hk ▸ hc₁.lexemes symbol (by simp))⟩, ?_⟩
    rcases hr with ⟨-, mid, -, hr⟩ | ⟨-, hr, -⟩
    · exact hr.regular
    · simp [hr]
  have arguments : ∀ v ∈ o.arguments, v.Regular := by
    have hc₂ : Clean ts₂ := hc₁.mono (hm.beyond.suffix.trans (List.suffix_cons symbol ts₁))
    refine hc₂.listed ha (fun h => h.2.beyond) ?_
    rintro ts v rest hc ⟨_, _, hw, -, ht, -⟩
    exact ⟨hc.word hw, ht.regular⟩
  have hs' := hs
  rw [hs.1] at arguments hs' ⊢
  refine ⟨hn, hs', ?_, arguments, by simp, by simp, Attributes.regular_empty, by simp⟩
  intro style' s' e
  cases e
  exact signature

end Op

/-- Operations that were read can be shown. -/
theorem OpKind.ReadsHead.regular {kind : OpKind} {o : Operation} {ts rest : List Token}
    (h : kind.ReadsHead ts o rest) (hc : Clean ts)
    (hf : ∀ e ∈ o.attributes.entries, ¬ e.2.IsInfinite) : kind.Regular o := by
  obtain ⟨hn, -, hs, h⟩ := h
  cases kind with
  | moduleOp =>
    rw [hs, show o.name = "module" from hn]
    exact regular_module o.location
  | funcOp style s => exact Op.regular_of_func hn hs h hc
  | returnOp => exact Op.regular_of_return hn hs h hc
  | instr i => exact Op.regular_of_generic hn hs h hc hf

theorem Scope.Alike.inner {σ τ : List Scope} (h : Alike σ τ) (kind : OpKind) (o : Operation) :
    Alike (kind.inner σ o) (kind.inner τ o) := by
  cases kind with
  | funcOp _ _ => exact (h.push.extend o.arguments).push
  | moduleOp => exact h.push
  | returnOp => exact h.push
  | instr _ => exact h.push

theorem Operation.Scoped.alike {σ τ : List Scope} {o : Operation} (ho : o.Scoped σ)
    (h : Alike σ τ) : o.Scoped τ := by
  have he : ([] :: σ).head? = ([] :: τ).head? := rfl
  exact ⟨fun v hv => (h.lookup _).symm.trans (ho.resolves v hv), fresh_congr h.head ho.results,
    fresh_congr he ho.arguments⟩

def Op.Bounded (op : Op) : Prop := ∀ e ∈ op.operation.attributes.entries, ¬ e.2.IsInfinite

instance : DecidablePred Op.Bounded := fun op =>
  inferInstanceAs (Decidable (∀ e ∈ op.operation.attributes.entries, ¬ e.2.IsInfinite))

mutual

/-- Ops that were read can be shown. -/
theorem Op.Derives.regular : {op : Op} → {σ τ : List Scope} → {ts rest : List Token} → {d : Nat} →
    op.Derives σ ts rest → Alike σ τ → Clean ts → (∀ p ∈ op.preorder d, p.2.Bounded) →
    op.Regular τ
  | .mk kind o none, σ, τ, ts, rest, d, h, hσ, hc, hf => by
    simp only [Op.Derives] at h
    simp only [Op.preorder, List.mem_singleton, forall_eq] at hf
    obtain ⟨hh, hs, he⟩ := h
    simp only [Op.Regular]
    refine ⟨hh.regular hc hf, hs.alike hσ, ?_⟩
    rintro rfl
    exact he
  | .mk kind o (some r), σ, τ, ts, rest, d, h, hσ, hc, hf => by
    simp only [Op.Derives] at h
    simp only [Op.preorder, List.forall_mem_cons] at hf
    obtain ⟨ts₁, ts₂, ts₃, hh, hs, ht, hl, hr, -, hlinked⟩ := h
    simp only [Op.Regular]
    exact ⟨hh.regular hc hf.1, hs.alike hσ, ht, hlinked, hr.regular (hσ.inner kind o)
      (hc.mono (hl.beyond.suffix.trans hh.beyond.suffix)) hf.2⟩

theorem Region.Derives.regular : {r : List Block} → {σ τ : List Scope} → {ts rest : List Token} →
    {d : Nat} → Region.Derives σ ts r rest → Alike σ τ → Clean ts →
    (∀ p ∈ Region.preorder d r, p.2.Bounded) → Region.Regular τ r
  | [], σ, τ, ts, rest, d, h, hσ, hc, hf => trivial
  | .mk label ops :: r, σ, τ, ts, rest, d, h, hσ, hc, hf => by
    simp only [Region.Derives] at h
    simp only [Region.preorder, List.forall_mem_append] at hf
    obtain ⟨ts₁, ts₂, hb, hne, hl, ho, hr⟩ := h
    have hc₁ : Clean ts₁ := hc.mono hl.suffix
    simp only [Region.Regular]
    refine ⟨?_, ?_, hr.labelled ho.blockEnds_rest, ho.regular hσ hc₁ hf.1,
      hr.regular (hσ.extend _) (hc₁.mono ho.suffix) hf.2⟩
    · rintro l rfl
      obtain ⟨mid, hw, -⟩ := hl
      exact hc.word hw
    · rintro rfl rfl
      obtain ⟨hcaret, rfl⟩ := hl
      simp only [Block.Derives] at ho
      rcases ho.1 with h | h | h
      · exact hb h
      · exact hcaret h
      · exact hne h

theorem Block.Derives.regular : {ops : List Op} → {σ τ : List Scope} → {ts rest : List Token} →
    {d : Nat} → Block.Derives σ ts ops rest → Alike σ τ → Clean ts →
    (∀ p ∈ Block.preorder d ops, p.2.Bounded) → Block.Regular τ ops
  | [], σ, τ, ts, rest, d, h, hσ, hc, hf => trivial
  | op :: ops, σ, τ, ts, rest, d, h, hσ, hc, hf => by
    simp only [Block.Derives] at h
    simp only [Block.preorder, List.forall_mem_append] at hf
    obtain ⟨mid, -, ho, hs⟩ := h
    exact ⟨ho.regular hσ hc hf.1, hs.regular (hσ.extend _) (hc.mono ho.beyond.suffix) hf.2⟩

end

end BrilIR
