import BrilIR.Op.Parser
import BrilIR.Proofs.Grammar.Attribute
import BrilIR.Proofs.Parser.Scope

/-!
The grammar of ops up to their regions. Each kind of op has a form; the parser of the form reads
just the tokens that are in it, and the operands are the values that scoping finds.
-/

namespace BrilIR

open BrilIR.Parser Scope

/-- Nothing of an operation is set that the form of its kind has no place for. -/
def OpKind.Shows : OpKind → Operation → Prop
  | .moduleOp, o => o = { name := o.name, location := o.location }
  | .funcOp _ _, o => o = { name := o.name, location := o.location, arguments := o.arguments } ∧
      ∀ v ∈ o.arguments, v = .argument v.name v.type
  | .returnOp, o => o = { name := o.name, location := o.location, operands := o.operands }
  | .instr _, o => o.arguments = [] ∧ ∀ v ∈ o.results, v = .result v.name v.type

namespace Op

def ReadsNames : List Token → List String → List Token → Prop :=
  IfNext .percentIdentifier (CommaList (Word .percentIdentifier)) []

def ReadsResultNames : List Token → List String → List Token → Prop :=
  IfNext .percentIdentifier (fun ts names rest =>
    ∃ mid, CommaList (Word .percentIdentifier) ts names mid ∧ Mark .equal mid rest) []

def ReadsSuccessors : List Token → List String → List Token → Prop :=
  IfNext .lbracket (fun ts labels rest =>
    ∃ mid, Mark .lbracket ts mid ∧ ListOf .rbracket (Word .caretIdentifier) mid labels rest) []

def ReadsGeneric (name : String) (ts : List Token) (o : Operation) (rest : List Token) : Prop :=
  ∃ quoted ts₁ ts₂ ts₃ ts₄ ts₅ ts₆ ts₇ ts₈ ts₉,
    ReadsResultNames ts (o.results.map Value.name) (quoted :: ts₁) ∧ quoted.kind = .string ∧
    trimQuotes quoted.lexeme = name ∧ Mark .lparen ts₁ ts₂ ∧
    ReadsNames ts₂ (o.operands.map Value.name) ts₃ ∧ Mark .rparen ts₃ ts₄ ∧
    ReadsSuccessors ts₄ o.successors ts₅ ∧
    IfNext .lbrace Attributes.Reads ∅ ts₅ o.attributes ts₆ ∧ Mark .colon ts₆ ts₇ ∧
    Ty.ReadsList ts₇ o.operandTypes ts₈ ∧ Mark .arrow ts₈ ts₉ ∧
    Ty.ReadsResults ts₉ o.resultTypes rest

def ReadsReturn (name : String) (ts : List Token) (o : Operation) (rest : List Token) : Prop :=
  ∃ ts₁ ts₂, Word .bareIdentifier ts name ts₁ ∧
    ReadsNames ts₁ (o.operands.map Value.name) ts₂ ∧
    if o.operands = [] then rest = ts₂
    else ∃ ts₃, Mark .colon ts₂ ts₃ ∧ CommaList Ty.Reads ts₃ o.operandTypes rest

def ReadsArgument (ts : List Token) (v : Value) (rest : List Token) : Prop :=
  ∃ ts₁ ts₂, Word .percentIdentifier ts v.name ts₁ ∧ Mark .colon ts₁ ts₂ ∧
    v.type.Reads ts₂ rest ∧ v = .argument v.name v.type

def ReadsFunc (name : String) (signature : Signature) (ts : List Token) (o : Operation)
    (rest : List Token) : Prop :=
  ∃ symbol ts₁ ts₂ ts₃, Word .bareIdentifier ts name (symbol :: ts₁) ∧
    symbol.kind = .atIdentifier ∧ signature.identifier = some (trimAt symbol.lexeme) ∧
    Mark .lparen ts₁ ts₂ ∧ ListOf .rparen ReadsArgument ts₂ o.arguments ts₃ ∧
    IfNext .arrow (fun ts types rest => ∃ mid, Mark .arrow ts mid ∧ Ty.ReadsResults mid types rest)
      [] ts₃ signature.returns rest

end Op

def OpKind.ReadsForm (ts : List Token) (kind : OpKind) (o : Operation) (rest : List Token) :
    Prop :=
  match kind with
  | .moduleOp => Word .bareIdentifier ts kind.name rest
  | .funcOp _ signature => Op.ReadsFunc kind.name signature ts o rest
  | .returnOp => Op.ReadsReturn kind.name ts o rest
  | .instr _ => Op.ReadsGeneric kind.name ts o rest

/-- The tokens up to the region are those of the operation, which has the place of the first. -/
structure OpKind.ReadsHead (ts : List Token) (kind : OpKind) (o : Operation) (rest : List Token) :
    Prop where
  name_eq : o.name = kind.name
  location_eq : o.location = ts.head?.map (·.location)
  shows : kind.Shows o
  form : kind.ReadsForm ts o rest

def Operation.Resolves (σ : List Scope) (o : Operation) : Prop :=
  ∀ v ∈ o.operands, lookup? σ v.name = some v

namespace Op

def ReadsUse : Reading (Token × Value) :=
  fun σ ts u σ' rest => σ' = σ ∧ ts = u.1 :: rest ∧ u.1.kind = .percentIdentifier ∧
    lookup? σ u.1.lexeme = some u.2

theorem denotes_parseOperand : Denotes parseOperand ReadsUse := by
  refine (denotes_expect.bind fun t =>
    (?_ : Denotes _ fun σ ts u σ' rest => σ' = σ ∧ rest = ts ∧ u.1 = t ∧
      lookup? σ t.lexeme = some u.2)).of_iff fun σ ts u σ' rest => ?_
  · intro s u σ rest
    have hs : lookup? s.scopes t.lexeme = s.lookup? t.lexeme := rfl
    simp only [Parser.get_bind_ok, hs]
    cases h : s.lookup? t.lexeme with
    | none =>
      constructor
      · rintro ⟨s', e, -⟩
        cases e
      · rintro ⟨-, -, -, e⟩
        cases e
    | some v =>
      constructor
      · rintro ⟨s', e, rfl, rfl⟩
        cases e
        exact ⟨rfl, rfl, rfl, rfl⟩
      · obtain ⟨t', v'⟩ := u
        rintro ⟨rfl, rfl, rfl, e⟩
        cases e
        exact ⟨s, rfl, rfl, rfl⟩
  · constructor
    · rintro ⟨t, _, _, ⟨rfl, rfl, hk⟩, rfl, rfl, rfl, hl⟩
      exact ⟨rfl, rfl, hk, hl⟩
    · rintro ⟨rfl, rfl, hk, hl⟩
      exact ⟨u.1, _, rest, ⟨rfl, rfl, hk⟩, rfl, rfl, rfl, hl⟩

theorem ReadsUse.consumes : Consumes ReadsUse := by
  rintro σ ts u σ' rest ⟨-, e, -⟩
  exact .of_eq e

variable {σ σ' : List Scope} {ts rest : List Token}

theorem exists_uses {τ τ' : List Scope} {names : List String} {vs : List Value}
    (h : Separated (Plain (Word .percentIdentifier)) τ ts names τ' rest)
    (hn : names = vs.map Value.name) (hl : ∀ v ∈ vs, lookup? σ v.name = some v) :
    ∃ us, Separated ReadsUse σ ts us σ rest ∧ vs = us.map (·.2) := by
  induction h generalizing vs with
  | last hw hc =>
    obtain ⟨-, t, e, hk, rfl⟩ := hw
    obtain ⟨v, _, rfl, hv, hnil⟩ := List.map_eq_cons_iff.1 hn.symm
    cases List.map_eq_nil_iff.1 hnil
    refine ⟨[(t, v)], .last ⟨rfl, e, hk, ?_⟩ hc, rfl⟩
    rw [← hv]
    exact hl v (by simp)
  | cons hw ht _ ih =>
    obtain ⟨-, t, e, hk, rfl⟩ := hw
    obtain ⟨v, vs, rfl, hv, hvs⟩ := List.map_eq_cons_iff.1 hn.symm
    obtain ⟨us, hu, rfl⟩ := ih hvs.symm fun w hw => hl w (by simp [hw])
    refine ⟨(t, v) :: us, .cons ⟨rfl, e, hk, ?_⟩ ht hu, rfl⟩
    rw [← hv]
    exact hl v (by simp)

theorem exists_uses_iff {vs : List Value} :
    (∃ us, Separated ReadsUse σ ts us σ' rest ∧ vs = us.map (·.2)) ↔ σ' = σ ∧
      CommaList (Word .percentIdentifier) ts (vs.map Value.name) rest ∧
      ∀ v ∈ vs, lookup? σ v.name = some v := by
  constructor
  · rintro ⟨us, h, rfl⟩
    induction h with
    | last hu hn =>
      obtain ⟨rfl, e, hk, hl⟩ := hu
      have hname := name_eq_of_lookup? hl
      refine ⟨rfl, .last ⟨rfl, _, e, hk, hname.symm⟩ hn, ?_⟩
      simpa [hname] using hl
    | cons hu ht _ ih =>
      obtain ⟨rfl, e, hk, hl⟩ := hu
      obtain ⟨rfl, hc, hls⟩ := ih
      have hname := name_eq_of_lookup? hl
      refine ⟨rfl, .cons ⟨rfl, _, e, hk, hname.symm⟩ ht hc, ?_⟩
      simpa [hname, hl] using hls
  · rintro ⟨rfl, h, hl⟩
    exact exists_uses h rfl hl

def ReadsUses (σ : List Scope) (ts : List Token) (vs : List Value) (rest : List Token) : Prop :=
  ReadsNames ts (vs.map Value.name) rest ∧ ∀ v ∈ vs, lookup? σ v.name = some v

theorem exists_parseOperands_iff {vs : List Value} :
    (∃ us, ((StartsWith .percentIdentifier ts ∧ Separated ReadsUse σ ts us σ' rest) ∨
        (¬ StartsWith .percentIdentifier ts ∧ σ' = σ ∧ us = [] ∧ rest = ts)) ∧
        vs = us.map (·.2)) ↔ σ' = σ ∧ ReadsUses σ ts vs rest := by
  constructor
  · rintro ⟨us, ⟨hs, h⟩ | ⟨hs, rfl, rfl, rfl⟩, hv⟩
    · obtain ⟨hσ, hc, hl⟩ := exists_uses_iff.1 ⟨us, h, hv⟩
      exact ⟨hσ, .inl ⟨hs, hc⟩, hl⟩
    · subst hv
      exact ⟨rfl, .inr ⟨hs, rfl, rfl⟩, by simp⟩
  · rintro ⟨rfl, ⟨hs, h⟩ | ⟨hs, h, rfl⟩, hl⟩
    · obtain ⟨us, hu, hv⟩ := exists_uses_iff.2 ⟨rfl, h, hl⟩
      exact ⟨us, .inl ⟨hs, hu⟩, hv⟩
    · exact ⟨[], .inr ⟨hs, rfl, rfl, rfl⟩, List.map_eq_nil_iff.1 h⟩

theorem denotes_parseOperands : Denotes parseOperands fun σ ts us σ' rest =>
    (StartsWith .percentIdentifier ts ∧ Separated ReadsUse σ ts us σ' rest) ∨
      (¬ StartsWith .percentIdentifier ts ∧ σ' = σ ∧ us = [] ∧ rest = ts) :=
  denotes_ifNext (denotes_commaSeparated denotes_parseOperand ReadsUse.consumes)

theorem typeClash?_eq_none_iff {us : List (Token × Value)} {types : List Ty}
    (h : us.length = types.length) :
    typeClash? us types = none ↔ us.map (·.2.type) = types := by
  induction us generalizing types with
  | nil =>
    cases types with
    | nil => simp [typeClash?]
    | cons type types => simp at h
  | cons u us ih =>
    cases types with
    | nil => simp at h
    | cons type types =>
      have hl : us.length = types.length := by simpa using h
      by_cases ht : u.2.type = type
      · simp [typeClash?, ht, ih hl]
      · simp [typeClash?, ht]

theorem denotes_checkOperandTypes {us : List (Token × Value)} {types : List Ty} :
    Denotes (checkOperandTypes us types) (Plain fun ts vs rest =>
      types = vs.map Value.type ∧ vs = us.map (·.2) ∧ rest = ts) := by
  refine Denotes.get_bind fun s => (denotes_require.bind fun _ =>
    (?_ : Denotes _ (Plain fun ts vs rest =>
      typeClash? us types = none ∧ vs = us.map (·.2) ∧ rest = ts))).of_iff
    fun σ ts vs σ' rest => ?_
  · cases h : typeClash? us types with
    | none => exact (Denotes.pure _).of_iff fun _ _ _ _ _ => by simp [Plain]
    | some e => exact denotes_failAt.of_iff fun _ _ _ _ _ => by simp [Plain]
  · constructor
    · rintro ⟨_, _, _, ⟨hl, rfl, rfl⟩, rfl, hc, rfl, rfl⟩
      refine ⟨rfl, ?_, rfl, rfl⟩
      rw [← (typeClash?_eq_none_iff hl).1 hc, List.map_map]
      rfl
    · rintro ⟨rfl, rfl, rfl, rfl⟩
      have hl : us.length = ((us.map (·.2)).map Value.type).length := by simp
      refine ⟨(), _, _, ⟨hl, rfl, rfl⟩, rfl, (typeClash?_eq_none_iff hl).2 ?_, rfl, rfl⟩
      rw [List.map_map]
      rfl

def NameToken (ts : List Token) (t : Token) (rest : List Token) : Prop :=
  ts = t :: rest ∧ t.kind = .percentIdentifier

theorem denotes_parseResultNames : Denotes parseResultNames (Plain
    (IfNext .percentIdentifier (fun ts us rest =>
      ∃ mid, CommaList NameToken ts us mid ∧ Mark .equal mid rest) [])) := by
  have consumes : Consumes (Plain NameToken) := by
    rintro σ ts t σ' rest ⟨-, e, -⟩
    exact .of_eq e
  refine denotes_ifNext_plain (((denotes_commaList denotes_expect consumes).plain_seq fun us =>
    denotes_mark.plain_pure fun _ => us).of_iff fun σ ts vs σ' rest => ?_)
  constructor
  · rintro ⟨rfl, us, mid, hu, _, hm, rfl⟩
    exact ⟨rfl, mid, hu, hm⟩
  · rintro ⟨rfl, mid, hu, hm⟩
    exact ⟨rfl, vs, mid, hu, (), hm, rfl⟩

theorem readsResultNames_iff {names : List String} : ReadsResultNames ts names rest ↔
    ∃ us, IfNext .percentIdentifier (fun ts us rest =>
      ∃ mid, CommaList NameToken ts us mid ∧ Mark .equal mid rest) [] ts us rest ∧
      names = us.map (·.lexeme) := by
  constructor
  · rintro (⟨hs, mid, hw, hm⟩ | ⟨hs, rfl, rfl⟩)
    · obtain ⟨us, hu, rfl⟩ := commaList_word_iff.1 hw
      exact ⟨us, .inl ⟨hs, mid, hu, hm⟩, rfl⟩
    · exact ⟨[], .inr ⟨hs, rfl, rfl⟩, rfl⟩
  · rintro ⟨us, ⟨hs, mid, hu, hm⟩ | ⟨hs, rfl, rfl⟩, rfl⟩
    · exact .inl ⟨hs, mid, commaList_word_iff.2 ⟨us, hu, rfl⟩, hm⟩
    · exact .inr ⟨hs, rfl, rfl⟩

theorem denotes_parseSuccessors : Denotes parseSuccessors (Plain fun ts labels rest =>
    ∃ mid, Mark .lbracket ts mid ∧ ListOf .rbracket (Word .caretIdentifier) mid labels rest) := by
  have label : Denotes (do return (← expect .caretIdentifier).lexeme)
      (Plain (Word .caretIdentifier)) := by
    refine (denotes_expect.plain_pure (·.lexeme)).of_iff fun σ ts w σ' rest => ?_
    simp only [Plain, Word, and_assoc, @eq_comm _ w]
  refine .mark_seq (denotes_listOf (by decide) label (fun h => h.2.beyond) ?_)
  rintro t ts w rest ⟨u, e, hk, -⟩
  cases e
  simp [hk]

def resultsOf (names : List Token) (types : List Ty) : List Value :=
  List.zipWith (fun t type => .result t.lexeme type) names types

theorem denotes_defineResults {names : List Token} {types : List Ty} :
    Denotes (defineResults names types) fun σ ts vs σ' rest =>
      vs = resultsOf names types ∧ Fresh σ vs ∧ σ' = extend σ vs ∧ rest = ts := by
  have none : Denotes (pure []) fun σ ts vs σ' rest =>
      vs = [] ∧ Fresh σ vs ∧ σ' = extend σ vs ∧ rest = ts := by
    refine (Denotes.pure []).of_iff fun σ ts vs σ' rest => ?_
    constructor
    · rintro ⟨rfl, rfl, rfl⟩
      exact ⟨rfl, fresh_nil _, (extend_nil _).symm, rfl⟩
    · rintro ⟨rfl, -, rfl, rfl⟩
      exact ⟨extend_nil _, rfl, rfl⟩
  induction names generalizing types with
  | nil => exact none
  | cons t names ih =>
    cases types with
    | nil => exact none
    | cons type types =>
      refine (denotes_define.bind fun _ => ih.bind fun vs =>
        .pure (Value.result t.lexeme type :: vs)).of_iff fun σ ts vs σ' rest => ?_
      constructor
      · rintro ⟨_, _, _, ⟨hf, rfl, rfl⟩, ws, _, _, ⟨rfl, hfs, rfl, rfl⟩, rfl, rfl, rfl⟩
        exact ⟨rfl, fresh_cons.2 ⟨hf, hfs⟩, (extend_cons ..).symm, rfl⟩
      · rintro ⟨rfl, hf, rfl, rfl⟩
        obtain ⟨hf, hfs⟩ := fresh_cons.1 hf
        exact ⟨(), _, _, ⟨hf, rfl, rfl⟩, _, _, _, ⟨rfl, hfs, rfl, rfl⟩, extend_cons .., rfl, rfl⟩

theorem resultsOf_eq_iff {names : List Token} {types : List Ty} {vs : List Value} :
    (names.length = types.length ∧ vs = resultsOf names types) ↔
      vs.map Value.name = names.map (·.lexeme) ∧ vs.map Value.type = types ∧
        ∀ v ∈ vs, v = .result v.name v.type := by
  induction names generalizing types vs with
  | nil =>
    cases types with
    | nil =>
      cases vs with
      | nil => simp [resultsOf]
      | cons v vs => simp [resultsOf]
    | cons type types =>
      refine iff_of_false (by simp) ?_
      rintro ⟨hn, ht, -⟩
      cases List.map_eq_nil_iff.1 hn
      cases ht
  | cons t names ih =>
    cases types with
    | nil =>
      refine iff_of_false (by simp) ?_
      rintro ⟨hn, ht, -⟩
      cases List.map_eq_nil_iff.1 ht
      cases hn
    | cons type types =>
      cases vs with
      | nil => simp [resultsOf]
      | cons v vs =>
        have := @ih types vs
        simp only [resultsOf] at this
        simp only [List.length_cons, Nat.add_right_cancel_iff, resultsOf, List.zipWith_cons_cons,
          List.cons.injEq, List.map_cons, List.forall_mem_cons]
        constructor
        · rintro ⟨hl, rfl, hv⟩
          obtain ⟨h₁, h₂, h₃⟩ := this.1 ⟨hl, hv⟩
          exact ⟨⟨rfl, h₁⟩, ⟨rfl, h₂⟩, rfl, h₃⟩
        · rintro ⟨⟨hn, h₁⟩, ⟨ht, h₂⟩, hv, h₃⟩
          obtain ⟨hl, e⟩ := this.2 ⟨h₁, h₂, h₃⟩
          refine ⟨hl, ?_, e⟩
          rw [hv, hn, ht]

/-- An op without a region, whose operands are in scope and whose results become visible. -/
def ReadsLeaf (kind : OpKind) (location : Option Location) : Reading Op :=
  fun σ ts op σ' rest => ∃ o, op = .mk kind o none ∧ o.name = kind.name ∧ o.location = location ∧
    kind.Shows o ∧ kind.ReadsForm ts o rest ∧ o.Resolves σ ∧ Fresh σ o.results ∧
    σ' = extend σ o.results

theorem denotes_located {f : Token → Parser Op} {F : Option Location → Reading Op}
    (h : ∀ t, Denotes (f t) (F (some t.location)))
    (hend : ∀ {l σ op σ' rest}, ¬ F l σ [] op σ' rest) :
    Denotes (do f (← peek)) fun σ ts op σ' rest =>
      F (ts.head?.map (·.location)) σ ts op σ' rest := by
  refine (Denotes.peek_bind h fun _ => hend).of_iff fun σ ts op σ' rest => ?_
  constructor
  · rintro ⟨t, mid, rfl, h⟩
    exact h
  · cases ts with
    | nil => exact fun h => (hend h).elim
    | cons t mid => exact fun h => ⟨t, mid, rfl, h⟩

theorem denotes_parseGeneric {i : Instr} : Denotes (parseGeneric (.instr i))
    fun σ ts op σ' rest => ReadsLeaf (.instr i) (ts.head?.map (·.location)) σ ts op σ' rest := by
  refine denotes_located (fun first => ?_) ?_
  · refine (denotes_parseResultNames.plain_bind fun names => denotes_expect.plain_bind fun name =>
      .require_bind (.begun_bind (.mark_bind (denotes_parseOperands.bind
      fun uses => .mark_bind ((denotes_ifNext_plain denotes_parseSuccessors).plain_bind
      fun successors => (denotes_ifNext_plain Attributes.denotes_parse).plain_bind
      fun attributes => .mark_bind (Ty.denotes_parseList.plain_bind fun types =>
      denotes_checkOperandTypes.plain_bind fun operands => .mark_bind
      (Ty.denotes_parseResults.plain_bind fun resultTypes => .require_bind
      denotes_defineResults.bind_pure))))))).of_iff fun σ ts op σ' rest => ?_
    constructor
    · rintro ⟨names, _, hn, name, ts₁, ⟨rfl, hk⟩, hq, ts₂, hlp, uses, σ₁, ts₃, hu, ts₄, hrp,
        successors, ts₅, hs, attributes, ts₆, ha, ts₇, hc, types, _, ht, operands, ts₈,
        ⟨rfl, ho, rfl⟩, ts₉, har, resultTypes, _, hrt, hl, results, ⟨hres, hf, rfl, rfl⟩, rfl⟩
      obtain ⟨rfl, hu, hv⟩ := exists_parseOperands_iff.1 ⟨uses, hu, ho⟩
      obtain ⟨hrn, rfl, hr⟩ := resultsOf_eq_iff.1 ⟨hl, hres⟩
      exact ⟨_, rfl, rfl, rfl, ⟨rfl, hr⟩, ⟨name, ts₁, ts₂, ts₃, ts₄, ts₅, ts₆, ts₇, _, ts₉,
        readsResultNames_iff.2 ⟨names, hn, hrn⟩, hk, hq, hlp, hu, hrp, hs, ha, hc, ht, har, hrt⟩,
        hv, hf, rfl⟩
    · rintro ⟨⟨name, location, arguments, operands, attributes, results, successors⟩, rfl, rfl, rfl,
        ⟨rfl, hr⟩, ⟨quoted, ts₁, ts₂, ts₃, ts₄, ts₅, ts₆, ts₇, ts₈, ts₉, hn, hk, hq, hlp, hu, hrp,
        hs, ha, hc, ht, har, hrt⟩, hv, hf, rfl⟩
      obtain ⟨names, hn, hrn⟩ := readsResultNames_iff.1 hn
      obtain ⟨uses, hu, ho⟩ := exists_parseOperands_iff.2 ⟨rfl, hu, hv⟩
      obtain ⟨hl, hres⟩ := resultsOf_eq_iff.2 ⟨hrn, rfl, hr⟩
      exact ⟨names, _, hn, quoted, ts₁, ⟨rfl, hk⟩, hq, ts₂, hlp, uses, _, ts₃, hu, ts₄, hrp,
        successors, ts₅, hs, attributes, ts₆, ha, ts₇, hc, _, ts₈, ht, operands, _, ⟨rfl, ho, rfl⟩,
        ts₉, har, _, rest, hrt, hl, results, ⟨hres, hf, rfl, rfl⟩, rfl⟩
  · rintro l σ op σ' rest ⟨o, -, -, -, -, ⟨quoted, ts₁, _, _, _, _, _, _, _, _, h, -⟩, -⟩
    rcases h with ⟨h, -⟩ | ⟨-, -, h⟩
    · exact startsWith_nil h
    · cases h

theorem denotes_parseReturnTypes {uses : List (Token × Value)} :
    Denotes (parseReturnTypes uses) (Plain fun ts types rest =>
      if uses = [] then types = [] ∧ rest = ts
      else ∃ mid, Mark .colon ts mid ∧ CommaList Ty.Reads mid types rest) := by
  refine (Denotes.ite (.pure []) (.mark_seq (denotes_commaList Ty.denotes_parse
    Ty.Reads.consumes))).of_iff fun σ ts types σ' rest => ?_
  by_cases h : uses = []
  · simp [h, Plain]
  · simp [h, Plain]

theorem denotes_parseReturn : Denotes (parseReturn .returnOp)
    fun σ ts op σ' rest => ReadsLeaf .returnOp (ts.head?.map (·.location)) σ ts op σ' rest := by
  refine denotes_located (fun first => ?_) ?_
  · refine (denotes_keyword.plain_bind fun _ => denotes_parseOperands.bind fun uses =>
      denotes_parseReturnTypes.plain_bind fun types =>
      denotes_checkOperandTypes.plain_pure _).of_iff fun σ ts op σ' rest => ?_
    constructor
    · rintro ⟨_, ts₁, hw, uses, _, ts₂, hu, types, ts₃, ht, rfl, operands, ⟨rfl, ho, rfl⟩, rfl⟩
      obtain ⟨rfl, hn, hv⟩ := exists_parseOperands_iff.1 ⟨uses, hu, ho⟩
      refine ⟨_, rfl, rfl, rfl, rfl, ⟨ts₁, ts₂, hw, hn, ?_⟩, hv, fresh_nil _, (extend_nil _).symm⟩
      by_cases h : uses = []
      · subst h
        subst ho
        exact ht.2
      · rw [if_neg h] at ht
        have hne : operands ≠ [] := fun e => h (List.map_eq_nil_iff.1 (ho.symm.trans e))
        rwa [if_neg hne]
    · rintro ⟨⟨name, location, arguments, operands, attributes, results, successors⟩, rfl, rfl,
        rfl, hs, ⟨ts₁, ts₂, hw, hn, ht⟩, hv, -, rfl⟩
      cases hs
      obtain ⟨uses, hu, ho⟩ := exists_parseOperands_iff.2 ⟨rfl, hn, hv⟩
      refine ⟨(), ts₁, hw, uses, _, ts₂, hu, _, rest, ?_, extend_nil _, operands, ⟨rfl, ho, rfl⟩,
        rfl⟩
      by_cases h : uses = []
      · subst h
        subst ho
        exact ⟨rfl, ht⟩
      · have hne : operands ≠ [] := fun e => h (List.map_eq_nil_iff.1 (ho.symm.trans e))
        rw [if_neg hne] at ht
        simp only [if_neg h]
        exact ht
  · rintro l σ op σ' rest ⟨o, -, -, -, -, ⟨ts₁, ts₂, ⟨t, h, -⟩, -⟩, -⟩
    cases h

theorem denotes_parseArgument : Denotes parseArgument (Visible ReadsArgument) := by
  refine (denotes_expect.plain_bind fun t => .mark_bind (Ty.denotes_parse.plain_bind fun type =>
    denotes_define.bind_pure)).of_iff fun σ ts v σ' rest => ?_
  constructor
  · rintro ⟨t, ts₁, ⟨rfl, hk⟩, ts₂, hm, type, _, ht, _, ⟨hf, rfl, rfl⟩, rfl⟩
    exact ⟨⟨_, ts₂, ⟨t, rfl, hk, rfl⟩, hm, ht, rfl⟩, hf, rfl⟩
  · rintro ⟨⟨ts₁, ts₂, ⟨t, rfl, hk, hn⟩, hm, ht, hv⟩, hf, rfl⟩
    rw [← hn] at hv
    refine ⟨t, ts₁, ⟨rfl, hk⟩, ts₂, hm, v.type, rest, ht, (), ⟨?_, ?_, rfl⟩, hv⟩
    · rwa [← hv]
    · rw [← hv]

theorem ReadsArgument.beyond {v : Value} (h : ReadsArgument ts v rest) : Beyond ts rest := by
  obtain ⟨ts₁, ts₂, hw, hm, ht, -⟩ := h
  exact (hw.beyond.trans hm.beyond).trans ht.beyond

/-! Every form goes over tokens. -/

theorem ReadsNames.suffix {names : List String} (h : ReadsNames ts names rest) : rest <:+ ts :=
  IfNext.suffix (fun h => h.beyond fun h => h.2.beyond) h

theorem ReadsResultNames.suffix {names : List String} (h : ReadsResultNames ts names rest) :
    rest <:+ ts := by
  refine IfNext.suffix ?_ h
  rintro ts names rest ⟨mid, hn, hm⟩
  exact (Separated.beyond (fun h => h.2.beyond) hn).trans hm.beyond

theorem ReadsSuccessors.suffix {labels : List String} (h : ReadsSuccessors ts labels rest) :
    rest <:+ ts := by
  refine IfNext.suffix ?_ h
  rintro ts labels rest ⟨mid, hm, hl⟩
  exact hm.beyond.trans (Listed.beyond (fun h => h.2.beyond) hl)

theorem ReadsGeneric.beyond {name : String} {o : Operation} (h : ReadsGeneric name ts o rest) :
    Beyond ts rest := by
  obtain ⟨quoted, ts₁, ts₂, ts₃, ts₄, ts₅, ts₆, ts₇, ts₈, ts₉, hn, -, -, hlp, hu, hrp, hs, ha, hc,
    ht, har, hrt⟩ := h
  have h₁ : Beyond ts ts₁ := (Beyond.of_eq rfl).suffix_trans hn.suffix
  have h₄ : Beyond ts ts₄ := ((h₁.trans hlp.beyond).trans_suffix hu.suffix).trans hrp.beyond
  have h₆ : Beyond ts ts₆ :=
    (h₄.trans_suffix hs.suffix).trans_suffix (IfNext.suffix Attributes.Reads.beyond ha)
  exact (((h₆.trans hc.beyond).trans ht.beyond).trans har.beyond).trans hrt.beyond

theorem ReadsReturn.beyond {name : String} {o : Operation} (h : ReadsReturn name ts o rest) :
    Beyond ts rest := by
  obtain ⟨ts₁, ts₂, hw, hn, ht⟩ := h
  have h₂ : Beyond ts ts₂ := hw.beyond.trans_suffix hn.suffix
  by_cases ho : o.operands = []
  · rw [if_pos ho] at ht
    exact ht ▸ h₂
  · rw [if_neg ho] at ht
    obtain ⟨ts₃, hm, ht⟩ := ht
    exact (h₂.trans hm.beyond).trans (Separated.beyond Ty.Reads.consumes ht)

theorem ReadsFunc.beyond {name : String} {signature : Signature} {o : Operation}
    (h : ReadsFunc name signature ts o rest) : Beyond ts rest := by
  obtain ⟨symbol, ts₁, ts₂, ts₃, hw, -, -, hm, ha, hr⟩ := h
  have h₃ : Beyond ts ts₃ :=
    (hw.beyond.next.trans hm.beyond).trans (Listed.beyond (fun h => h.2.beyond) ha)
  refine h₃.trans_suffix (IfNext.suffix ?_ hr)
  rintro ts types rest ⟨mid, hm, ht⟩
  exact hm.beyond.trans ht.beyond

end Op

theorem OpKind.ReadsForm.beyond {kind : OpKind} {o : Operation} {ts rest : List Token}
    (h : kind.ReadsForm ts o rest) : Beyond ts rest := by
  cases kind with
  | moduleOp => exact Word.beyond h
  | funcOp _ _ => exact Op.ReadsFunc.beyond h
  | returnOp => exact Op.ReadsReturn.beyond h
  | instr _ => exact Op.ReadsGeneric.beyond h

theorem OpKind.ReadsHead.beyond {kind : OpKind} {o : Operation} {ts rest : List Token}
    (h : kind.ReadsHead ts o rest) : Beyond ts rest :=
  h.form.beyond

end BrilIR
