import BrilIR.Proofs.Grammar.TreeRecognition
import BrilIR.Proofs.Lexical.Layout

/-!
The grammar and its conditions have nothing to do with places: tokens with the same contents are in
the languages of the same trees, but for the places of the ops.
-/

namespace BrilIR

open Token Production

/-- Whether a text is in the language does not depend on the places of its tokens. -/
def Placeless (l : Language Token) : Prop :=
  ∀ us us' : List Token, us'.map content = us.map content → us ∈ l → us' ∈ l

namespace Placeless

variable {l m : Language Token} {kind : Kind}

theorem one {p : Token → Prop}
    (hp : ∀ t t' : Token, t'.kind = t.kind → t'.lexeme = t.lexeme → p t → p t') :
    Placeless (one p) := by
  intro us us' h hu
  obtain ⟨t, rfl, ht⟩ := hu
  obtain ⟨t', _, rfl, hc, hnil⟩ := List.map_eq_cons_iff.1 h
  cases List.map_eq_nil_iff.1 hnil
  obtain ⟨hk, hw⟩ := Prod.mk.inj hc
  exact ⟨t', rfl, hp t t' hk hw ht⟩

theorem mark (kind : Kind) : Placeless (mark kind) :=
  one fun _ _ hk _ ht => hk.trans ht

theorem word (kind : Kind) (w : String) : Placeless (word kind w) :=
  one fun _ _ hk hw ht => ⟨hk.trans ht.1, hw.trans ht.2⟩

theorem zero : Placeless 0 :=
  fun us _ _ hu => absurd hu (Language.notMem_zero us)

theorem empty : Placeless 1 := by
  intro us us' h hu
  rw [(Language.mem_one us).1 hu, List.map_nil] at h
  exact (Language.mem_one us').2 (List.map_eq_nil_iff.1 h)

theorem mul (hl : Placeless l) (hm : Placeless m) : Placeless (l * m) := by
  intro us us' h hu
  obtain ⟨as, ha, bs, hb, rfl⟩ := Language.mem_mul.1 hu
  rw [List.map_append] at h
  obtain ⟨as', bs', rfl, has, hbs⟩ := List.map_eq_append_iff.1 h
  exact Language.append_mem_mul (hl as as' has ha) (hm bs bs' hbs hb)

theorem add (hl : Placeless l) (hm : Placeless m) : Placeless (l + m) := by
  intro us us' h hu
  cases (Language.mem_add l m us).1 hu with
  | inl hu => exact (Language.mem_add l m us').2 (.inl (hl us us' h hu))
  | inr hu => exact (Language.mem_add l m us').2 (.inr (hm us us' h hu))

theorem optional {absent : Prop} (hl : Placeless l) : Placeless (optional absent l) := by
  intro us us' h hu
  obtain ⟨ha, rfl⟩ | hu := hu
  · exact .inl ⟨ha, List.map_eq_nil_iff.1 h⟩
  · exact .inr (hl us us' h hu)

theorem separated : {ls : List (Language Token)} → (∀ l ∈ ls, Placeless l) →
    Placeless (separated ls)
  | [], _ => zero
  | [l], h => h l (List.mem_singleton_self l)
  | l :: m :: ls, h => by
    obtain ⟨hl, hls⟩ := List.forall_mem_cons.1 h
    exact hl.mul ((mark .comma).mul (separated hls))

theorem listed {ls : List (Language Token)} (h : ∀ l ∈ ls, Placeless l) :
    Placeless (listed ls) := by
  cases ls with
  | nil => exact empty
  | cons l ls => exact (separated h).mul (empty.add (mark .comma))

theorem separated_map {α : Type} {f : α → Language Token} (h : ∀ a, Placeless (f a))
    (as : List α) : Placeless (Production.separated (as.map f)) :=
  separated (List.forall_mem_map.2 fun a _ => h a)

theorem listed_map {α : Type} {f : α → Language Token} (h : ∀ a, Placeless (f a))
    (as : List α) : Placeless (Production.listed (as.map f)) :=
  listed (List.forall_mem_map.2 fun a _ => h a)

theorem number (kind : Kind) (stands : Bool → String → Prop) :
    Placeless (number kind stands) := by
  have digits (negative : Bool) :
      Placeless (Production.one fun t => t.kind = kind ∧ stands negative t.lexeme) :=
    one fun _ _ hk hw ht => ⟨hk.trans ht.1, hw ▸ ht.2⟩
  exact ((mark .minus).mul (digits true)).add (digits false)

/-! The productions. -/

theorem typeTokens : (type : Ty) → Placeless type.tokens
  | .int width => one fun _ _ hk hw ht => by
    rw [hk, hw]
    exact ht
  | .float format => word .floatType format.text
  | .ptr pointee => (mark .exclamation).mul ((word .bareIdentifier "bril.ptr").mul
      ((mark .less).mul ((typeTokens pointee).mul (mark .greater))))

theorem listTokens (types : List Ty) : Placeless (Ty.listTokens types) :=
  (mark .lparen).mul ((listed_map typeTokens types).mul (mark .rparen))

theorem resultTokens (types : List Ty) : Placeless (Ty.resultTokens types) := by
  unfold Ty.resultTokens
  split
  · exact (typeTokens _).add (listTokens _)
  · exact listTokens types

theorem attributeTokens (a : Attribute) : Placeless a.tokens := by
  cases a with
  | int value u => exact (number _ _).mul ((mark .colon).mul (typeTokens u))
  | float value u => exact (number _ _).mul ((mark .colon).mul (typeTokens u))
  | bool b => exact mark _
  | string s => exact one fun _ _ hk hw ht => by rwa [hk, hw]
  | symbol s => exact one fun _ _ hk hw ht => by rwa [hk, hw]
  | type u => exact typeTokens u

theorem dictionaryTokens (d : Attributes) : Placeless d.tokens := by
  intro us us' h hu
  obtain ⟨es, hn, hd, hu⟩ := hu
  have entry (e : String × Attribute) : Placeless (Attributes.entryTokens e) :=
    (word .bareIdentifier e.1).mul ((mark .equal).mul (attributeTokens e.2))
  have braces := (mark .lbrace).mul ((listed_map entry es).mul (mark .rbrace))
  exact ⟨es, hn, hd, braces us us' h hu⟩

theorem nameTokens (vs : List Value) : Placeless (Operation.nameTokens vs) :=
  separated_map (word .percentIdentifier) _

theorem genericTokens (name : String) (o : Operation) : Placeless (o.genericTokens name) := by
  have results := (nameTokens o.results).mul (mark .equal)
  have successors : Placeless (Operation.successorTokens o.successors) :=
    (mark .lbracket).mul ((listed_map (word .caretIdentifier) _).mul (mark .rbracket))
  have types := (listTokens o.operandTypes).mul ((mark .arrow).mul (resultTokens o.resultTypes))
  exact results.optional.mul ((word .string _).mul ((mark .lparen).mul
    ((nameTokens o.operands).optional.mul ((mark .rparen).mul (successors.optional.mul
      ((dictionaryTokens o.attributes).optional.mul ((mark .colon).mul types)))))))

theorem returnTokens (name : String) (o : Operation) : Placeless (o.returnTokens name) :=
  (word .bareIdentifier name).mul ((nameTokens o.operands).mul ((mark .colon).mul
    (separated_map typeTokens o.operandTypes))).optional

theorem funcTokens (name : String) (signature : Signature) (o : Operation) :
    Placeless (o.funcTokens name signature) := by
  have argument (v : Value) : Placeless (Operation.argumentTokens v) :=
    (word .percentIdentifier v.name).mul ((mark .colon).mul (typeTokens v.type))
  have symbol : Placeless (Production.one fun t => t.kind = .atIdentifier ∧
      signature.identifier = some (trimAt t.lexeme)) :=
    one fun _ _ hk hw ht => by rwa [hk, hw]
  exact (word .bareIdentifier name).mul (symbol.mul ((mark .lparen).mul
    ((listed_map argument o.arguments).mul ((mark .rparen).mul
      ((mark .arrow).mul (resultTokens signature.returns)).optional))))

theorem formTokens (kind : OpKind) (o : Operation) : Placeless (kind.formTokens o) := by
  cases kind with
  | moduleOp => exact word _ _
  | funcOp style signature => exact funcTokens _ _ _
  | returnOp => exact returnTokens _ _
  | instr i => exact genericTokens _ _

theorem labelTokens (first : Bool) (label : Option String) (ops : List Op) :
    Placeless (Block.labelTokens first label ops) := by
  cases label with
  | some label => exact (word .caretIdentifier label).mul (mark .colon)
  | none =>
    cases ops with
    | nil => exact zero
    | cons op ops =>
      cases first with
      | true => exact empty
      | false => exact zero

end Placeless

theorem OpKind.headTokens_located {kind : OpKind} {o : Operation} {us us' : List Token}
    (h : us'.map content = us.map content) (hu : us ∈ kind.headTokens o) :
    us' ∈ kind.headTokens (o.located (us'.head?.map (·.location))) := by
  obtain ⟨hn, hs, -, hf⟩ := hu
  have hform : kind.formTokens (o.located (us'.head?.map (·.location))) = kind.formTokens o := by
    cases kind <;> rfl
  refine ⟨hn, hs.located _, rfl, ?_⟩
  rw [hform]
  exact Placeless.formTokens kind o us us' h hf

mutual

theorem Op.exists_mem_tokens : (op : Op) → {us us' : List Token} →
    us'.map content = us.map content → us ∈ op.tokens →
    ∃ op' : Op, op'.unlocated = op.unlocated ∧ us' ∈ op'.tokens
  | .mk kind o none, us, us', h, hu => by
    simp only [Op.tokens] at hu
    refine ⟨.mk kind (o.located (us'.head?.map (·.location))) none, rfl, ?_⟩
    simp only [Op.tokens]
    exact ⟨hu.1, OpKind.headTokens_located h hu.2⟩
  | .mk kind o (some r), us, us', h, hu => by
    simp only [Op.tokens] at hu
    obtain ⟨ht, hu⟩ := hu
    obtain ⟨as, ha, _, hbraces, rfl⟩ := Language.mem_mul.1 hu
    obtain ⟨bs, hb, _, hregion, rfl⟩ := Language.mem_mul.1 hbraces
    obtain ⟨cs, hr, ds, hd, rfl⟩ := Language.mem_mul.1 hregion
    simp only [List.map_append, List.map_eq_append_iff] at h
    obtain ⟨as', _, rfl, has, bs', _, rfl, hbs, cs', ds', rfl, hcs, hds⟩ := h
    obtain ⟨r', er, hr'⟩ := Region.exists_mem_tokens r hcs hr
    refine ⟨.mk kind (o.located (as'.head?.map (·.location))) (some r'), ?_, ?_⟩
    · simp only [Op.unlocated, er]
      rfl
    · simp only [Op.tokens]
      have braces := Language.append_mem_mul (Placeless.mark .lbrace bs bs' hbs hb)
        (Language.append_mem_mul hr' (Placeless.mark .rbrace ds ds' hds hd))
      exact ⟨ht, Language.append_mem_mul (OpKind.headTokens_located has ha) braces⟩

theorem Region.exists_mem_tokens : (r : List Block) → {first : Bool} → {us us' : List Token} →
    us'.map content = us.map content → us ∈ Region.tokens first r →
    ∃ r', Region.unlocated r' = Region.unlocated r ∧ us' ∈ Region.tokens first r'
  | [], first, us, us', h, hu => by
    simp only [Region.tokens] at hu
    refine ⟨[], rfl, ?_⟩
    simp only [Region.tokens]
    exact Placeless.empty us us' h hu
  | .mk label ops :: r, first, us, us', h, hu => by
    simp only [Region.tokens] at hu
    obtain ⟨as, ha, _, hblocks, rfl⟩ := Language.mem_mul.1 hu
    obtain ⟨bs, hb, cs, hc, rfl⟩ := Language.mem_mul.1 hblocks
    simp only [List.map_append, List.map_eq_append_iff] at h
    obtain ⟨as', _, rfl, has, bs', cs', rfl, hbs, hcs⟩ := h
    obtain ⟨ops', eo, hb'⟩ := Block.exists_mem_tokens ops hbs hb
    obtain ⟨r', er, hc'⟩ := Region.exists_mem_tokens r hcs hc
    refine ⟨.mk label ops' :: r', by simp only [Region.unlocated, eo, er], ?_⟩
    have hlabel : Block.labelTokens first label ops' = Block.labelTokens first label ops := by
      cases ops with
      | nil => rw [Block.unlocated_eq_nil_iff.1 eo]
      | cons op ops =>
        cases ops' with
        | nil => cases eo
        | cons op' ops' => cases label <;> rfl
    simp only [Region.tokens, hlabel]
    exact Language.append_mem_mul (Placeless.labelTokens first label ops as as' has ha)
      (Language.append_mem_mul hb' hc')

theorem Block.exists_mem_tokens : (ops : List Op) → {us us' : List Token} →
    us'.map content = us.map content → us ∈ Block.tokens ops →
    ∃ ops', Block.unlocated ops' = Block.unlocated ops ∧ us' ∈ Block.tokens ops'
  | [], us, us', h, hu => by
    simp only [Block.tokens] at hu
    refine ⟨[], rfl, ?_⟩
    simp only [Block.tokens]
    exact Placeless.empty us us' h hu
  | op :: ops, us, us', h, hu => by
    simp only [Block.tokens] at hu
    obtain ⟨as, ha, bs, hb, rfl⟩ := Language.mem_mul.1 hu
    simp only [List.map_append, List.map_eq_append_iff] at h
    obtain ⟨as', bs', rfl, has, hbs⟩ := h
    obtain ⟨op', e, ha'⟩ := Op.exists_mem_tokens op has ha
    obtain ⟨ops', es, hb'⟩ := Block.exists_mem_tokens ops hbs hb
    refine ⟨op' :: ops', by simp only [Block.unlocated, e, es], ?_⟩
    simp only [Block.tokens]
    exact Language.append_mem_mul ha' hb'

end

/-! The conditions on names and labels. -/

theorem Operation.scoped_located_iff {σ : List Scope} {o : Operation} {l : Option Location} :
    (o.located l).Scoped σ ↔ o.Scoped σ :=
  ⟨fun h => ⟨h.1, h.2, h.3⟩, fun h => h.located l⟩

mutual

theorem Op.fits_unlocated_iff : (op : Op) → {σ : List Scope} →
    (op.unlocated.Fits σ ↔ op.Fits σ)
  | .mk kind o none, σ => Operation.scoped_located_iff
  | .mk kind o (some r), σ => by
    simp only [Op.unlocated, Op.Fits, Operation.scoped_located_iff, Region.linked_unlocated_iff,
      OpKind.inner_located, Region.fits_unlocated_iff r]

theorem Region.fits_unlocated_iff : (r : List Block) → {σ : List Scope} →
    (Region.Fits σ (Region.unlocated r) ↔ Region.Fits σ r)
  | [], σ => Iff.rfl
  | .mk label ops :: r, σ => by
    simp only [Region.unlocated, Region.Fits, Block.fits_unlocated_iff ops,
      Block.results_unlocated, Region.fits_unlocated_iff r]

theorem Block.fits_unlocated_iff : (ops : List Op) → {σ : List Scope} →
    (Block.Fits σ (Block.unlocated ops) ↔ Block.Fits σ ops)
  | [], σ => Iff.rfl
  | op :: ops, σ => by
    have hresults : op.unlocated.operation.results = op.operation.results := by
      rw [Op.operation_unlocated]
      rfl
    simp only [Block.unlocated, Block.Fits, Op.fits_unlocated_iff op, hresults,
      Block.fits_unlocated_iff ops]

end

end BrilIR
