import BrilIR.Proofs.Grammar.Tree

/-! The parser of ops reads just the trees that derive from the grammar. -/

namespace BrilIR

open BrilIR.Parser Scope

def Op.ReadsWithin (n : Nat) : Reading Op :=
  fun σ ts op σ' rest => op.Derives σ ts rest ∧ σ' = extend σ op.operation.results ∧ op.height ≤ n

namespace Block

variable {n : Nat} {σ σ' : List Scope} {ts rest : List Token}

theorem many_iff {ops : List Op} : Many BlockEnds (Op.ReadsWithin n) σ ts ops σ' rest ↔
    Block.Derives σ ts ops rest ∧ σ' = extend σ (results ops) ∧ Block.height ops ≤ n := by
  constructor
  · intro h
    induction h with
    | nil hs => simp [Block.Derives, results, Block.height, hs]
    | cons hs ho _ ih =>
      obtain ⟨hd, rfl, hn⟩ := ho
      obtain ⟨hds, rfl, hns⟩ := ih
      simp only [Block.Derives, Block.height, results_cons, extend_append, Nat.max_le, true_and]
      exact ⟨⟨_, hs, hd, hds⟩, hn, hns⟩
  · rintro ⟨h, rfl, hn⟩
    induction ops generalizing σ ts with
    | nil =>
      simp only [Block.Derives] at h
      obtain ⟨hs, rfl⟩ := h
      simpa [results] using .nil hs
    | cons op ops ih =>
      simp only [Block.Derives] at h
      obtain ⟨mid, hs, hd, hds⟩ := h
      simp only [Block.height, Nat.max_le] at hn
      rw [results_cons, extend_append]
      exact .cons hs ⟨hd, rfl, hn.1⟩ (ih hds hn.2)

end Block

namespace Region

variable {n : Nat} {op : Parser Op} {σ σ' : List Scope} {ts rest : List Token}

theorem denotes_parseLabel {labels : List String} : Denotes (parseLabel labels) (Plain
    fun ts label rest => ReadsLabel ts label rest ∧ ∀ l ∈ label, l ∉ labels) := by
  refine (denotes_ifNext (denotes_expect.plain_bind fun t => .mark_bind
    (.require_bind (.pure (some t.lexeme))))).of_iff fun σ ts label σ' rest => ?_
  constructor
  · rintro (⟨-, t, _, ⟨rfl, hk⟩, mid, hm, hl, rfl, rfl, rfl⟩ | ⟨hs, rfl, rfl, rfl⟩)
    · refine ⟨rfl, ⟨_, ⟨t, rfl, hk, rfl⟩, hm⟩, ?_⟩
      simpa using hl
    · exact ⟨rfl, ⟨hs, rfl⟩, by simp⟩
  · rintro ⟨rfl, h, hl⟩
    cases label with
    | none =>
      obtain ⟨hs, rfl⟩ := h
      exact .inr ⟨hs, rfl, rfl, rfl⟩
    | some label =>
      obtain ⟨mid, ⟨t, rfl, hk, rfl⟩, hm⟩ := h
      exact .inl ⟨startsWith_cons.2 hk, t, mid, ⟨rfl, hk⟩, rest, hm, by simpa using hl, rfl, rfl,
        rfl⟩

def ReadsBlock (n : Nat) (blocks : List Block) : Reading (List Block) :=
  fun σ ts blocks' σ' rest => ts ≠ [] ∧ ∃ label ops mid, ReadsLabel ts label mid ∧
    (∀ l ∈ label, l ∉ labels blocks) ∧ Block.Derives σ mid ops rest ∧
    σ' = extend σ (Block.results ops) ∧ Block.height ops ≤ n ∧ blocks' = blocks ++ [.mk label ops]

theorem blockEnds_iff {s : ParserState} : blockEnds s = true ↔ BlockEnds s.ahead := by
  simp [blockEnds, BlockEnds, check_iff, ParserState.isAtEnd, or_assoc]

theorem denotes_parseBlock (h : Denotes op (Op.ReadsWithin n)) (blocks : List Block) :
    Denotes (parseBlock op blocks) (ReadsBlock n blocks) := by
  have hop : Consumes (Op.ReadsWithin n) := fun h => h.1.beyond
  have body := (@denotes_parseLabel (labels blocks)).plain_bind fun label =>
    (denotes_many BlockEnds (fun s => blockEnds_iff) h hop []).bind_pure (g := fun ops =>
      blocks ++ [Block.mk label ops])
  intro s blocks' σ rest
  have guarded : Denotes (require (s.isAtEnd = false) s.peek .openRegion >>= fun _ => _) _ :=
    .require_bind body
  refine (guarded s blocks' σ rest).trans ?_
  have hend : s.isAtEnd = false ↔ s.ahead ≠ [] := by simp [ParserState.isAtEnd]
  rw [hend]
  constructor
  · rintro ⟨hne, label, mid, ⟨hl, hn⟩, ops, ⟨ops', e, ho⟩, rfl⟩
    cases e
    obtain ⟨hd, hσ, hh⟩ := Block.many_iff.1 ho
    exact ⟨hne, label, ops', mid, hl, hn, hd, hσ, hh, rfl⟩
  · rintro ⟨hne, label, ops, mid, hl, hn, hd, hσ, hh, rfl⟩
    exact ⟨hne, label, mid, ⟨hl, hn⟩, ops, ⟨ops, rfl, Block.many_iff.2 ⟨hd, hσ, hh⟩⟩, rfl⟩

theorem ReadsBlock.beyond {blocks blocks' : List Block} (hs : ¬ StartsWith .rbrace ts)
    (h : ReadsBlock n blocks σ ts blocks' σ' rest) : Beyond ts rest := by
  obtain ⟨hne, label, ops, mid, hl, -, hd, -⟩ := h
  cases label with
  | some label =>
    obtain ⟨mid', hw, hm⟩ := hl
    exact (hw.beyond.trans hm.beyond).trans_suffix hd.suffix
  | none =>
    obtain ⟨hc, rfl⟩ := hl
    cases ops with
    | nil =>
      simp only [Block.Derives] at hd
      rcases hd.1 with h | h | h
      · exact absurd h hs
      · exact absurd h hc
      · exact absurd h hne
    | cons op ops =>
      simp only [Block.Derives] at hd
      obtain ⟨mid, -, ho, hos⟩ := hd
      exact ho.beyond.trans_suffix hos.suffix

theorem labels_append (r s : List Block) : labels (r ++ s) = labels r ++ labels s :=
  List.filterMap_append

def results (r : List Block) : List Value := r.flatMap fun b => Block.results b.ops

theorem nodup_labels_concat_iff {blocks : List Block} {label : Option String} {ops : List Op} :
    (labels (blocks ++ [.mk label ops])).Nodup ↔
      (labels blocks).Nodup ∧ ∀ l ∈ label, l ∉ labels blocks := by
  have hone : labels [.mk label ops] = label.toList := by
    cases label <;> rfl
  rw [labels_append, hone, List.nodup_append]
  cases label with
  | none => simp
  | some l =>
    simp only [Option.toList_some, List.nodup_cons, List.not_mem_nil, not_false_eq_true,
      List.nodup_nil, and_self, true_and, List.mem_singleton, Option.mem_def, Option.some.injEq,
      forall_eq', forall_eq]
    constructor
    · rintro ⟨hn, h⟩
      exact ⟨hn, fun hl => h l hl rfl⟩
    · rintro ⟨hn, h⟩
      exact ⟨hn, fun a ha e => h (e ▸ ha)⟩

/-- Blocks read one by one behind the blocks that are there. -/
theorem loop_block_iff {blocks blocks' : List Block} (hb : (labels blocks).Nodup) :
    Loop (StartsWith .rbrace) (ReadsBlock n) blocks σ ts blocks' σ' rest ↔
      ∃ r, blocks' = blocks ++ r ∧ Region.Derives σ ts r rest ∧ σ' = extend σ (results r) ∧
        height r ≤ n ∧ (labels (blocks ++ r)).Nodup := by
  constructor
  · intro h
    induction h with
    | done hs => exact ⟨[], by simp, by simp [Region.Derives, hs], by simp [results],
        by simp [height], by simpa using hb⟩
    | turn hs hr _ ih =>
      obtain ⟨hne, label, ops, mid, hl, hn, hd, rfl, hh, rfl⟩ := hr
      obtain ⟨r, rfl, hr, rfl, hhr, hnr⟩ := ih (nodup_labels_concat_iff.2 ⟨hb, hn⟩)
      refine ⟨.mk label ops :: r, by simp, ?_, ?_, ?_, ?_⟩
      · simp only [Region.Derives]
        exact ⟨_, _, hs, hne, hl, hd, hr⟩
      · simp [results, Block.ops, extend_append]
      · exact Nat.max_le.2 ⟨hh, hhr⟩
      · simpa using hnr
  · rintro ⟨r, rfl, hr, rfl, hh, hn⟩
    induction r generalizing blocks σ ts with
    | nil =>
      simp only [Region.Derives] at hr
      obtain ⟨hs, rfl⟩ := hr
      simpa [results] using .done hs
    | cons b r ih =>
      obtain ⟨label, ops⟩ := b
      simp only [Region.Derives] at hr
      obtain ⟨ts₁, ts₂, hs, hne, hl, hd, hr⟩ := hr
      simp only [height, Nat.max_le] at hh
      have hn' : (labels (blocks ++ [.mk label ops] ++ r)).Nodup := by simpa using hn
      have hb' : (labels (blocks ++ [.mk label ops])).Nodup := by
        rw [labels_append] at hn'
        exact (List.nodup_append.1 hn').1
      have := ih hb' hr hh.2 hn'
      refine .turn hs ⟨hne, label, ops, ts₁, hl, (nodup_labels_concat_iff.1 hb').2, hd, rfl, hh.1,
        rfl⟩ ?_
      simpa [results, Block.ops, extend_append] using this

theorem undefinedSuccessor?_eq_none_iff {r : List Block} : undefinedSuccessor? r = none ↔
    ∀ op ∈ Region.ops r, ∀ l ∈ op.operation.successors, l ∈ labels r := by
  simp [undefinedSuccessor?, labels]

def ReadsWithin (n : Nat) : Reading Region :=
  fun σ ts r σ' rest => σ' = σ ∧ ∃ ts₁ ts₂, Mark .lbrace ts ts₁ ∧
    Region.Derives ([] :: σ) ts₁ r ts₂ ∧ Mark .rbrace ts₂ rest ∧ Linked r ∧ height r ≤ n

theorem denotes_parse (h : Denotes op (Op.ReadsWithin n)) :
    Denotes (Region.parse op) (ReadsWithin n) := by
  have stop (s : ParserState) : s.check .rbrace = true ↔ StartsWith .rbrace s.ahead := check_iff
  refine (Denotes.mark_bind (denotes_pushScope.bind fun _ =>
    (denotes_repeatUntil stop (denotes_parseBlock h) ReadsBlock.beyond []).bind fun blocks =>
    .mark_bind (denotes_popScope.bind fun _ => (?_ : Denotes _ (Plain fun ts r rest =>
      undefinedSuccessor? blocks = none ∧ r = blocks ∧ rest = ts))))).of_iff
      fun σ ts r σ' rest => ?_
  · cases h : undefinedSuccessor? blocks with
    | none => exact (Denotes.pure blocks).of_iff fun _ _ _ _ _ => by simp [Plain]
    | some e => exact (Denotes.fail fun s => ⟨_, s, rfl⟩).of_iff fun _ _ _ _ _ => by simp [Plain]
  have hnil : (labels []).Nodup := List.nodup_nil
  constructor
  · rintro ⟨ts₁, hl, _, _, _, ⟨rfl, rfl⟩, blocks, σ₂, ts₂, hb, _, hr, _, _, _, ⟨rfl, rfl⟩, rfl, hu,
      rfl, rfl⟩
    obtain ⟨r', rfl, hd, rfl, hh, hn⟩ := (loop_block_iff hnil).1 hb
    exact ⟨rfl, _, _, hl, hd, hr, ⟨hn, undefinedSuccessor?_eq_none_iff.1 hu⟩, hh⟩
  · rintro ⟨rfl, ts₁, ts₂, hl, hd, hr, ⟨hn, hu⟩, hh⟩
    exact ⟨ts₁, hl, (), _, _, ⟨rfl, rfl⟩, r, _, ts₂,
      (loop_block_iff hnil).2 ⟨r, rfl, hd, rfl, hh, hn⟩, rest, hr, (), _, _, ⟨rfl, rfl⟩, rfl,
      undefinedSuccessor?_eq_none_iff.2 hu, rfl, rfl⟩

end Region

namespace OpKind

def bare : OpKind → OpKind
  | funcOp style _ => funcOp style {}
  | kind => kind

theorem ofName?_name (kind : OpKind) : ofName? kind.name = some kind.bare := by
  cases kind with
  | moduleOp => rfl
  | funcOp style _ => cases style <;> rfl
  | returnOp => rfl
  | instr i => cases i <;> rfl

end OpKind

namespace Op

variable {n : Nat} {op : Parser Op} {σ σ' : List Scope} {ts rest : List Token}

/-- Reading an op of the given kind, but for its signature. -/
def ReadsKind (n : Nat) (kind : OpKind) : Reading Op :=
  fun σ ts op σ' rest => op.kind.bare = kind.bare ∧ ReadsWithin n σ ts op σ' rest

theorem readsLeaf_iff (kind : OpKind) (hk : ∀ {k : OpKind}, k.bare = kind.bare ↔ k = kind)
    (hr : ¬ kind.TakesRegion) (he : ∀ ts, kind.EndsBefore ts)
    (ha : ∀ {o}, kind.Shows o → o.arguments = []) {op : Op} :
    ReadsLeaf kind (ts.head?.map (·.location)) σ ts op σ' rest ↔
      ReadsKind (n + 1) kind σ ts op σ' rest := by
  constructor
  · rintro ⟨o, rfl, hn, hl, hs, hf, hv, hfr, rfl⟩
    refine ⟨rfl, ?_, rfl, by simp [height]⟩
    simp only [Derives]
    refine ⟨⟨hn, hl, hs, hf⟩, ⟨hv, hfr, ?_⟩, he rest⟩
    rw [ha hs]
    exact fresh_nil _
  · rintro ⟨hb, hd, rfl, -⟩
    obtain ⟨kind, o, r⟩ := op
    cases hk.1 hb
    cases r with
    | none =>
      simp only [Derives] at hd
      obtain ⟨⟨hn, hl, hs, hf⟩, ⟨hv, hfr, -⟩, -⟩ := hd
      exact ⟨o, rfl, hn, hl, hs, hf, hv, hfr, rfl⟩
    | some r =>
      simp only [Derives] at hd
      obtain ⟨_, _, _, -, -, ht, -⟩ := hd
      exact (hr ht).elim

theorem denotes_parseModule (h : Denotes op (ReadsWithin n)) :
    Denotes (parseModule op) (ReadsKind (n + 1) .moduleOp) := by
  refine (denotes_located (F := fun l σ ts op σ' rest => ∃ r mid,
    Word .bareIdentifier ts OpKind.moduleOp.name mid ∧ Region.ReadsWithin n σ mid r σ' rest ∧
    op = ofOperation .moduleOp { location := l } (some r)) (fun first => ?_) ?_).of_iff
    fun σ ts op σ' rest => ?_
  · refine (denotes_keyword.plain_bind fun _ =>
      (Region.denotes_parse h).bind_pure).of_iff fun σ ts op σ' rest => ?_
    constructor
    · rintro ⟨_, mid, hw, r, hr, rfl⟩
      exact ⟨r, mid, hw, hr, rfl⟩
    · rintro ⟨r, mid, hw, hr, rfl⟩
      exact ⟨(), mid, hw, r, hr, rfl⟩
  · rintro l σ op σ' rest ⟨r, mid, ⟨t, e, -⟩, -⟩
    cases e
  · constructor
    · rintro ⟨r, mid, hw, ⟨rfl, ts₁, ts₂, hl, hd, hr, hlinked, hh⟩, rfl⟩
      refine ⟨rfl, ?_, (extend_nil _).symm, Nat.succ_le_succ hh⟩
      simp only [ofOperation, Derives]
      exact ⟨mid, ts₁, ts₂, ⟨rfl, rfl, rfl, hw⟩, .of_no_values rfl rfl rfl, trivial, hl, hd, hr,
        hlinked⟩
    · rintro ⟨hb, hd, rfl, hh⟩
      obtain ⟨kind, o, r⟩ := op
      cases kind with
      | funcOp _ _ => cases hb
      | returnOp => cases hb
      | instr _ => cases hb
      | moduleOp =>
        cases r with
        | none =>
          simp only [Derives] at hd
          exact hd.2.2.elim
        | some r =>
          simp only [Derives] at hd
          obtain ⟨mid, ts₁, ts₂, ⟨hn, hloc, hs, hw⟩, -, -, hl, hd, hr, hlinked⟩ := hd
          obtain ⟨name, location, arguments, operands, attributes, results, successors⟩ := o
          cases hn
          cases hloc
          cases hs
          exact ⟨r, mid, hw, ⟨extend_nil _, ts₁, ts₂, hl, hd, hr, hlinked,
            Nat.le_of_succ_le_succ hh⟩, rfl⟩

theorem denotes_arrowTypes : Denotes (do discard (expect .arrow); Ty.parseResults)
    (Plain fun ts types rest => ∃ mid, Mark .arrow ts mid ∧ Ty.ReadsResults mid types rest) := by
  refine (Denotes.mark_bind Ty.denotes_parseResults).of_iff fun σ ts types σ' rest => ?_
  constructor
  · rintro ⟨mid, hm, rfl, ht⟩
    exact ⟨rfl, mid, hm, ht⟩
  · rintro ⟨rfl, mid, hm, ht⟩
    exact ⟨mid, hm, rfl, ht⟩

theorem denotes_parseArguments : Denotes (listUntil .rparen parseArgument) fun σ ts vs σ' rest =>
    ListOf .rparen ReadsArgument ts vs rest ∧ Fresh σ vs ∧ σ' = extend σ vs := by
  refine (denotes_listUntil (by decide) denotes_parseArgument (fun h => h.1.beyond) ?_).of_iff
    fun σ ts vs σ' rest => listed_visible_iff
  rintro σ t ts v σ' rest ⟨⟨ts₁, ts₂, ⟨u, e, hk, -⟩, -⟩, -⟩
  cases e
  simp [hk]

theorem denotes_optionalRegion (h : Denotes op (ReadsWithin n)) :
    Denotes (ifNext .lbrace (some <$> Region.parse op) none) fun σ ts region σ' rest =>
      (∃ r, region = some r ∧ Region.ReadsWithin n σ ts r σ' rest) ∨
        (region = none ∧ ¬ StartsWith .lbrace ts ∧ σ' = σ ∧ rest = ts) := by
  refine (denotes_ifNext ((Region.denotes_parse h).map some)).of_iff fun σ ts region σ' rest => ?_
  constructor
  · rintro (⟨-, r, hr, rfl⟩ | ⟨hs, rfl, rfl, rfl⟩)
    · exact .inl ⟨r, rfl, hr⟩
    · exact .inr ⟨rfl, hs, rfl, rfl⟩
  · rintro (⟨r, rfl, hr⟩ | ⟨rfl, hs, rfl, rfl⟩)
    · obtain ⟨-, ts₁, ts₂, ⟨t, e, hk⟩, -⟩ := id hr
      exact .inl ⟨⟨t, ts₁, e, hk⟩, r, hr, rfl⟩
    · exact .inr ⟨hs, rfl, rfl, rfl⟩

def ReadsFunction (n : Nat) (style : FuncStyle) (location : Option Location) : Reading Op :=
  fun σ ts op σ' rest => σ' = σ ∧ ∃ signature arguments region mid,
    op = .mk (.funcOp style signature) { name := style.name, location, arguments } region ∧
    ReadsFunc style.name signature ts { arguments } mid ∧ Fresh ([] :: σ) arguments ∧
    ((∃ r τ, region = some r ∧ Region.ReadsWithin n (extend ([] :: σ) arguments) mid r τ rest) ∨
      (region = none ∧ ¬ StartsWith .lbrace mid ∧ rest = mid))

theorem readsFunction_iff {style : FuncStyle} {signature : Signature} {op : Op} :
    ReadsFunction n style (ts.head?.map (·.location)) σ ts op σ' rest ↔
      ReadsKind (n + 1) (.funcOp style signature) σ ts op σ' rest := by
  constructor
  · rintro ⟨rfl, signature, arguments, region, mid, rfl, hf, ha, hr⟩
    have hargs : ∀ v ∈ arguments, v = .argument v.name v.type := by
      obtain ⟨_, _, _, _, -, -, -, -, hl, -⟩ := hf
      exact Listed.forall (fun ⟨_, _, _, _, _, h⟩ => h) hl
    rcases hr with ⟨r, τ, rfl, -, ts₁, ts₂, hl, hd, hr, hlinked, hh⟩ | ⟨rfl, hs, rfl⟩
    · refine ⟨rfl, ?_, (extend_nil _).symm, Nat.succ_le_succ hh⟩
      simp only [Derives]
      exact ⟨mid, ts₁, ts₂, ⟨rfl, rfl, ⟨rfl, hargs⟩, hf⟩,
        ⟨by simp [Operation.Resolves], fresh_nil _, ha⟩, trivial, hl, hd, hr, hlinked⟩
    · refine ⟨rfl, ?_, (extend_nil _).symm, by simp [height]⟩
      simp only [Derives]
      exact ⟨⟨rfl, rfl, ⟨rfl, hargs⟩, hf⟩, ⟨by simp [Operation.Resolves], fresh_nil _, ha⟩, hs⟩
  · rintro ⟨hb, hd, rfl, hh⟩
    obtain ⟨kind, o, r⟩ := op
    cases kind with
    | moduleOp => cases hb
    | returnOp => cases hb
    | instr _ => cases hb
    | funcOp style signature =>
      cases hb
      obtain ⟨name, location, arguments, operands, attributes, results, successors⟩ := o
      cases r with
      | none =>
        simp only [Derives] at hd
        obtain ⟨⟨hn, hloc, ⟨hs, -⟩, hf⟩, ⟨-, -, ha⟩, he⟩ := hd
        cases hn
        cases hloc
        cases hs
        exact ⟨extend_nil _, signature, arguments, none, rest, rfl, hf, ha, .inr ⟨rfl, he, rfl⟩⟩
      | some r =>
        simp only [Derives] at hd
        obtain ⟨mid, ts₁, ts₂, ⟨hn, hloc, ⟨hs, -⟩, hf⟩, ⟨-, -, ha⟩, -, hl, hd, hr, hlinked⟩ := hd
        cases hn
        cases hloc
        cases hs
        exact ⟨extend_nil _, signature, arguments, some r, mid, rfl, hf, ha,
          .inl ⟨r, _, rfl, rfl, ts₁, ts₂, hl, hd, hr, hlinked, Nat.le_of_succ_le_succ hh⟩⟩

theorem denotes_parseFunc (h : Denotes op (ReadsWithin n)) {style : FuncStyle}
    {signature : Signature} :
    Denotes (parseFunc op style) (ReadsKind (n + 1) (.funcOp style signature)) := by
  refine (denotes_located (F := ReadsFunction n style) (fun first => ?_) ?_).of_iff
    fun σ ts op σ' rest => readsFunction_iff
  · refine (denotes_keyword.plain_bind fun _ => denotes_expect.plain_bind fun symbol =>
      denotes_pushScope.bind fun _ => .mark_bind (denotes_parseArguments.bind fun arguments =>
      (denotes_ifNext_plain denotes_arrowTypes).plain_bind fun returns =>
      (denotes_optionalRegion h).bind fun region =>
      denotes_popScope.bind fun _ => .pure _)).of_iff fun σ ts op σ' rest => ?_
    constructor
    · rintro ⟨_, _, hw, symbol, ts₁, ⟨rfl, hk⟩, _, _, _, ⟨rfl, rfl⟩, ts₂, hm, arguments, _, ts₃,
        ⟨hl, hf, rfl⟩, returns, mid, hr, region, _, _, hb, _, _, _, ⟨rfl, rfl⟩, rfl, rfl, rfl⟩
      refine ⟨?_, { identifier := some (trimAt symbol.lexeme), returns }, arguments, region, mid,
        rfl, ⟨symbol, _, ts₂, ts₃, hw, hk, rfl, hm, hl, hr⟩, hf, ?_⟩
      · rcases hb with ⟨r, -, rfl, -⟩ | ⟨-, -, rfl, -⟩ <;> rfl
      · rcases hb with ⟨r, rfl, hb⟩ | ⟨rfl, hs, -, rfl⟩
        · exact .inl ⟨r, _, rfl, hb⟩
        · exact .inr ⟨rfl, hs, rfl⟩
    · rintro ⟨rfl, ⟨identifier, returns⟩, arguments, region, mid, rfl,
        ⟨symbol, ts₁, ts₂, ts₃, hw, hk, hi, hm, hl, hr⟩, hf, hb⟩
      cases hi
      refine ⟨(), _, hw, symbol, ts₁, ⟨rfl, hk⟩, (), _, _, ⟨rfl, rfl⟩, ts₂, hm, arguments, _, ts₃,
        ⟨hl, hf, rfl⟩, returns, mid, hr, region, extend ([] :: σ') arguments, rest, ?_, (), _, _,
        ⟨rfl, rfl⟩, rfl, rfl, rfl⟩
      rcases hb with ⟨r, τ, rfl, hb⟩ | ⟨rfl, hs, rfl⟩
      · exact .inl ⟨r, rfl, rfl, hb.2⟩
      · exact .inr ⟨rfl, hs, rfl, rfl⟩
  · rintro l σ op σ' rest ⟨-, _, _, _, _, -, ⟨_, _, _, _, ⟨t, e, -⟩, -⟩, -⟩
    cases e

theorem denotes_parseKind (h : Denotes op (ReadsWithin n)) (kind : OpKind) :
    Denotes (parseKind op kind) (ReadsKind (n + 1) kind) := by
  cases kind with
  | moduleOp => exact denotes_parseModule h
  | funcOp style signature => exact denotes_parseFunc h
  | returnOp =>
    refine denotes_parseReturn.of_iff fun σ ts op σ' rest =>
      readsLeaf_iff .returnOp ?_ id (fun _ => trivial) ?_
    · intro k
      cases k <;> simp [OpKind.bare]
    · intro o hs
      rw [hs]
  | instr i =>
    refine denotes_parseGeneric.of_iff fun σ ts op σ' rest =>
      readsLeaf_iff (.instr i) ?_ id (fun _ => trivial) fun hs => hs.1
    intro k
    cases k <;> simp [OpKind.bare]

/-! The name of the next op is found before the op is read. -/

theorem dropWhile_names {τ τ' : List Scope} {names : List String} {t : Token}
    (h : Separated (Plain (Word .percentIdentifier)) τ ts names τ' (t :: rest))
    (ht : t.kind = .equal) :
    ts.dropWhile (fun t => t.kind == .percentIdentifier || t.kind == .comma) = t :: rest := by
  generalize hr : t :: rest = r at h
  induction h with
  | last hw _ =>
    obtain ⟨-, u, rfl, hk, -⟩ := hw
    subst hr
    simp [hk, ht]
  | cons hw hc _ ih =>
    obtain ⟨-, u, rfl, hk, -⟩ := hw
    simp [hk, hc, ih hr]

theorem peekOpName_of_bare {s : ParserState} {w : String} {mid : List Token}
    (h : Word .bareIdentifier s.ahead w mid) : s.peekOpName.lexeme = w := by
  obtain ⟨t, e, hk, rfl⟩ := h
  simp [ParserState.peekOpName, ParserState.check, ParserState.peek, ParserState.peekAt, e, hk]

theorem peekOpName_eq_headD {s : ParserState} {names : List String} {rest : List Token}
    (h : ReadsResultNames s.ahead names rest) : s.peekOpName = rest.headD (.atEnd s.stop) := by
  rcases h with ⟨hs, r, hn, eq, rfl, heq⟩ | ⟨hs, -, e⟩
  · have hc : s.check .percentIdentifier = true := check_iff.2 hs
    simp [ParserState.peekOpName, hc, dropWhile_names hn heq, heq]
  · have hc : ¬ s.check .percentIdentifier = true := fun hc => hs (check_iff.1 hc)
    simp [ParserState.peekOpName, hc, ParserState.peek, ParserState.peekAt, ← e,
      List.headD_eq_head?_getD, List.head?_eq_getElem?, List.getD_eq_getElem?_getD]

theorem peekOpName_of_resultNames {s : ParserState} {names : List String} {t : Token}
    {mid : List Token} (h : ReadsResultNames s.ahead names (t :: mid)) :
    s.peekOpName = t := by
  rw [peekOpName_eq_headD h, List.headD_cons]

theorem trimQuotes_name (kind : OpKind) : trimQuotes kind.name = kind.name := by
  cases kind with
  | moduleOp => decide
  | funcOp style _ =>
    show trimQuotes style.name = style.name
    cases style <;> decide
  | returnOp => decide
  | instr i => cases i <;> decide

end Op

namespace OpKind.ReadsHead

variable {kind : OpKind} {s : ParserState} {o : Operation} {rest : List Token}

theorem peekOpName (h : kind.ReadsHead s.ahead o rest) :
    trimQuotes s.peekOpName.lexeme = kind.name := by
  obtain ⟨-, -, -, h⟩ := h
  cases kind with
  | moduleOp => rw [Op.peekOpName_of_bare h, Op.trimQuotes_name]
  | funcOp style signature =>
    obtain ⟨_, _, _, _, hw, -⟩ := h
    rw [Op.peekOpName_of_bare hw, Op.trimQuotes_name]
  | returnOp =>
    obtain ⟨_, _, hw, -⟩ := h
    rw [Op.peekOpName_of_bare hw, Op.trimQuotes_name]
  | instr i =>
    obtain ⟨quoted, _, _, _, _, _, _, _, _, _, hn, -, hq, -⟩ := h
    rw [Op.peekOpName_of_resultNames hn, hq]

end OpKind.ReadsHead

namespace Op

variable {n : Nat} {σ σ' : List Scope} {ts rest : List Token}

theorem denotes_parseWithin (n : Nat) : Denotes (parseWithin n) (ReadsWithin n) := by
  induction n with
  | zero =>
    refine (Denotes.fail fun s => ⟨_, s, rfl⟩).of_iff fun σ ts op σ' rest => ?_
    have := op.height_pos
    refine iff_of_false id ?_
    rintro ⟨-, -, hh⟩
    omega
  | succ n ih =>
    intro s op σ rest
    simp only [parseWithin, parseStep, get_bind_ok]
    constructor
    · cases h : OpKind.ofName? (trimQuotes s.peekOpName.lexeme) with
      | none =>
        rintro ⟨s', e, -⟩
        cases e
      | some kind => exact fun h => ((denotes_parseKind ih kind s op σ rest).1 h).2
    · intro h
      obtain ⟨mid, hm⟩ := h.1.exists_head
      simp only [hm.peekOpName, OpKind.ofName?_name]
      exact (denotes_parseKind ih op.kind.bare s op σ rest).2 ⟨by cases op.kind <;> rfl, h⟩

def Reads : Reading Op :=
  fun σ ts op σ' rest => op.Derives σ ts rest ∧ σ' = extend σ op.operation.results

/-- The parser of ops reads exactly what derives from the grammar. -/
theorem denotes_parse : Denotes parse Reads := by
  intro s op σ rest
  refine (denotes_parseWithin s.ahead.length s op σ rest).trans ?_
  constructor
  · rintro ⟨hd, hσ, -⟩
    exact ⟨hd, hσ⟩
  · rintro ⟨hd, hσ⟩
    exact ⟨hd, hσ, hd.height_le⟩

theorem many_reads_iff {ops : List Op} : Many (fun ts => ts = []) Reads σ ts ops σ' rest ↔
    DeriveAll σ ts ops ∧ σ' = extend σ (Block.results ops) ∧ rest = [] := by
  constructor
  · intro h
    induction h with
    | nil hs => simp [DeriveAll, Block.results, hs]
    | cons hs ho _ ih =>
      obtain ⟨hd, rfl⟩ := ho
      obtain ⟨hds, rfl, rfl⟩ := ih
      refine ⟨⟨hs, _, hd, hds⟩, ?_, rfl⟩
      rw [Block.results_cons, extend_append]
  · rintro ⟨h, rfl, rfl⟩
    induction ops generalizing σ ts with
    | nil =>
      cases h
      simpa [Block.results] using .nil rfl
    | cons op ops ih =>
      obtain ⟨hs, mid, hd, hds⟩ := h
      rw [Block.results_cons, extend_append]
      exact .cons hs ⟨hd, rfl⟩ (ih hds)

theorem denotes_parseAll : Denotes parseAll fun σ ts ops σ' rest =>
    DeriveAll σ ts ops ∧ σ' = extend σ (Block.results ops) ∧ rest = [] := by
  have stop (s : ParserState) : s.isAtEnd = true ↔ s.ahead = [] := by
    simp [ParserState.isAtEnd]
  refine (denotes_many (fun ts => ts = []) stop denotes_parse (fun h => h.1.beyond) []).of_iff
    fun σ ts ops σ' rest => ?_
  simp [many_reads_iff]

end Op

end BrilIR
