import BrilIR.Proofs.Printing.Op
import BrilIR.Proofs.Tree.Unlocated

/-!
The text of a tree is read as the tree, at new places. The induction follows the text: what is read
of a part depends on the tokens behind it only in how it ends.
-/

namespace BrilIR

open Token BrilIR.Parser Scope

mutual

def Op.Regular (σ : List Scope) : Op → Prop
  | .mk kind o none => kind.Regular o ∧ o.Scoped σ ∧ kind ≠ .moduleOp
  | .mk kind o (some r) => kind.Regular o ∧ o.Scoped σ ∧ kind.TakesRegion ∧ Region.Linked r ∧
      Region.Regular (kind.inner σ o) r

/-- Only the first block of a region can do without a label, if it is not empty. -/
def Region.Regular (σ : List Scope) : List Block → Prop
  | [] => True
  | .mk label ops :: r => (∀ l ∈ label, Lexeme .caretIdentifier l.toList) ∧
      (label = none → ops ≠ []) ∧ (∀ b ∈ r, b.label ≠ none) ∧ Block.Regular σ ops ∧
      Region.Regular (extend σ (Block.results ops)) r

def Block.Regular (σ : List Scope) : List Op → Prop
  | [] => True
  | op :: ops => op.Regular σ ∧ Block.Regular (extend σ op.operation.results) ops

end

/-- An op that returns without values: a name behind it would be taken for one. -/
def Op.ReturnsNothing (op : Op) : Prop := op.kind = .returnOp ∧ op.operation.operands = []

mutual

/-- No op in the tree that returns without values stands in front of an op with results. -/
def Op.ReturnsApart : Op → Prop
  | .mk _ _ none => True
  | .mk _ _ (some r) => Region.ReturnsApart r

def Region.ReturnsApart : List Block → Prop
  | [] => True
  | .mk _ ops :: r => Block.ReturnsApart ops ∧ Region.ReturnsApart r

def Block.ReturnsApart : List Op → Prop
  | [] => True
  | op :: ops => op.ReturnsApart ∧
      (op.ReturnsNothing → ∀ next ∈ ops.head?, next.operation.results = []) ∧
      Block.ReturnsApart ops

end

structure Op.Stops (op : Op) (rest : List Token) : Prop where
  head : op.kind.Stops op.operation rest
  region : ¬ StartsWith .lbrace rest

namespace Op

theorem Stops.of_startsWith {op : Op} {kind : Kind} {rest : List Token} (h : StartsWith kind rest)
    (hk : kind ∉ [Kind.comma, .arrow, .lbrace])
    (hp : op.ReturnsNothing → kind ≠ .percentIdentifier) : op.Stops rest := by
  simp only [List.mem_cons, List.not_mem_nil, or_false, not_or] at hk
  exact ⟨⟨h.not hk.1, h.not hk.2.1, fun h₁ h₂ => h.not (hp ⟨h₁, h₂⟩)⟩, h.not hk.2.2⟩

theorem Stops.nil (op : Op) : op.Stops [] := by
  refine ⟨⟨?_, ?_, ?_⟩, ?_⟩ <;> simp

theorem Stops.of_blockEnds {op : Op} {rest : List Token} (h : BlockEnds rest) : op.Stops rest := by
  rcases h with h | h | rfl
  · exact .of_startsWith h (by decide) (by simp)
  · exact .of_startsWith h (by decide) (by simp)
  · exact .nil op

theorem Derives.stops {op next : Op} {σ : List Scope} {ts rest : List Token}
    (h : next.Derives σ ts rest) (hr : op.ReturnsNothing → next.operation.results = []) :
    op.Stops ts := by
  rcases h.front with ⟨hs, hne⟩ | ⟨hs | hs, -⟩
  · exact .of_startsWith hs (by decide) fun hn => absurd (hr hn) hne
  · exact .of_startsWith hs (by decide) (by simp)
  · exact .of_startsWith hs (by decide) (by simp)

end Op

theorem Block.Derives.stops {op : Op} {ops : List Op} {σ : List Scope} {ts rest : List Token}
    (h : Block.Derives σ ts ops rest)
    (hr : op.ReturnsNothing → ∀ next ∈ ops.head?, next.operation.results = []) : op.Stops ts := by
  cases ops with
  | nil =>
    simp only [Block.Derives] at h
    exact .of_blockEnds h.1
  | cons next ops =>
    simp only [Block.Derives] at h
    obtain ⟨mid, -, hn, -⟩ := h
    exact hn.stops fun hop => hr hop next rfl

/-! Places have no part in what is read. -/

theorem OpKind.Shows.located {kind : OpKind} {o : Operation} (h : kind.Shows o)
    (l : Option Location) : kind.Shows (o.located l) := by
  obtain ⟨name, location, arguments, operands, attributes, results, successors⟩ := o
  cases kind with
  | moduleOp =>
    cases h
    rfl
  | funcOp _ _ =>
    obtain ⟨h, ha⟩ := h
    cases h
    exact ⟨rfl, ha⟩
  | returnOp =>
    cases h
    rfl
  | instr _ => exact h

theorem OpKind.ReadsForm.located {kind : OpKind} {o : Operation} {ts rest : List Token}
    (h : kind.ReadsForm ts o rest) (l : Option Location) :
    kind.ReadsForm ts (o.located l) rest := by
  cases kind <;> exact h

theorem Operation.Scoped.located {σ : List Scope} {o : Operation} (h : o.Scoped σ)
    (l : Option Location) : (o.located l).Scoped σ := by
  obtain ⟨h₁, h₂, h₃⟩ := h
  exact ⟨h₁, h₂, h₃⟩

theorem OpKind.ReadsForm.readsHead {kind : OpKind} {o : Operation} {ts rest : List Token}
    (h : kind.ReadsForm ts o rest) (ho : kind.Regular o) :
    kind.ReadsHead ts (o.located (ts.head?.map (·.location))) rest :=
  ⟨ho.name_eq, rfl, ho.shows.located _, h.located _⟩

theorem OpKind.inner_located (kind : OpKind) (σ : List Scope) (o : Operation)
    (l : Option Location) : kind.inner σ (o.located l) = kind.inner σ o := by
  cases kind <;> rfl

/-! Texts of trees. -/

/-- The tokens are the op, but for places. -/
def Op.Shown (σ : List Scope) (ts : List Token) (op : Op) (rest : List Token) : Prop :=
  ∃ op' : Op, op'.unlocated = op.unlocated ∧ op'.Derives σ ts rest

def Region.Shown (σ : List Scope) (ts : List Token) (r : List Block) (rest : List Token) : Prop :=
  ∃ r', Region.unlocated r' = Region.unlocated r ∧ Region.Derives σ ts r' rest

def Block.Shown (σ : List Scope) (ts : List Token) (ops : List Op) (rest : List Token) : Prop :=
  ∃ ops', Block.unlocated ops' = Block.unlocated ops ∧ Block.Derives σ ts ops' rest

theorem blanks_spaces (indent : Int) : Blanks (spaces indent).toList := by
  intro c hc
  rw [spaces, String.toList_ofList] at hc
  rw [List.eq_of_mem_replicate hc]
  rfl

theorem writes_labelLine (indent : Int) {label : Option String}
    (h : ∀ l ∈ label, Lexeme .caretIdentifier l.toList) :
    Writes Anything (labelLine indent label).toList fun ts rest =>
      (label = none → ¬ StartsWith .caretIdentifier rest) → ReadsLabel ts label rest := by
  cases label with
  | none =>
    refine Writes.nil.imp ?_
    rintro ts rest rfl hc
    exact ⟨hc rfl, rfl⟩
  | some label =>
    have e : (labelLine indent (some label)).toList =
        (spaces (indent - 1)).toList ++ (label.toList ++ [':', '\n']) := by
      simp [labelLine]
    have colon : Writes Anything [':', '\n'] (Mark .colon) :=
      .mark [] ':' ['\n'] rfl (by decide) (by decide)
    rw [e]
    refine ((Writes.blank (P := Anything) (blanks_spaces _)).append
      ((Writes.lexeme (h label rfl)).append colon fun _ _ => boundary_cons.2 (by decide))
      fun _ _ => trivial).imp ?_
    rintro ts rest ⟨_, rfl, mid, hw, hm⟩ -
    exact ⟨mid, hw, hm⟩

mutual

theorem Op.writes_textAt (indent : Int) : (op : Op) → {σ : List Scope} → op.Regular σ →
    op.ReturnsApart → Writes Boundary (op.textAt indent).toList fun ts rest =>
      op.Stops rest → op.Shown σ ts rest
  | .mk kind o none, σ, h, _ => by
    simp only [Op.Regular] at h
    obtain ⟨ho, hs, hm⟩ := h
    have e : (Op.textAt indent (.mk kind o none)).toList = (kind.headText o).toList := by
      simp [Op.textAt, hm]
    rw [e]
    refine (Op.writes_headText ho).imp fun ts rest hf hstop => ?_
    refine ⟨.mk kind (o.located (ts.head?.map (·.location))) none, rfl, ?_⟩
    simp only [Op.Derives]
    refine ⟨(hf hstop.head).readsHead ho, hs.located _, ?_⟩
    cases kind with
    | moduleOp => exact absurd rfl hm
    | funcOp _ _ => exact hstop.region
    | returnOp => trivial
    | instr _ => trivial
  | .mk kind o (some r), σ, h, ha => by
    simp only [Op.Regular] at h
    simp only [Op.ReturnsApart] at ha
    obtain ⟨ho, hs, ht, hl, hr⟩ := h
    have hshow : kind.showsRegion = true := by
      cases kind with
      | returnOp => exact ht.elim
      | moduleOp => rfl
      | funcOp _ _ => rfl
      | instr _ => rfl
    have e : (Op.textAt indent (.mk kind o (some r))).toList = (kind.headText o).toList ++
        ([' ', '\x7b', '\n'] ++ ((Region.blocksText (indent + 1) r).toList ++
        ((spaces indent).toList ++ ['\x7d']))) := by
      simp [Op.textAt, hshow, braced]
    have lbrace : Writes Anything [' ', '\x7b', '\n'] (Mark .lbrace) :=
      .mark [' '] '\x7b' ['\n'] rfl (by decide) (by decide)
    have rbrace : Writes Boundary ((spaces indent).toList ++ ['\x7d']) (Mark .rbrace) :=
      .mark _ '\x7d' [] rfl (blanks_spaces indent) (by decide)
    rw [e]
    refine ((Op.writes_headText ho).append (lbrace.append
      ((Region.writes_blocksText (indent + 1) r hr ha).append rbrace ?_) ?_) ?_).imp ?_
    · exact fun _ _ => trivial
    · exact fun _ _ => trivial
    · exact fun _ _ => boundary_cons.2 (by decide)
    · rintro ts rest ⟨ts₁, hf, ts₂, hlb, ts₃, hblocks, hrb⟩ -
      have hbrace : StartsWith .lbrace ts₁ := hlb.startsWith
      have hstop : (Op.mk kind o (some r)).kind.Stops o ts₁ :=
        ⟨hbrace.not (by decide), hbrace.not (by decide), fun _ _ => hbrace.not (by decide)⟩
      obtain ⟨r', er, hd⟩ := hblocks hrb.startsWith
      refine ⟨.mk kind (o.located (ts.head?.map (·.location))) (some r'), ?_, ?_⟩
      · simp only [Op.unlocated, er]
        rfl
      · simp only [Op.Derives, OpKind.inner_located]
        exact ⟨ts₁, ts₂, ts₃, (hf hstop).readsHead ho, hs.located _, ht, hlb, hd, hrb,
          hl.of_unlocated er⟩

theorem Region.writes_blocksText (indent : Int) : (r : List Block) → {σ : List Scope} →
    Region.Regular σ r → Region.ReturnsApart r →
    Writes Anything (Region.blocksText indent r).toList fun ts rest =>
      StartsWith .rbrace rest → Region.Shown σ ts r rest
  | [], σ, _, _ => by
    refine Writes.nil.imp ?_
    rintro ts rest rfl hs
    refine ⟨[], rfl, ?_⟩
    simp only [Region.Derives, and_true]
    exact hs
  | .mk label ops :: r, σ, h, ha => by
    simp only [Region.Regular] at h
    simp only [Region.ReturnsApart] at ha
    obtain ⟨hlabel, hempty, hlater, hops, hr⟩ := h
    have e : (Region.blocksText indent (.mk label ops :: r)).toList =
        (labelLine indent label).toList ++ ((Block.opsText indent ops).toList ++
          (Region.blocksText indent r).toList) := by
      simp [Region.blocksText]
    rw [e]
    refine ((writes_labelLine indent hlabel).append
      ((Block.writes_opsText indent ops hops ha.1).append
        (Region.writes_blocksText indent r hr ha.2) fun _ _ => trivial)
      fun _ _ => trivial).imp ?_
    rintro ts rest ⟨ts₁, hl, ts₂, ho, hrest⟩ hs
    obtain ⟨r', er, hd⟩ := hrest hs
    have hlater' : ∀ b ∈ r', b.label ≠ none := by
      intro b hb
      have hm : b.label ∈ r.map Block.label := by
        rw [← Region.map_label_unlocated, ← er, Region.map_label_unlocated]
        exact List.mem_map_of_mem hb
      obtain ⟨c, hc, e⟩ := List.mem_map.1 hm
      exact e ▸ hlater c hc
    obtain ⟨ops', eo, hds⟩ := ho (hd.blockEnds hlater')
    -- only an op shows that there is a block without a label
    have hfirst : label = none → ¬ BlockEnds ts₁ := fun hn => hds.not_blockEnds fun hnil => by
      rw [hnil] at eo
      exact hempty hn (Block.unlocated_eq_nil_iff.1 eo.symm)
    have hl := hl fun hn hc => hfirst hn (.inr (.inl hc))
    have hstart : ¬ StartsWith .rbrace ts ∧ ts ≠ [] := by
      cases label with
      | none =>
        obtain ⟨-, rfl⟩ := hl
        exact ⟨fun hb => hfirst rfl (.inl hb), fun hn => hfirst rfl (.inr (.inr hn))⟩
      | some label =>
        obtain ⟨mid, ⟨t, rfl, hk, -⟩, -⟩ := hl
        simp [hk]
    refine ⟨.mk label ops' :: r', by simp only [Region.unlocated, eo, er], ?_⟩
    simp only [Region.Derives, Block.results_of_unlocated eo]
    exact ⟨ts₁, ts₂, hstart.1, hstart.2, hl, hds, hd⟩

theorem Block.writes_opsText (indent : Int) : (ops : List Op) → {σ : List Scope} →
    Block.Regular σ ops → Block.ReturnsApart ops →
    Writes Anything (Block.opsText indent ops).toList fun ts rest =>
      BlockEnds rest → Block.Shown σ ts ops rest
  | [], σ, _, _ => by
    refine Writes.nil.imp ?_
    rintro ts rest rfl hs
    refine ⟨[], rfl, ?_⟩
    simp only [Block.Derives, and_true]
    exact hs
  | op :: ops, σ, h, ha => by
    simp only [Block.Regular] at h
    simp only [Block.ReturnsApart] at ha
    have e : (Block.opsText indent (op :: ops)).toList = (spaces indent).toList ++
        ((op.textAt indent).toList ++ (['\n'] ++ (Block.opsText indent ops).toList)) := by
      simp [Block.opsText]
    have feed : Writes Anything ['\n'] fun ts rest => rest = ts := .blank (by decide)
    rw [e]
    refine ((Writes.blank (P := Anything) (blanks_spaces _)).append
      ((Op.writes_textAt indent op h.1 ha.1).append
      (feed.append (Block.writes_opsText indent ops h.2 ha.2.2) fun _ _ => trivial)
      fun _ _ => boundary_cons.2 (by decide)) fun _ _ => trivial).imp ?_
    rintro ts rest ⟨_, rfl, mid, ho, _, rfl, hos⟩ hend
    obtain ⟨ops', eo, hd⟩ := hos hend
    -- else the results of the next op were taken for what is returned
    have hnext : op.ReturnsNothing → ∀ next ∈ ops'.head?, next.operation.results = [] := by
      intro hr next hn
      obtain ⟨next', hn', e⟩ := Block.head?_of_unlocated eo.symm hn
      rw [Op.results_of_unlocated e.symm]
      exact ha.2.1 hr next' hn'
    obtain ⟨op', e, ho⟩ := ho (hd.stops hnext)
    refine ⟨op' :: ops', by simp only [Block.unlocated, e, eo], ?_⟩
    simp only [Block.Derives, Op.results_of_unlocated e]
    exact ⟨_, ho.not_blockEnds, ho, hd⟩

end

end BrilIR
