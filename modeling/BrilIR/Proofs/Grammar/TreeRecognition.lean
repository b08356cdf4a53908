import BrilIR.Proofs.Grammar.OpRecognition

/-!
Trees are recognized by their productions. A derivation gives up its look ahead; what it looked for
is regained from the tokens that may stand behind an op.
-/

namespace BrilIR

open Token BrilIR.Parser Production

theorem ReadsLabel.before {first : Bool} {label : Option String} {ops : List Op}
    {ts rest : List Token} (h : ReadsLabel ts label rest)
    (hn : label = none → first = true ∧ ops ≠ []) :
    Before (Block.labelTokens first label ops) ts rest := by
  cases label with
  | some label =>
    obtain ⟨mid, hw, hm⟩ := h
    exact (before_word.2 hw).mul (before_mark.2 hm)
  | none =>
    obtain ⟨rfl, hne⟩ := hn rfl
    cases ops with
    | nil => contradiction
    | cons op ops => exact before_empty.2 h.2

theorem readsLabel_of_before {first : Bool} {label : Option String} {ops : List Op}
    {ts rest : List Token} (h : Before (Block.labelTokens first label ops) ts rest)
    (hc : label = none → ¬ StartsWith .caretIdentifier rest) :
    ReadsLabel ts label rest ∧ (label = none → first = true ∧ ops ≠ [] ∧ rest = ts) := by
  cases label with
  | some label =>
    obtain ⟨mid, hw, hm⟩ := before_mul.1 h
    exact ⟨⟨mid, before_word.1 hw, before_mark.1 hm⟩, by simp⟩
  | none =>
    have hc := hc rfl
    obtain ⟨us, hu, e⟩ := h
    cases ops with
    | nil => exact absurd hu (Language.notMem_zero us)
    | cons op ops =>
      cases first with
      | false => exact absurd hu (Language.notMem_zero us)
      | true =>
        cases (Language.mem_one us).1 hu
        rw [List.nil_append] at e
        subst e
        exact ⟨⟨hc, rfl⟩, by simp⟩

theorem Region.labelled_of_before {r : List Block} {ts rest : List Token}
    (h : Before (Region.tokens false r) ts rest) : ∀ b ∈ r, b.label ≠ none := by
  induction r generalizing ts with
  | nil => simp
  | cons b r ih =>
    obtain ⟨label, ops⟩ := b
    simp only [Region.tokens, before_mul] at h
    obtain ⟨mid, hl, mid', -, hr⟩ := h
    refine List.forall_mem_cons.2 ⟨?_, ih hr⟩
    intro e
    cases e
    obtain ⟨us, hu, -⟩ := hl
    cases ops with
    | nil => exact Language.notMem_zero us hu
    | cons op ops => exact Language.notMem_zero us hu

mutual

theorem Op.Derives.before : {op : Op} → {σ : List Scope} → {ts rest : List Token} →
    op.Derives σ ts rest → Lexical ts → Before op.tokens ts rest
  | .mk kind o none, σ, ts, rest, h, hl => by
    simp only [Op.Derives] at h
    obtain ⟨hh, -, he⟩ := h
    obtain ⟨us, hu, e⟩ := hh.before hl
    refine ⟨us, ?_, e⟩
    simp only [Op.tokens]
    refine ⟨?_, hu⟩
    intro hk
    subst hk
    exact he
  | .mk kind o (some r), σ, ts, rest, h, hl => by
    simp only [Op.Derives] at h
    obtain ⟨ts₁, ts₂, ts₃, hh, -, ht, hlb, hr, hrb, -⟩ := h
    have head := hh.before hl
    have l₂ : Lexical ts₂ := hl.mono (hlb.beyond.suffix.trans head.suffix)
    have region := Region.Derives.before hr l₂ (.inl rfl)
    obtain ⟨us, hu, e⟩ :=
      head.mul ((before_mark.2 hlb).mul (region.mul (before_mark.2 hrb)))
    refine ⟨us, ?_, e⟩
    simp only [Op.tokens]
    exact ⟨ht, hu⟩

theorem Region.Derives.before : {r : List Block} → {first : Bool} → {σ : List Scope} →
    {ts rest : List Token} → Region.Derives σ ts r rest → Lexical ts →
    first = true ∨ BlockEnds ts → Before (Region.tokens first r) ts rest
  | [], first, σ, ts, rest, h, hl, hf => by
    simp only [Region.Derives] at h
    simp only [Region.tokens]
    exact before_empty.2 h.2
  | .mk label ops :: r, first, σ, ts, rest, h, hl, hf => by
    simp only [Region.Derives] at h
    obtain ⟨ts₁, ts₂, hb, hne, hlabel, ho, hr⟩ := h
    -- Behind another block, or without ops, a block without a label could not be told from none.
    have hfirst : label = none → first = true ∧ ops ≠ [] := by
      intro e
      subst e
      obtain ⟨hc, rfl⟩ := hlabel
      have hends : ¬ BlockEnds ts₁ := by
        intro h
        obtain h | h | h := h
        · exact hb h
        · exact hc h
        · exact hne h
      refine ⟨hf.resolve_right hends, ?_⟩
      intro e
      subst e
      simp only [Block.Derives] at ho
      exact hends ho.1
    have label := hlabel.before hfirst
    have l₁ : Lexical ts₁ := hl.mono label.suffix
    have block := Block.Derives.before ho l₁
    simp only [Region.tokens]
    exact label.mul (block.mul
      (Region.Derives.before hr (l₁.mono block.suffix) (.inr ho.blockEnds_rest)))

theorem Block.Derives.before : {ops : List Op} → {σ : List Scope} → {ts rest : List Token} →
    Block.Derives σ ts ops rest → Lexical ts → Before (Block.tokens ops) ts rest
  | [], σ, ts, rest, h, hl => by
    simp only [Block.Derives] at h
    simp only [Block.tokens]
    exact before_empty.2 h.2
  | op :: ops, σ, ts, rest, h, hl => by
    simp only [Block.Derives] at h
    obtain ⟨mid, -, ho, hs⟩ := h
    have first := Op.Derives.before ho hl
    simp only [Block.tokens]
    exact first.mul (Block.Derives.before hs (hl.mono first.suffix))

end

mutual

theorem Op.Derives.fits : {op : Op} → {σ : List Scope} → {ts rest : List Token} →
    op.Derives σ ts rest → op.Fits σ
  | .mk kind o none, σ, ts, rest, h => by
    simp only [Op.Derives] at h
    simp only [Op.Fits]
    exact h.2.1
  | .mk kind o (some r), σ, ts, rest, h => by
    simp only [Op.Derives] at h
    obtain ⟨_, _, _, -, hs, -, -, hr, -, hl⟩ := h
    simp only [Op.Fits]
    exact ⟨hs, hl, Region.Derives.fits hr⟩

theorem Region.Derives.fits : {r : List Block} → {σ : List Scope} → {ts rest : List Token} →
    Region.Derives σ ts r rest → Region.Fits σ r
  | [], σ, ts, rest, h => trivial
  | .mk label ops :: r, σ, ts, rest, h => by
    simp only [Region.Derives] at h
    obtain ⟨_, _, -, -, -, ho, hr⟩ := h
    simp only [Region.Fits]
    exact ⟨Block.Derives.fits ho, Region.Derives.fits hr⟩

theorem Block.Derives.fits : {ops : List Op} → {σ : List Scope} → {ts rest : List Token} →
    Block.Derives σ ts ops rest → Block.Fits σ ops
  | [], σ, ts, rest, h => trivial
  | op :: ops, σ, ts, rest, h => by
    simp only [Block.Derives] at h
    obtain ⟨_, -, ho, hs⟩ := h
    simp only [Block.Fits]
    exact ⟨Op.Derives.fits ho, Block.Derives.fits hs⟩

end

mutual

/-- A text in the language of an op is read as the op, if what stands behind does not go on with
it. -/
theorem Op.derives_of_before : (op : Op) → {σ : List Scope} → {ts rest : List Token} →
    op.Fits σ → op.ReturnsApart → Before op.tokens ts rest → op.Stops rest →
    op.Derives σ ts rest
  | .mk kind o none, σ, ts, rest, hf, _, h, hs => by
    simp only [Op.Fits] at hf
    obtain ⟨us, hu, e⟩ := h
    simp only [Op.tokens] at hu
    obtain ⟨hk, hu⟩ := hu
    simp only [Op.Derives]
    refine ⟨OpKind.head_of_before ⟨us, hu, e⟩ hs.head, hf, ?_⟩
    cases kind with
    | moduleOp => contradiction
    | funcOp _ _ => exact hs.region
    | returnOp => trivial
    | instr _ => trivial
  | .mk kind o (some r), σ, ts, rest, hf, ha, h, _ => by
    simp only [Op.Fits] at hf
    simp only [Op.ReturnsApart] at ha
    obtain ⟨hs, hl, hr⟩ := hf
    obtain ⟨us, hu, e⟩ := h
    simp only [Op.tokens] at hu
    obtain ⟨ht, hu⟩ := hu
    obtain ⟨ts₁, head, hrest⟩ := before_mul.1 ⟨us, hu, e⟩
    simp only [before_mul, before_mark] at hrest
    obtain ⟨ts₂, hlb, ts₃, region, hrb⟩ := hrest
    have hbrace : StartsWith .lbrace ts₁ := hlb.startsWith
    have hstop : kind.Stops o ts₁ :=
      ⟨hbrace.not (by decide), hbrace.not (by decide), fun _ _ => hbrace.not (by decide)⟩
    have hregion := Region.derives_of_before r hr ha region hrb.startsWith
    simp only [Op.Derives]
    exact ⟨ts₁, ts₂, ts₃, OpKind.head_of_before head hstop, hs, ht, hlb, hregion, hrb, hl⟩

theorem Region.derives_of_before : (r : List Block) → {first : Bool} → {σ : List Scope} →
    {ts rest : List Token} → Region.Fits σ r → Region.ReturnsApart r →
    Before (Region.tokens first r) ts rest → StartsWith .rbrace rest → Region.Derives σ ts r rest
  | [], first, σ, ts, rest, _, _, h, hs => by
    simp only [Region.tokens] at h
    cases before_empty.1 h
    simp only [Region.Derives, and_true]
    exact hs
  | .mk label ops :: r, first, σ, ts, rest, hf, ha, h, hs => by
    simp only [Region.Fits] at hf
    simp only [Region.ReturnsApart] at ha
    simp only [Region.tokens, before_mul] at h
    obtain ⟨ts₁, hlabel, ts₂, hops, hr⟩ := h
    -- From the right to the left: what stands behind the block says where it ends.
    have tail := Region.derives_of_before r hf.2 ha.2 hr hs
    have block := Block.derives_of_before ops hf.1 ha.1 hops
      (tail.blockEnds (Region.labelled_of_before hr))
    have hstart : label = none → ¬ BlockEnds ts₁ := by
      intro e
      subst e
      apply block.not_blockEnds
      intro e
      subst e
      obtain ⟨us, hu, -⟩ := hlabel
      exact Language.notMem_zero us hu
    obtain ⟨hlabel, hnone⟩ := readsLabel_of_before hlabel fun e hc => hstart e (.inr (.inl hc))
    have hts : ¬ StartsWith .rbrace ts ∧ ts ≠ [] := by
      cases label with
      | none =>
        obtain ⟨-, -, e⟩ := hnone rfl
        subst e
        have hstart := hstart rfl
        exact ⟨fun hb => hstart (.inl hb), fun hn => hstart (.inr (.inr hn))⟩
      | some label =>
        obtain ⟨mid, ⟨t, rfl, hk, -⟩, -⟩ := hlabel
        simp [hk]
    simp only [Region.Derives]
    exact ⟨ts₁, ts₂, hts.1, hts.2, hlabel, block, tail⟩

theorem Block.derives_of_before : (ops : List Op) → {σ : List Scope} → {ts rest : List Token} →
    Block.Fits σ ops → Block.ReturnsApart ops → Before (Block.tokens ops) ts rest →
    BlockEnds rest → Block.Derives σ ts ops rest
  | [], σ, ts, rest, _, _, h, hs => by
    simp only [Block.tokens] at h
    cases before_empty.1 h
    simp only [Block.Derives, and_true]
    exact hs
  | op :: ops, σ, ts, rest, hf, ha, h, hs => by
    simp only [Block.Fits] at hf
    simp only [Block.ReturnsApart] at ha
    simp only [Block.tokens] at h
    obtain ⟨mid, ho, hops⟩ := before_mul.1 h
    have tail := Block.derives_of_before ops hf.2 ha.2.2 hops hs
    have head := Op.derives_of_before op hf.1 ha.1 ho (tail.stops ha.2.1)
    simp only [Block.Derives]
    exact ⟨mid, head.not_blockEnds, head, tail⟩

end

theorem Op.deriveAll_iff_block {σ : List Scope} {ts : List Token} {ops : List Op} :
    DeriveAll σ ts ops ↔ Block.Derives σ ts ops [] := by
  constructor
  · exact DeriveAll.block
  · intro h
    induction ops generalizing σ ts with
    | nil =>
      simp only [Block.Derives] at h
      exact h.2.symm
    | cons op ops ih =>
      simp only [Block.Derives] at h
      obtain ⟨mid, he, ho, hs⟩ := h
      exact ⟨fun hn => he (.inr (.inr hn)), mid, ho, ih hs⟩

/-- A source derives exactly if its tokens are in the language of its ops, names and labels fit, and
no name behind a `return` is taken for a returned value. -/
theorem Op.deriveAll_iff_tokens {σ : List Scope} {ts : List Token} {ops : List Op}
    (hl : Lexical ts) : DeriveAll σ ts ops ↔
      ts ∈ Block.tokens ops ∧ Block.Fits σ ops ∧ Block.ReturnsApart ops := by
  rw [deriveAll_iff_block]
  constructor
  · intro h
    exact ⟨before_nil.1 (h.before hl), h.fits, h.returnsApart⟩
  · intro h
    obtain ⟨ht, hf, ha⟩ := h
    exact Block.derives_of_before ops hf ha (before_nil.2 ht) (.inr (.inr rfl))

end BrilIR
