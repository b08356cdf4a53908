import BrilIR.Proofs.Grammar.Op

/-!
The grammar of whole trees. A derivation follows the tree: scopes go down into regions and on from
op to op, tokens go from left to right.
-/

namespace BrilIR

open BrilIR.Parser Scope

/-- A block ends at the end of its region, at the label of the next block, or with the source. -/
def BlockEnds (ts : List Token) : Prop :=
  StartsWith .rbrace ts ∨ StartsWith .caretIdentifier ts ∨ ts = []

def ReadsLabel (ts : List Token) : Option String → List Token → Prop
  | none, rest => ¬ StartsWith .caretIdentifier ts ∧ rest = ts
  | some label, rest => ∃ mid, Word .caretIdentifier ts label mid ∧ Mark .colon mid rest

def Region.labels (r : List Block) : List String := r.filterMap Block.label

structure Region.Linked (r : List Block) : Prop where
  nodup : (Region.labels r).Nodup
  resolved : ∀ op ∈ Region.ops r, ∀ l ∈ op.operation.successors, l ∈ Region.labels r

def Block.results (ops : List Op) : List Value := ops.flatMap (·.operation.results)

structure Operation.Scoped (σ : List Scope) (o : Operation) : Prop where
  resolves : o.Resolves σ
  results : Fresh σ o.results
  arguments : Fresh ([] :: σ) o.arguments

theorem Operation.Scoped.of_no_values {σ : List Scope} {o : Operation} (ho : o.operands = [])
    (hr : o.results = []) (ha : o.arguments = []) : o.Scoped σ := by
  refine ⟨?_, ?_, ?_⟩
  · simp [Operation.Resolves, ho]
  · rw [hr]
    exact fresh_nil σ
  · rw [ha]
    exact fresh_nil _

namespace OpKind

/-- The scopes in which the region of an op begins. -/
def inner (σ : List Scope) (o : Operation) : OpKind → List Scope
  | funcOp _ _ => [] :: extend ([] :: σ) o.arguments
  | _ => [] :: σ

/-- Whether the op can end here without a region. -/
def EndsBefore (rest : List Token) : OpKind → Prop
  | moduleOp => False
  | funcOp _ _ => ¬ StartsWith .lbrace rest
  | _ => True

def TakesRegion : OpKind → Prop
  | moduleOp | funcOp _ _ => True
  | _ => False

end OpKind

mutual

/-- The tokens before `rest` are the op in these scopes. -/
def Op.Derives (σ : List Scope) (ts : List Token) : Op → List Token → Prop
  | .mk kind o none, rest => kind.ReadsHead ts o rest ∧ o.Scoped σ ∧ kind.EndsBefore rest
  | .mk kind o (some r), rest => ∃ ts₁ ts₂ ts₃, kind.ReadsHead ts o ts₁ ∧ o.Scoped σ ∧
      kind.TakesRegion ∧ Mark .lbrace ts₁ ts₂ ∧ Region.Derives (kind.inner σ o) ts₂ r ts₃ ∧
      Mark .rbrace ts₃ rest ∧ Region.Linked r

def Region.Derives (σ : List Scope) (ts : List Token) : List Block → List Token → Prop
  | [], rest => StartsWith .rbrace ts ∧ rest = ts
  | .mk label ops :: r, rest => ∃ ts₁ ts₂, ¬ StartsWith .rbrace ts ∧ ts ≠ [] ∧
      ReadsLabel ts label ts₁ ∧ Block.Derives σ ts₁ ops ts₂ ∧
      Region.Derives (extend σ (Block.results ops)) ts₂ r rest

def Block.Derives (σ : List Scope) (ts : List Token) : List Op → List Token → Prop
  | [], rest => BlockEnds ts ∧ rest = ts
  | op :: ops, rest => ∃ mid, ¬ BlockEnds ts ∧ op.Derives σ ts mid ∧
      Block.Derives (extend σ op.operation.results) mid ops rest

end

mutual

def Op.height : Op → Nat
  | .mk _ _ none => 1
  | .mk _ _ (some r) => Region.height r + 1

def Region.height : List Block → Nat
  | [] => 0
  | .mk _ ops :: r => max (Block.height ops) (Region.height r)

def Block.height : List Op → Nat
  | [] => 0
  | op :: ops => max op.height (Block.height ops)

end

theorem ReadsLabel.suffix {ts rest : List Token} {label : Option String}
    (h : ReadsLabel ts label rest) : rest <:+ ts := by
  cases label with
  | none =>
    obtain ⟨-, rfl⟩ := h
    exact List.suffix_refl _
  | some label =>
    obtain ⟨mid, hw, hm⟩ := h
    exact (hw.beyond.trans hm.beyond).suffix

/-! A derivation goes over at least one token for each op that it is inside of. -/

mutual

theorem Op.Derives.beyond : {op : Op} → {σ : List Scope} → {ts rest : List Token} →
    op.Derives σ ts rest → Beyond ts rest
  | .mk kind o none, σ, ts, rest, h => by
    simp only [Op.Derives] at h
    exact h.1.beyond
  | .mk kind o (some r), σ, ts, rest, h => by
    simp only [Op.Derives] at h
    obtain ⟨ts₁, ts₂, ts₃, hh, -, -, hl, hr, hm, -⟩ := h
    exact ((hh.beyond.trans hl.beyond).trans_suffix hr.suffix).trans hm.beyond

theorem Region.Derives.suffix : {r : List Block} → {σ : List Scope} → {ts rest : List Token} →
    Region.Derives σ ts r rest → rest <:+ ts
  | [], σ, ts, rest, h => by
    simp only [Region.Derives] at h
    exact h.2 ▸ List.suffix_refl _
  | .mk label ops :: r, σ, ts, rest, h => by
    simp only [Region.Derives] at h
    obtain ⟨ts₁, ts₂, -, -, hl, ho, hr⟩ := h
    exact (hr.suffix.trans ho.suffix).trans hl.suffix

theorem Block.Derives.suffix : {ops : List Op} → {σ : List Scope} → {ts rest : List Token} →
    Block.Derives σ ts ops rest → rest <:+ ts
  | [], σ, ts, rest, h => by
    simp only [Block.Derives] at h
    exact h.2 ▸ List.suffix_refl _
  | op :: ops, σ, ts, rest, h => by
    simp only [Block.Derives] at h
    obtain ⟨mid, -, ho, hs⟩ := h
    exact hs.suffix.trans ho.beyond.suffix

end

mutual

theorem Op.Derives.height_le : {op : Op} → {σ : List Scope} → {ts rest : List Token} →
    op.Derives σ ts rest → op.height ≤ ts.length
  | .mk kind o none, σ, ts, rest, h => by
    simp only [Op.Derives] at h
    have := h.1.beyond.length_lt
    simp only [Op.height]
    omega
  | .mk kind o (some r), σ, ts, rest, h => by
    simp only [Op.Derives] at h
    obtain ⟨ts₁, ts₂, ts₃, hh, -, -, hl, hr, -, -⟩ := h
    have := hh.beyond.length_lt
    have := hl.beyond.length_lt
    have := hr.height_le
    simp only [Op.height]
    omega

theorem Region.Derives.height_le : {r : List Block} → {σ : List Scope} → {ts rest : List Token} →
    Region.Derives σ ts r rest → Region.height r ≤ ts.length
  | [], σ, ts, rest, h => by simp [Region.height]
  | .mk label ops :: r, σ, ts, rest, h => by
    simp only [Region.Derives] at h
    obtain ⟨ts₁, ts₂, -, -, hl, ho, hr⟩ := h
    have := hl.suffix.length_le
    have := ho.suffix.length_le
    have := ho.height_le
    have := hr.height_le
    simp only [Region.height]
    omega

theorem Block.Derives.height_le : {ops : List Op} → {σ : List Scope} → {ts rest : List Token} →
    Block.Derives σ ts ops rest → Block.height ops ≤ ts.length
  | [], σ, ts, rest, h => by simp [Block.height]
  | op :: ops, σ, ts, rest, h => by
    simp only [Block.Derives] at h
    obtain ⟨mid, -, ho, hs⟩ := h
    have := ho.beyond.length_lt
    have := ho.height_le
    have := hs.height_le
    simp only [Block.height]
    omega

end

theorem Op.height_pos (op : Op) : 0 < op.height := by
  obtain ⟨kind, o, r⟩ := op
  cases r <;> simp [height]

theorem Block.results_cons (op : Op) (ops : List Op) :
    results (op :: ops) = op.operation.results ++ results ops := rfl

/-! What stands at the front of an op, and what behind the last op of a block. -/

theorem OpKind.ReadsHead.front {kind : OpKind} {ts rest : List Token} {o : Operation}
    (h : kind.ReadsHead ts o rest) : (StartsWith .percentIdentifier ts ∧ o.results ≠ []) ∨
      ((StartsWith .string ts ∨ StartsWith .bareIdentifier ts) ∧ o.results = []) := by
  obtain ⟨-, -, hs, hf⟩ := h
  cases kind with
  | moduleOp => exact .inr ⟨.inr (Word.startsWith hf), by rw [hs]⟩
  | funcOp _ _ =>
    obtain ⟨_, _, _, _, hw, -⟩ := hf
    exact .inr ⟨.inr hw.startsWith, by rw [hs.1]⟩
  | returnOp =>
    obtain ⟨_, _, hw, -⟩ := hf
    exact .inr ⟨.inr hw.startsWith, by rw [hs]⟩
  | instr i =>
    obtain ⟨quoted, _, _, _, _, _, _, _, _, _, hn, hk, -⟩ := hf
    rcases hn with ⟨hp, mid, hl, -⟩ | ⟨-, hn, e⟩
    · refine .inl ⟨hp, fun hr => ?_⟩
      rw [hr] at hl
      cases hl
    · exact .inr ⟨.inl (e ▸ startsWith_cons.2 hk), List.map_eq_nil_iff.1 hn⟩

namespace Op

variable {σ : List Scope} {ts rest : List Token} {op : Op}

theorem Derives.exists_head (h : op.Derives σ ts rest) :
    ∃ mid, op.kind.ReadsHead ts op.operation mid := by
  obtain ⟨kind, o, r⟩ := op
  cases r with
  | none =>
    simp only [Derives] at h
    exact ⟨rest, h.1⟩
  | some r =>
    simp only [Derives] at h
    obtain ⟨mid, _, _, h, -⟩ := h
    exact ⟨mid, h⟩

theorem Derives.front (h : op.Derives σ ts rest) :
    (StartsWith .percentIdentifier ts ∧ op.operation.results ≠ []) ∨
      ((StartsWith .string ts ∨ StartsWith .bareIdentifier ts) ∧ op.operation.results = []) := by
  obtain ⟨mid, hm⟩ := h.exists_head
  exact hm.front

theorem Derives.not_blockEnds (h : op.Derives σ ts rest) : ¬ BlockEnds ts := by
  have hne : ts ≠ [] := by
    rintro rfl
    exact absurd h.beyond.length_lt (Nat.not_lt_zero _)
  have front {kind : Token.Kind} (hs : StartsWith kind ts) (h₁ : kind ≠ .rbrace)
      (h₂ : kind ≠ .caretIdentifier) : ¬ BlockEnds ts := by
    rintro (hr | hc | hn)
    · exact hs.not h₁ hr
    · exact hs.not h₂ hc
    · exact hne hn
  rcases h.front with ⟨hs, -⟩ | ⟨hs | hs, -⟩ <;> exact front hs (by decide) (by decide)

end Op

theorem Block.Derives.not_blockEnds {ops : List Op} {σ : List Scope} {ts rest : List Token}
    (h : Block.Derives σ ts ops rest) (hne : ops ≠ []) : ¬ BlockEnds ts := by
  cases ops with
  | nil => exact absurd rfl hne
  | cons op ops =>
    simp only [Block.Derives] at h
    obtain ⟨mid, hs, -⟩ := h
    exact hs

theorem Block.Derives.blockEnds_rest {ops : List Op} {σ : List Scope} {ts rest : List Token}
    (h : Block.Derives σ ts ops rest) : BlockEnds rest := by
  induction ops generalizing σ ts with
  | nil =>
    simp only [Block.Derives] at h
    exact h.2 ▸ h.1
  | cons op ops ih =>
    simp only [Block.Derives] at h
    obtain ⟨mid, -, -, hs⟩ := h
    exact ih hs

theorem Region.Derives.blockEnds {r : List Block} {σ : List Scope} {ts rest : List Token}
    (h : Region.Derives σ ts r rest) (hl : ∀ b ∈ r, b.label ≠ none) : BlockEnds ts := by
  cases r with
  | nil =>
    simp only [Region.Derives] at h
    exact .inl h.1
  | cons b r =>
    obtain ⟨label, ops⟩ := b
    simp only [Region.Derives] at h
    obtain ⟨_, _, -, -, hlabel, -⟩ := h
    cases label with
    | none => exact absurd rfl (hl (.mk none ops) (by simp))
    | some label =>
      obtain ⟨mid, hw, -⟩ := hlabel
      exact .inr (.inl hw.startsWith)

theorem Region.Derives.labelled {r : List Block} {σ : List Scope} {ts rest : List Token}
    (h : Region.Derives σ ts r rest) (hb : BlockEnds ts) : ∀ b ∈ r, b.label ≠ none := by
  induction r generalizing σ ts with
  | nil => simp
  | cons b r ih =>
    obtain ⟨label, ops⟩ := b
    simp only [Region.Derives] at h
    obtain ⟨ts₁, ts₂, hr, hne, hl, ho, hs⟩ := h
    refine List.forall_mem_cons.2 ⟨?_, ih hs ho.blockEnds_rest⟩
    rintro rfl
    rcases hb with h | h | h
    · exact hr h
    · exact hl.1 h
    · exact hne h

namespace Op

def DeriveAll (σ : List Scope) (ts : List Token) : List Op → Prop
  | [] => ts = []
  | op :: ops => ts ≠ [] ∧ ∃ mid, op.Derives σ ts mid ∧
      DeriveAll (extend σ op.operation.results) mid ops

/-- A source outside of all braces is a block that ends with it. -/
theorem DeriveAll.block {σ : List Scope} {ts : List Token} {ops : List Op}
    (h : DeriveAll σ ts ops) : Block.Derives σ ts ops [] := by
  induction ops generalizing σ ts with
  | nil =>
    cases h
    simp [Block.Derives, BlockEnds]
  | cons op ops ih =>
    obtain ⟨-, mid, ho, hs⟩ := h
    simp only [Block.Derives]
    exact ⟨mid, ho.not_blockEnds, ho, ih hs⟩

end Op

end BrilIR
