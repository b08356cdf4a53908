import BrilIR.Proofs.Source.Reading

/-!
Successors name blocks of the region around them. Closing a region checks this, so it holds inside
braces; the ops that a source has outside of all braces are put into a region without the check.
-/

namespace BrilIR

open BrilIR.Parser Scope

/-- Each successor of an op directly in a region is the label of a block of that region. -/
def Region.Resolved (r : Region) : Prop :=
  ∀ op ∈ Region.ops r, ∀ l ∈ op.operation.successors, ∃ b ∈ r, b.label = some l

instance (r : Region) : Decidable (Region.Resolved r) :=
  decidable_of_iff ((Region.ops r).all fun op => op.operation.successors.all fun l =>
    r.any fun b => b.label == some l) (by simp [Region.Resolved])

def Op.Resolved (op : Op) : Prop :=
  ∀ p ∈ op.preorder 0, ∀ r, p.2.region = some r → Region.Resolved r

instance (op : Op) : Decidable op.Resolved :=
  decidable_of_iff ((op.preorder 0).all fun p => p.2.region.all fun r => Region.Resolved r)
    (by simp [Op.Resolved, Option.all_eq_true])

theorem Region.Resolved.of_linked {r : List Block} (h : Region.Linked r) : Region.Resolved r := by
  intro op ho l hl
  obtain ⟨b, hb, e⟩ := List.mem_filterMap.1 (h.resolved op ho l hl)
  exact ⟨b, hb, e⟩

mutual

theorem Op.Derives.resolved : {op : Op} → {σ : List Scope} → {ts rest : List Token} →
    (depth : Nat) → op.Derives σ ts rest →
    ∀ p ∈ op.preorder depth, ∀ r, p.2.region = some r → Region.Resolved r
  | .mk kind o none, σ, ts, rest, depth, h => by simp [Op.preorder, Op.region]
  | .mk kind o (some r), σ, ts, rest, depth, h => by
    simp only [Op.Derives] at h
    obtain ⟨_, _, _, -, -, -, -, hr, -, hl⟩ := h
    simp only [Op.preorder, List.forall_mem_cons, Op.region, Option.some.injEq, forall_eq']
    exact ⟨.of_linked hl, hr.resolved (depth + 1)⟩

theorem Region.Derives.resolved : {r : List Block} → {σ : List Scope} → {ts rest : List Token} →
    (depth : Nat) → Region.Derives σ ts r rest →
    ∀ p ∈ Region.preorder depth r, ∀ r, p.2.region = some r → Region.Resolved r
  | [], σ, ts, rest, depth, h => by simp [Region.preorder]
  | .mk label ops :: r, σ, ts, rest, depth, h => by
    simp only [Region.Derives] at h
    obtain ⟨_, _, -, -, -, ho, hr⟩ := h
    simp only [Region.preorder, List.forall_mem_append]
    exact ⟨ho.resolved depth, hr.resolved depth⟩

theorem Block.Derives.resolved : {ops : List Op} → {σ : List Scope} → {ts rest : List Token} →
    (depth : Nat) → Block.Derives σ ts ops rest →
    ∀ p ∈ Block.preorder depth ops, ∀ r, p.2.region = some r → Region.Resolved r
  | [], σ, ts, rest, depth, h => by simp [Block.preorder]
  | op :: ops, σ, ts, rest, depth, h => by
    simp only [Block.Derives] at h
    obtain ⟨_, -, ho, hs⟩ := h
    simp only [Block.preorder, List.forall_mem_append]
    exact ⟨ho.resolved depth, hs.resolved depth⟩

end

namespace Op

theorem resolved_moduleOf_iff {ops : List Op} : (moduleOf ops).Resolved ↔
    (∀ op ∈ ops, op.operation.successors = []) ∧
      ∀ p ∈ Block.preorder 1 ops, ∀ r, p.2.region = some r → Region.Resolved r := by
  simp [Op.Resolved, moduleOf, ofOperation, Op.preorder, Region.preorder, Op.region,
    Region.Resolved, Region.ops, Block.ops, Block.label, List.eq_nil_iff_forall_not_mem]

/-- The successors in the module of a source all name blocks around them exactly if no op outside
of all braces has successors. -/
theorem resolved_iff_of_readAll {source : String} {ops : List Op} (h : readAll source = .ok ops) :
    (ofTopLevel ops).Resolved ↔ ∀ op ∈ ops, op.operation.successors = [] := by
  obtain ⟨s, -, hd⟩ := readAll_ok_iff.1 h
  unfold ofTopLevel
  split
  · next o r =>
    obtain ⟨-, mid, ho, -⟩ := hd
    obtain ⟨_, hm⟩ := ho.exists_head
    have hs : o = { name := o.name, location := o.location } := hm.shows
    refine iff_of_true (ho.resolved 0) ?_
    rw [hs]
    simp [operation]
  · rw [resolved_moduleOf_iff, and_iff_left (hd.block.resolved 1)]

theorem resolved_module_loop : ∃ ops,
    readAll "module \x7b ^a: \"bril.jmp\"()[^a] : () -> () \x7d" = .ok ops ∧
      (ofTopLevel ops).Resolved := by
  obtain ⟨ops, h, ht⟩ := exists_readAll "module \x7b ^a: \"bril.jmp\"()[^a] : () -> () \x7d"
    (fun ops => ops.all (·.operation.successors.isEmpty)) (by decide +kernel)
  refine ⟨ops, h, (resolved_iff_of_readAll h).2 fun op ho => ?_⟩
  exact List.isEmpty_iff.1 (List.all_eq_true.1 ht op ho)

/-- A jump to nowhere outside of all braces. It is read nevertheless. -/
theorem not_resolved_outside_jump : ∃ op,
    ofSource "\"bril.jmp\"()[^x] : () -> ()" = .ok op ∧ ¬ op.Resolved := by
  obtain ⟨ops, h, ht⟩ := exists_readAll "\"bril.jmp\"()[^x] : () -> ()"
    (fun ops => !decide (ofTopLevel ops).Resolved) (by decide +kernel)
  exact ⟨ofTopLevel ops, ofSource_ok_iff.2 ⟨ops, h, rfl⟩, by simpa using ht⟩

end Op

end BrilIR
