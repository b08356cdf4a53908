import BrilIR.Op.Printer
import BrilIR.Proofs.Grammar.Tree

/-! Trees up to the places of their ops, which no text shows. -/

namespace BrilIR

def Operation.located (o : Operation) (l : Option Location) : Operation := { o with location := l }

mutual

def Op.unlocated : Op → Op
  | .mk kind o none => .mk kind (o.located none) none
  | .mk kind o (some r) => .mk kind (o.located none) (some (Region.unlocated r))

def Region.unlocated : List Block → List Block
  | [] => []
  | .mk label ops :: r => .mk label (Block.unlocated ops) :: Region.unlocated r

def Block.unlocated : List Op → List Op
  | [] => []
  | op :: ops => op.unlocated :: Block.unlocated ops

end

theorem OpKind.headText_located (kind : OpKind) (o : Operation) (l : Option Location) :
    kind.headText (o.located l) = kind.headText o := by
  cases kind <;> rfl

mutual

theorem Op.textAt_unlocated (indent : Int) : (op : Op) →
    op.unlocated.textAt indent = op.textAt indent
  | .mk kind o none => by simp only [Op.unlocated, Op.textAt, OpKind.headText_located]
  | .mk kind o (some r) => by
    simp only [Op.unlocated, Op.textAt, OpKind.headText_located,
      Region.blocksText_unlocated (indent + 1) r]

theorem Region.blocksText_unlocated (indent : Int) : (r : List Block) →
    Region.blocksText indent (Region.unlocated r) = Region.blocksText indent r
  | [] => rfl
  | .mk label ops :: r => by
    simp only [Region.unlocated, Region.blocksText, Block.opsText_unlocated indent ops,
      Region.blocksText_unlocated indent r]

theorem Block.opsText_unlocated (indent : Int) : (ops : List Op) →
    Block.opsText indent (Block.unlocated ops) = Block.opsText indent ops
  | [] => rfl
  | op :: ops => by
    simp only [Block.unlocated, Block.opsText, Op.textAt_unlocated indent op,
      Block.opsText_unlocated indent ops]

end

/-- Trees that differ in places only have the same text. -/
theorem Op.text_eq_of_unlocated {op op' : Op} (h : op'.unlocated = op.unlocated) :
    op'.text = op.text := by
  have := congrArg (Op.textAt 0) h
  rwa [textAt_unlocated, textAt_unlocated] at this

theorem Op.kind_unlocated (op : Op) : op.unlocated.kind = op.kind := by
  obtain ⟨kind, o, r⟩ := op
  cases r <;> rfl

theorem Op.operation_unlocated (op : Op) : op.unlocated.operation = op.operation.located none := by
  obtain ⟨kind, o, r⟩ := op
  cases r <;> rfl

theorem Op.results_of_unlocated {op op' : Op} (h : op'.unlocated = op.unlocated) :
    op'.operation.results = op.operation.results := by
  have := congrArg (·.operation.results) h
  simp only [operation_unlocated] at this
  exact this

theorem Block.unlocated_eq_map (ops : List Op) : Block.unlocated ops = ops.map Op.unlocated := by
  induction ops with
  | nil => rfl
  | cons op ops ih => rw [Block.unlocated, ih, List.map_cons]

theorem Block.unlocated_eq_nil_iff {ops : List Op} : Block.unlocated ops = [] ↔ ops = [] := by
  rw [unlocated_eq_map, List.map_eq_nil_iff]

theorem Block.head?_of_unlocated {ops ops' : List Op}
    (h : Block.unlocated ops = Block.unlocated ops')
    {op' : Op} (ho : op' ∈ ops'.head?) : ∃ op ∈ ops.head?, op.unlocated = op'.unlocated := by
  cases ops with
  | nil =>
    rw [unlocated_eq_nil_iff.1 h.symm] at ho
    cases ho
  | cons op ops =>
    cases ops' with
    | nil => cases ho
    | cons op'' ops' =>
      cases ho
      exact ⟨op, rfl, (List.cons.inj h).1⟩

theorem Block.results_unlocated (ops : List Op) :
    Block.results (Block.unlocated ops) = Block.results ops := by
  induction ops with
  | nil => rfl
  | cons op ops ih =>
    rw [Block.unlocated, results_cons, results_cons, ih, Op.operation_unlocated]
    rfl

theorem Block.results_of_unlocated {ops ops' : List Op}
    (h : Block.unlocated ops' = Block.unlocated ops) : Block.results ops' = Block.results ops := by
  rw [← results_unlocated, h, results_unlocated]

namespace Region

theorem map_label_unlocated (r : List Block) :
    (unlocated r).map Block.label = r.map Block.label := by
  induction r with
  | nil => rfl
  | cons b r ih =>
    obtain ⟨label, ops⟩ := b
    rw [unlocated, List.map_cons, List.map_cons, ih]
    rfl

theorem labels_unlocated (r : List Block) : labels (unlocated r) = labels r := by
  have h (r : List Block) : labels r = (r.map Block.label).filterMap id := by
    simp [labels, List.filterMap_map]
  rw [h, map_label_unlocated, ← h]

theorem ops_unlocated (r : List Block) : ops (unlocated r) = (ops r).map Op.unlocated := by
  induction r with
  | nil => rfl
  | cons b r ih =>
    obtain ⟨label, os⟩ := b
    simp only [ops, unlocated, List.flatMap_cons, List.map_append] at ih ⊢
    rw [ih]
    simp only [Block.ops, Block.unlocated_eq_map]

theorem linked_unlocated_iff {r : List Block} : Linked (unlocated r) ↔ Linked r := by
  have h (op : Op) : op.unlocated.operation.successors = op.operation.successors := by
    rw [Op.operation_unlocated]
    rfl
  constructor
  · rintro ⟨hn, hr⟩
    rw [labels_unlocated] at hn
    refine ⟨hn, fun op hop l hl => ?_⟩
    rw [← labels_unlocated]
    refine hr op.unlocated ?_ l (h op ▸ hl)
    rw [ops_unlocated]
    exact List.mem_map_of_mem hop
  · rintro ⟨hn, hr⟩
    refine ⟨by rwa [labels_unlocated], fun op hop l hl => ?_⟩
    rw [ops_unlocated] at hop
    obtain ⟨op', hop', rfl⟩ := List.mem_map.1 hop
    rw [labels_unlocated]
    exact hr op' hop' l (h op' ▸ hl)

theorem Linked.of_unlocated {r r' : List Block} (h : Linked r) (e : unlocated r' = unlocated r) :
    Linked r' := by
  rw [← linked_unlocated_iff, e, linked_unlocated_iff]
  exact h

end Region

end BrilIR
