import BrilIR.Proofs.Printing.Accepted
import BrilIR.Proofs.Source.Reading

/-! Reading undoes writing: the text of a module is read as the module, at new places. -/

namespace BrilIR.Op

open Token BrilIR.Parser

theorem exists_readAll_text {t : Op} (h : t.Regular [[]]) (ha : t.ReturnsApart) :
    ∃ t' : Op, readAll t.text = .ok [t'] ∧ t'.unlocated = t.unlocated := by
  obtain ⟨s, hs, hr⟩ := (writes_textAt 0 t h ha).exists_scan (by simp [Boundary])
  obtain ⟨t', he, hd⟩ := hr (.nil t)
  have hne : s.tokens ≠ [] := by
    intro empty
    rw [empty] at hd
    exact absurd hd.beyond.length_lt (Nat.lt_irrefl _)
  exact ⟨t', readAll_ok_iff.2 ⟨s, hs, hne, [], hd, rfl⟩, he⟩

theorem linked_unlabelled {ops : List Op} (h : ∀ op ∈ ops, op.operation.successors = []) :
    Region.Linked [.mk none ops] := by
  refine ⟨List.nodup_nil, fun op hop l hl => ?_⟩
  have hop : op ∈ ops := by simpa [Region.ops, Block.ops] using hop
  rw [h op hop] at hl
  cases hl

theorem ofTopLevel_of_module {t : Op} (h : t.kind = .moduleOp) : ofTopLevel [t] = t := by
  obtain ⟨kind, o, r⟩ := t
  cases h
  rfl

theorem ofTopLevel_cases (ops : List Op) : (∃ t : Op, ops = [t] ∧ t.kind = .moduleOp) ∨
    (¬ ∃ t : Op, ops = [t] ∧ t.kind = .moduleOp) ∧ ofTopLevel ops = moduleOf ops := by
  unfold ofTopLevel
  split
  · exact .inl ⟨_, rfl, rfl⟩
  · next hne =>
    refine .inr ⟨?_, rfl⟩
    rintro ⟨⟨kind, o, r⟩, rfl, hm⟩
    cases hm
    exact hne o r rfl

theorem exists_ofSource_text {t : Op} (hm : t.kind = .moduleOp) (h : t.Regular [[]])
    (ha : t.ReturnsApart) : ∃ t', ofSource t.text = .ok t' ∧ t'.unlocated = t.unlocated := by
  obtain ⟨t', hr, e⟩ := exists_readAll_text h ha
  have hm' : t'.kind = .moduleOp := by rw [← kind_unlocated, e, kind_unlocated, hm]
  exact ⟨t', ofSource_ok_iff.2 ⟨_, hr, (ofTopLevel_of_module hm').symm⟩, e⟩

theorem returnsApart_ofTopLevel {source : String} {ops : List Op} (h : readAll source = .ok ops) :
    (ofTopLevel ops).ReturnsApart := by
  obtain ⟨s, -, hd⟩ := readAll_ok_iff.1 h
  rcases ofTopLevel_cases ops with ⟨t, rfl, ht⟩ | ⟨-, e⟩
  · rw [ofTopLevel_of_module ht]
    exact hd.block.returnsApart.1
  · rw [e]
    exact ⟨hd.block.returnsApart, trivial⟩

/-- The text of a regular module is read as the module exactly if no op in it that returns without
values stands in front of an op with results, whose names would be taken for the values. -/
theorem reads_text_iff {t : Op} (hm : t.kind = .moduleOp) (h : t.Regular [[]]) :
    (∃ t', ofSource t.text = .ok t' ∧ t'.unlocated = t.unlocated) ↔ t.ReturnsApart := by
  constructor
  · rintro ⟨t', hr, e⟩
    obtain ⟨ops, hops, rfl⟩ := ofSource_ok_iff.1 hr
    have ha := returnsApart_ofTopLevel hops
    rwa [← returnsApart_unlocated_iff, e, returnsApart_unlocated_iff] at ha
  · exact exists_ofSource_text hm h

/-! The two sides of the condition. -/

theorem regular_moduleOf {ops : List Op} (hne : ops ≠ []) (h : Block.Regular [[], []] ops)
    (hs : ∀ op ∈ ops, op.operation.successors = []) : (moduleOf ops).Regular [[]] := by
  simp only [moduleOf, ofOperation, Op.Regular, Region.Regular]
  exact ⟨OpKind.regular_module none, .of_no_values rfl rfl rfl, trivial, linked_unlabelled hs,
    by simp, fun _ => hne, by simp, h, trivial⟩

theorem regular_int64 {v : Value} (hn : Lexeme .percentIdentifier v.name.toList)
    (ht : v.type = .int 64) : v.Regular :=
  ⟨hn, by rw [ht]; show (64 : UInt32) ≠ 0; decide⟩

def parameter : Value := .argument "%x" (.int 64)

def identity : Op :=
  moduleOf [.mk (.funcOp .func { identifier := some "id", returns := [.int 64] })
    { name := "func.func", arguments := [parameter] } (some [.mk none [
      .mk .returnOp { name := "return", operands := [parameter] } none]])]

theorem regular_identity : identity.Regular [[]] := by
  have hx : parameter.Regular :=
    regular_int64 ⟨'%', ['x'], rfl, rfl, by simp, List.all_eq_true.1 (by decide)⟩ rfl
  have hreturn : OpKind.returnOp.Regular { name := "return", operands := [parameter] } :=
    ⟨rfl, rfl, by simp, by simp, by simpa using hx, by simp, Attributes.regular_empty, by simp⟩
  have hfunc : (OpKind.funcOp .func { identifier := some "id", returns := [.int 64] }).Regular
      { name := "func.func", arguments := [parameter] } := by
    refine ⟨rfl, ⟨rfl, by simp [parameter, Value.name, Value.type]⟩, ?_, by simpa using hx, by simp,
      by simp, Attributes.regular_empty, by simp⟩
    rintro style s e
    cases e
    exact ⟨⟨_, rfl, by decide, List.all_eq_true.1 (by decide)⟩, by simp [Ty.Regular]⟩
  have hscope : Scope.lookup? [[], [parameter], [], []] parameter.name = some parameter := by decide
  refine regular_moduleOf (by simp) ?_ (by simp [operation])
  simp only [Op.Regular, Region.Regular, Block.Regular]
  refine ⟨⟨hfunc, ?_, trivial, linked_unlabelled (by simp [operation]), by simp, by simp, by simp,
    ⟨⟨hreturn, ?_, by simp⟩, trivial⟩, trivial⟩, trivial⟩
  · exact ⟨by simp [Operation.Resolves], trivial, by simp [Scope.Fresh]⟩
  · exact ⟨by simpa [Operation.Resolves, OpKind.inner, Scope.extend] using hscope, trivial, trivial⟩

theorem reads_text_identity :
    ∃ t', ofSource identity.text = .ok t' ∧ t'.unlocated = identity.unlocated := by
  have ha : identity.ReturnsApart := by
    simp [identity, moduleOf, ofOperation, Op.ReturnsApart, Region.ReturnsApart, Block.ReturnsApart]
  exact (reads_text_iff rfl regular_identity).2 ha

/-- An op that returns without values in front of one with a result. -/
def strayReturn : Op :=
  moduleOf [.mk .returnOp { name := "return" } none,
    .mk (.instr .undef) { name := "bril.undef", results := [.result "%0" (.int 64)] } none]

theorem regular_strayReturn : strayReturn.Regular [[]] := by
  have hx : (Value.result "%0" (.int 64)).Regular :=
    regular_int64 ⟨'%', ['0'], rfl, rfl, by simp, List.all_eq_true.1 (by decide)⟩ rfl
  have hreturn : OpKind.returnOp.Regular { name := "return" } :=
    ⟨rfl, rfl, by simp, by simp, by simp, by simp, Attributes.regular_empty, by simp⟩
  have hundef : (OpKind.instr .undef).Regular
      { name := "bril.undef", results := [.result "%0" (.int 64)] } :=
    ⟨rfl, ⟨rfl, by simp [Value.name, Value.type]⟩, by simp, by simp, by simp, by simpa using hx,
      Attributes.regular_empty, by simp⟩
  refine regular_moduleOf (by simp) ?_ (by simp [operation])
  simp only [Op.Regular, Block.Regular]
  refine ⟨⟨hreturn, .of_no_values rfl rfl rfl, by simp⟩, ⟨hundef, ?_, by simp⟩, trivial⟩
  exact ⟨by simp [Operation.Resolves], by simp [Scope.Fresh, operation, Scope.extend], trivial⟩

theorem not_reads_text_strayReturn : strayReturn.kind = .moduleOp ∧ strayReturn.Regular [[]] ∧
    ¬ ∃ t', ofSource strayReturn.text = .ok t' ∧ t'.unlocated = strayReturn.unlocated := by
  refine ⟨rfl, regular_strayReturn, ?_⟩
  have herr : (readAll strayReturn.text).isOk = false := by decide +kernel
  rintro ⟨t', hr, -⟩
  obtain ⟨ops, hops, -⟩ := ofSource_ok_iff.1 hr
  rw [hops] at herr
  cases herr

end BrilIR.Op
