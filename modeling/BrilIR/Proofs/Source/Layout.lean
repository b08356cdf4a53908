import BrilIR.Proofs.Grammar.Unlocated
import BrilIR.Proofs.Source.Acceptance
import BrilIR.Proofs.Source.RoundTrip
import BrilIR.Proofs.Verify.Limit
import BrilIR.Proofs.Verify.Unlocated

/-! What a source means does not depend on how its words are laid out. -/

namespace BrilIR.Op

open Token

variable {source source' : String} {s s' : TokenStream}

theorem unlocated_ofTopLevel (ops : List Op) :
    (ofTopLevel ops).unlocated = ofTopLevel (Block.unlocated ops) := by
  cases ofTopLevel_cases ops with
  | inl hm =>
    obtain ⟨t, rfl, ht⟩ := hm
    have hkind : t.unlocated.kind = .moduleOp := by rw [kind_unlocated, ht]
    rw [ofTopLevel_of_module ht]
    exact (ofTopLevel_of_module hkind).symm
  | inr hm =>
    obtain ⟨hnot, e⟩ := hm
    cases ofTopLevel_cases (Block.unlocated ops) with
    | inl hm =>
      obtain ⟨t, et, ht⟩ := hm
      rw [Block.unlocated_eq_map] at et
      obtain ⟨t', _, rfl, rfl, hnil⟩ := List.map_eq_cons_iff.1 et
      rw [kind_unlocated] at ht
      exact absurd ⟨t', by rw [List.map_eq_nil_iff.1 hnil], ht⟩ hnot
    | inr hm =>
      rw [e, hm.2]
      rfl

/-- The ops of a source are those of any source with the same words, but for places. -/
theorem exists_readAll_of_content (hs : TokenStream.scan source = .ok s)
    (hs' : TokenStream.scan source' = .ok s')
    (h : s'.tokens.map content = s.tokens.map content) {ops : List Op}
    (hr : readAll source = .ok ops) :
    ∃ ops', readAll source' = .ok ops' ∧ Block.unlocated ops' = Block.unlocated ops := by
  obtain ⟨s₁, hs₁, ht, hf, ha⟩ := readAll_ok_iff_tokens.1 hr
  cases hs.symm.trans hs₁
  obtain ⟨ops', e, ht'⟩ := Block.exists_mem_tokens ops h ht
  have hf' : Block.Fits [[]] ops' := by
    rw [← Block.fits_unlocated_iff, e, Block.fits_unlocated_iff]
    exact hf
  have ha' : Block.ReturnsApart ops' := by
    rw [← Block.returnsApart_unlocated_iff, e, Block.returnsApart_unlocated_iff]
    exact ha
  exact ⟨ops', readAll_ok_iff_tokens.2 ⟨s', hs', ht', hf', ha'⟩, e⟩

theorem exists_ofSource_of_content (hs : TokenStream.scan source = .ok s)
    (hs' : TokenStream.scan source' = .ok s')
    (h : s'.tokens.map content = s.tokens.map content) {op : Op}
    (ho : ofSource source = .ok op) :
    ∃ op', ofSource source' = .ok op' ∧ op'.unlocated = op.unlocated := by
  obtain ⟨ops, hr, rfl⟩ := ofSource_ok_iff.1 ho
  obtain ⟨ops', hr', e⟩ := exists_readAll_of_content hs hs' h hr
  refine ⟨ofTopLevel ops', ofSource_ok_iff.2 ⟨ops', hr', rfl⟩, ?_⟩
  rw [unlocated_ofTopLevel, e, unlocated_ofTopLevel]

/-- A text that writes the words of a source in their order, with gaps of its own between them, is
cut into the same tokens. It is accepted exactly if the source is, as the same tree but for places,
with the same text and the same diagnostics. -/
theorem ofSource_layout (hs : TokenStream.scan source = .ok s)
    (hl : Layout (s.tokens.map (·.lexeme)) source'.toList) :
    ∃ s', TokenStream.scan source' = .ok s' ∧
      s'.toList.map content = s.toList.map content ∧
      ((∃ op', ofSource source' = .ok op') ↔ ∃ op, ofSource source = .ok op) ∧
      ∀ op op', ofSource source = .ok op → ofSource source' = .ok op' →
        op'.unlocated = op.unlocated ∧ op'.text = op.text ∧
          (op'.verify 0).kept.map Diagnostic.unlocated =
            (op.verify 0).kept.map Diagnostic.unlocated := by
  obtain ⟨s', hs', h⟩ := TokenStream.exists_scan_layout hs hl
  have hlist : s'.toList.map content = s.toList.map content := by
    simp only [TokenStream.toList, List.map_append, h]
    rfl
  refine ⟨s', hs', hlist, ⟨?_, ?_⟩, fun op op' ho ho' => ?_⟩
  · intro hex
    obtain ⟨op', ho'⟩ := hex
    obtain ⟨op, ho, -⟩ := exists_ofSource_of_content hs' hs h.symm ho'
    exact ⟨op, ho⟩
  · intro hex
    obtain ⟨op, ho⟩ := hex
    obtain ⟨op', ho', -⟩ := exists_ofSource_of_content hs hs' h ho
    exact ⟨op', ho'⟩
  · obtain ⟨op'', ho'', e⟩ := exists_ofSource_of_content hs hs' h ho
    cases ho'.symm.trans ho''
    refine ⟨e, text_eq_of_unlocated e, ?_⟩
    rw [kept_verify_zero, kept_verify_zero]
    exact findings_of_unlocated e

/-- Words that run into each other need a gap. -/
example : (TokenStream.scan "true 32").toOption.map (·.tokens.length) = some 2 ∧
    (TokenStream.scan "true32").toOption.map (·.tokens.length) = some 1 := by
  decide +kernel

def compactJump : String := "\"bril.jmp\"():()->()"

def spacedJump : String :=
  "// -> \"\n\"bril.jmp\" (\t)//:\n :\r\n( ) -> ( ) "

theorem layout_spacedJump :
    Layout ["\"bril.jmp\"", "(", ")", ":", "(", ")", "->", "(", ")"] spacedJump.toList := by
  have e : spacedJump.toList = ("//".toList ++ (" -> \"".toList ++ ['\n'])) ++
      ("\"bril.jmp\"".toList ++ ([' '] ++ ("(".toList ++ (['\t'] ++ (")".toList ++
      (("//".toList ++ (":".toList ++ ['\n', ' '])) ++ (":".toList ++ (['\r', '\n'] ++
      ("(".toList ++ ([' '] ++ (")".toList ++ ([' '] ++ ("->".toList ++ ([' '] ++
      ("(".toList ++ ([' '] ++ (")".toList ++ [' ']))))))))))))))))) := by
    decide
  have space : Gap [' '] := .blank rfl .nil
  rw [e]
  refine .words (.comment (by decide) .nil) (.word space (by decide) (.word (.blank rfl .nil)
    (by decide) (.word (.comment (by decide) space) (by decide)
    (.word (.blank rfl (.blank rfl .nil)) (by decide) (.word space (by decide)
    (.word space (by decide) (.word space (by decide)
    (.word space (by decide) (.done space)))))))))

/-- Both are accepted, and in both a successor is missing. -/
theorem ofSource_layout_spacedJump : ∃ s, TokenStream.scan compactJump = .ok s ∧
    Layout (s.tokens.map (·.lexeme)) spacedJump.toList ∧
    (∃ op, ofSource compactJump = .ok op ∧ (op.verify 0).kept.length = 1) ∧
    ∃ s', TokenStream.scan spacedJump = .ok s' ∧
      s'.toList.map content = s.toList.map content ∧
      ((∃ op', ofSource spacedJump = .ok op') ↔ ∃ op, ofSource compactJump = .ok op) ∧
      ∀ op op', ofSource compactJump = .ok op → ofSource spacedJump = .ok op' →
        op'.unlocated = op.unlocated ∧ op'.text = op.text ∧
          (op'.verify 0).kept.map Diagnostic.unlocated =
            (op.verify 0).kept.map Diagnostic.unlocated := by
  obtain ⟨ops, hr, htest⟩ := exists_readAll compactJump
    (fun ops => ((ofTopLevel ops).verify 0).kept.length == 1) (by decide +kernel)
  obtain ⟨s, hs, hwords⟩ : ∃ s, TokenStream.scan compactJump = .ok s ∧
      decide (s.tokens.map (·.lexeme) = ["\"bril.jmp\"", "(", ")", ":", "(", ")", "->", "(", ")"]) =
        true :=
    exists_ok_of_test (by decide +kernel)
  have hl : Layout (s.tokens.map (·.lexeme)) spacedJump.toList := by
    rw [of_decide_eq_true hwords]
    exact layout_spacedJump
  exact ⟨s, hs, hl, ⟨ofTopLevel ops, ofSource_ok_iff.2 ⟨ops, hr, rfl⟩, beq_iff_eq.1 htest⟩,
    ofSource_layout hs hl⟩

end BrilIR.Op
