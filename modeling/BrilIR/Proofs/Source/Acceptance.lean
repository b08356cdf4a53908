import BrilIR.Proofs.Grammar.TreeRecognition
import BrilIR.Proofs.Source.Reading

/-! Which sources are accepted: those whose tokens are in the grammar and meet its conditions. -/

namespace BrilIR.Op

open Token

/-- Ops are read from a source exactly if its tokens are in their language, all names and labels
fit, and no name behind a `return` is taken for a returned value. -/
theorem readAll_ok_iff_tokens {source : String} {ops : List Op} : readAll source = .ok ops ↔
    ∃ s, TokenStream.scan source = .ok s ∧ s.tokens ∈ Block.tokens ops ∧ Block.Fits [[]] ops ∧
      Block.ReturnsApart ops := by
  rw [readAll_ok_iff]
  constructor
  · intro h
    obtain ⟨s, hs, hd⟩ := h
    have hl : Lexical s.tokens := TokenStream.lexeme_of_scan hs
    exact ⟨s, hs, (deriveAll_iff_tokens hl).1 hd⟩
  · intro h
    obtain ⟨s, hs, ht⟩ := h
    have hl : Lexical s.tokens := TokenStream.lexeme_of_scan hs
    exact ⟨s, hs, (deriveAll_iff_tokens hl).2 ht⟩

/-- A source is accepted as a tree exactly if its tokens are in the language of the ops of the tree,
all names and labels fit, and no name behind a `return` is taken for a returned value. The types
that are written are those of the values in the tree, and each float literal stands for a number, so
nothing else is asked of the tokens. -/
theorem ofSource_ok_iff_grammar (source : String) :
    (∀ op, ofSource source = .ok op ↔ ∃ s ops, TokenStream.scan source = .ok s ∧
      s.tokens ∈ Block.tokens ops ∧ Block.Fits [[]] ops ∧ Block.ReturnsApart ops ∧
      op = ofTopLevel ops) ∧
    ∀ s, TokenStream.scan source = .ok s → ∀ t ∈ s.tokens, t.kind = .floatLiteral →
      ∀ negative, ∃ x, Binary64.read? (signedLexeme negative t) = some x := by
  constructor
  · intro op
    constructor
    · intro h
      obtain ⟨ops, hr, e⟩ := ofSource_ok_iff.1 h
      obtain ⟨s, hs, ht, hf, ha⟩ := readAll_ok_iff_tokens.1 hr
      exact ⟨s, ops, hs, ht, hf, ha, e⟩
    · intro h
      obtain ⟨s, ops, hs, ht, hf, ha, e⟩ := h
      exact ofSource_ok_iff.2 ⟨ops, readAll_ok_iff_tokens.2 ⟨s, hs, ht, hf, ha⟩, e⟩
  · intro s hs t ht hk negative
    have hw := TokenStream.lexeme_of_scan hs t ht
    rw [hk] at hw
    exact Binary64.exists_read? negative hw

end BrilIR.Op
