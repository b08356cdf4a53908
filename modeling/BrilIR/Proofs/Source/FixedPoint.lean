import BrilIR.Proofs.Source.RoundTrip
import BrilIR.Proofs.Verify.Limit
import BrilIR.Proofs.Verify.Unlocated

/-! The text of what was read is read as the same again, and formatting twice is formatting once. -/

namespace BrilIR

open Token BrilIR.Parser

/-- No string that is the value of an attribute ends in two quotes, unless it is empty. In a source
that can be read such values are the strings behind a key and an equals sign. -/
def TokenStream.QuotesApart (s : TokenStream) : Prop :=
  ∀ key eq t rest, key :: eq :: t :: rest <:+ s.tokens → key.kind = .bareIdentifier →
    eq.kind = .equal → t.kind = .string → t.lexeme = "\"\"" ∨ ¬ ['"', '"'] <:+ t.lexeme.toList

namespace Op

theorem clean_of_scan {source : String} {s : TokenStream} (hs : TokenStream.scan source = .ok s)
    (hq : s.QuotesApart) : Clean s.tokens :=
  ⟨TokenStream.lexeme_of_scan hs, hq⟩

/-- What was read has the text and the findings of a tree that can be read from its text. -/
theorem exists_regular_of_readAll {source : String} {s : TokenStream} {ops : List Op}
    (hs : TokenStream.scan source = .ok s) (h : readAll source = .ok ops) (hq : s.QuotesApart)
    (hf : ∀ p ∈ (ofTopLevel ops).preorder 0, p.2.Bounded)
    (ht : (∃ t : Op, ops = [t] ∧ t.kind = .moduleOp) ∨ ∀ op ∈ ops, op.operation.successors = []) :
    ∃ t : Op, t.kind = .moduleOp ∧ t.Regular [[]] ∧ t.ReturnsApart ∧
      t.text = (ofTopLevel ops).text ∧ t.findings = (ofTopLevel ops).findings := by
  have ha := returnsApart_ofTopLevel h
  obtain ⟨s', hs', hd⟩ := readAll_ok_iff.1 h
  cases hs.symm.trans hs'
  have hc := clean_of_scan hs hq
  rcases ofTopLevel_cases ops with ⟨t, rfl, hm⟩ | ⟨hnot, e⟩
  · rw [ofTopLevel_of_module hm] at ha hf ⊢
    obtain ⟨-, mid, hd, -⟩ := hd
    exact ⟨t, hm, hd.regular ⟨rfl, fun _ => rfl⟩ hc hf, ha, rfl, rfl⟩
  · cases ops with
    | nil =>
      -- a module without blocks has the text of a module with an empty block
      refine ⟨.mk .moduleOp { name := "module" } (some []), rfl, ?_, trivial, rfl, rfl⟩
      simp only [Op.Regular, Region.Regular]
      exact ⟨OpKind.regular_module none, .of_no_values rfl rfl rfl, trivial,
        ⟨List.nodup_nil, by simp [Region.ops]⟩, trivial⟩
    | cons op ops =>
      rw [e] at ha hf ⊢
      have hsucc := ht.resolve_left hnot
      have hf' : ∀ p ∈ Block.preorder 1 (op :: ops), p.2.Bounded := by
        simp only [moduleOf, ofOperation, Op.preorder, Region.preorder, List.forall_mem_cons,
          List.append_nil] at hf
        exact hf.2
      exact ⟨_, rfl, regular_moduleOf (by simp) (hd.block.regular ⟨rfl, fun _ => rfl⟩ hc hf') hsucc,
        ha, rfl, rfl⟩

end Op

namespace VerifyOptions

variable {o : VerifyOptions} {source p : String} {op op' : Op}

/-- Formatting leaves a text as it is that is read as an op of this text, with as many faults. -/
theorem format_text (h : Op.ofSource source = .ok op) (hf : o.format source = .ok p)
    (h' : Op.ofSource op.text = .ok op') (ht : op'.text = op.text)
    (hd : op'.findings.map Diagnostic.unlocated = op.findings.map .unlocated) :
    o.format p = .ok p := by
  have sound : (op.verify o.maxDiagnostics).kept = [] ↔
      (op'.verify o.maxDiagnostics).kept = [] := by
    rw [Op.kept_verify, Op.kept_verify, Diagnostics.upTo_eq_nil_iff, Diagnostics.upTo_eq_nil_iff,
      ← List.map_eq_nil_iff, ← hd, List.map_eq_nil_iff]
  obtain ⟨rfl, hv⟩ := (format_ok_iff h).1 hf
  exact (format_ok_iff h').2 ⟨ht, fun hverify => sound.1 (hv hverify)⟩

end VerifyOptions

namespace Op

/-- The text of what was read is read as the same again. -/
theorem text_fixed_point {source : String} {s : TokenStream} {ops : List Op}
    (hs : TokenStream.scan source = .ok s) (h : readAll source = .ok ops) (hq : s.QuotesApart)
    (hf : ∀ p ∈ (ofTopLevel ops).preorder 0, p.2.Bounded)
    (ht : (∃ t : Op, ops = [t] ∧ t.kind = .moduleOp) ∨ ∀ op ∈ ops, op.operation.successors = []) :
    (∃ op, ofSource (ofTopLevel ops).text = .ok op ∧ op.text = (ofTopLevel ops).text ∧
        (op.verify 0).kept.map Diagnostic.unlocated =
          ((ofTopLevel ops).verify 0).kept.map .unlocated) ∧
      ∀ (o : VerifyOptions) (p : String), o.format source = .ok p → o.format p = .ok p := by
  obtain ⟨t, hm, hr, ha, et, ef⟩ := exists_regular_of_readAll hs h hq hf ht
  obtain ⟨op, ho, e⟩ := exists_ofSource_text hm hr ha
  have htext : op.text = (ofTopLevel ops).text := (text_eq_of_unlocated e).trans et
  have hfound : op.findings.map Diagnostic.unlocated =
      (ofTopLevel ops).findings.map .unlocated := by
    rw [findings_of_unlocated e, ef]
  rw [et] at ho
  refine ⟨⟨op, ho, htext, ?_⟩, fun o p hp => ?_⟩
  · simpa only [kept_verify, Diagnostics.upTo, if_true] using hfound
  · exact VerifyOptions.format_text (ofSource_ok_iff.2 ⟨ops, h, rfl⟩) hp ho htext hfound

theorem exists_scan {source : String} {ops : List Op} (h : readAll source = .ok ops)
    (test : Token → Bool) (ht : (match TokenStream.scan source with
      | .ok s => s.tokens.all test
      | .error _ => false) = true) :
    ∃ s, TokenStream.scan source = .ok s ∧ ∀ t ∈ s.tokens, test t = true := by
  obtain ⟨s, hs, -⟩ := readAll_ok_iff.1 h
  rw [hs] at ht
  exact ⟨s, hs, List.all_eq_true.1 ht⟩

def untidy : String :=
  "func.func @f() -> () \x7b %a = \"bril.const\"() \x7bvalue = -07 : i064, note = \"\",\x7d\n" ++
    " : () -> (i64) return \x7d"

theorem text_fixed_point_untidy : ∃ ops, readAll untidy = .ok ops ∧
    (∃ op, ofSource (ofTopLevel ops).text = .ok op ∧ op.text = (ofTopLevel ops).text ∧
        (op.verify 0).kept.map Diagnostic.unlocated =
          ((ofTopLevel ops).verify 0).kept.map .unlocated) ∧
      ∀ (o : VerifyOptions) (p : String), o.format untidy = .ok p → o.format p = .ok p := by
  obtain ⟨ops, h, htest⟩ := exists_readAll untidy (fun ops =>
    decide (∀ p ∈ (ofTopLevel ops).preorder 0, p.2.Bounded) &&
      decide (∀ op ∈ ops, op.operation.successors = [])) (by decide +kernel)
  obtain ⟨s, hs, hquotes⟩ := exists_scan h (fun t =>
    decide (t.kind = .string → t.lexeme = "\"\"" ∨ ¬ ['"', '"'] <:+ t.lexeme.toList))
    (by decide +kernel)
  rw [Bool.and_eq_true, decide_eq_true_iff, decide_eq_true_iff] at htest
  have hq : s.QuotesApart := fun key eq t rest hsuffix _ _ hk =>
    of_decide_eq_true (hquotes t (hsuffix.subset (by simp))) hk
  exact ⟨ops, h, text_fixed_point hs h hq htest.1 (.inr htest.2)⟩

end Op

end BrilIR
