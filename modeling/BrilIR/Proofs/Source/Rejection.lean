import BrilIR.Proofs.Diagnostic.Rendering
import BrilIR.Proofs.Lexical.Offset
import BrilIR.Proofs.Parser.Placement
import BrilIR.Source

/-!
What is shown of a source that is rejected: a line of it with the message below, unless the width of
an integer type is what is wrong.
-/

namespace BrilIR

open Token TokenStream Text

/-- A string that goes over the end of a line begins in front of the place. -/
def Text.SplitBefore (cs : List Char) (l : Location) : Prop :=
  ∃ ts l₀ body rest, Cuts .origin cs ts l₀ ('"' :: (body ++ rest)) ∧ isStringBody body = true ∧
    '\n' ∈ body ∧ l₀.Before l

theorem Text.SplitBefore.right {cs : List Char} {l : Location} (h : SplitBefore cs l) (n : Nat) :
    SplitBefore cs (l.right n) := by
  obtain ⟨ts, l₀, body, rest, hc, hb, hin, hl⟩ := h
  refine ⟨ts, l₀, body, rest, hc, hb, hin, hl.trans_upTo ?_⟩
  cases n with
  | zero => exact .inl rfl
  | succ n => exact .inr (l.before_right n.succ_ne_zero)

/-- The source has the line of the place. The column is one of the line or the one behind its end,
unless a string in front of it made the scanner miss the end of a line. -/
def Text.Covers (cs : List Char) (l : Location) : Prop :=
  ∃ line, (pieces cs)[l.line]? = some line ∧ (¬ SplitBefore cs l → l.column ≤ line.length)

namespace TokenStream

variable {l l' : Location} {cs rest : List Char} {ts : List Token}

theorem Cuts.exists_line_le (h : Cuts l cs ts l' rest) :
    ∃ before, cs = before ++ rest ∧ l'.line ≤ l.line + before.count '\n' := by
  induction h with
  | done => exact ⟨[], rfl, Nat.le_refl _⟩
  | @blank l l' c cs rest ts hb _ ih =>
    obtain ⟨before, e, hle⟩ := ih
    refine ⟨c :: before, by rw [e, List.cons_append], ?_⟩
    by_cases hc : c = '\n'
    · rw [if_pos hc] at hle
      rw [hc, List.count_cons_self]
      have hline : l.nextLine.line = l.line + 1 := rfl
      omega
    · rw [if_neg hc] at hle
      rw [List.count_cons_of_ne hc]
      exact hle
  | @comment l l' body cs rest ts _ _ _ ih =>
    obtain ⟨before, e, hle⟩ := ih
    refine ⟨"//".toList ++ body ++ before, by simp only [e, List.append_assoc], ?_⟩
    have hline : (l.right ("//".toList ++ body).length).line = l.line := rfl
    rw [List.count_append]
    omega
  | @token l l' kind w cs rest ts _ _ ih =>
    obtain ⟨before, e, hle⟩ := ih
    refine ⟨w ++ before, by rw [e, List.append_assoc], ?_⟩
    have hline : (l.right w.length).line = l.line := rfl
    rw [List.count_append]
    omega

theorem Cuts.lexeme (h : Cuts l cs ts l' rest) : ∀ t ∈ ts, Lexeme t.kind t.lexeme.toList := by
  induction h with
  | done => exact List.forall_mem_nil _
  | blank _ _ ih => exact ih
  | comment _ _ _ ih => exact ih
  | token hw _ ih =>
    refine List.forall_mem_cons.2 ⟨?_, ih⟩
    rw [String.toList_ofList]
    exact hw.lexeme

theorem Cuts.before (h : Cuts l cs ts l' rest) {t : Token} (ht : t ∈ ts) :
    t.location.Before l' :=
  (List.pairwise_append.1 h.increasing.1).2.2 _ (List.mem_map_of_mem ht) _
    (List.mem_singleton_self l')

theorem Cuts.oneLined (h : Cuts .origin cs ts l rest) (hsplit : ¬ SplitBefore cs l) :
    OneLined ts := by
  intro t ht hk hfeed
  obtain ⟨us, vs, e⟩ := List.append_of_mem ht
  obtain ⟨after, hfront⟩ := (e ▸ h).split
  obtain ⟨body, hbody, hb⟩ := hk ▸ h.lexeme t ht
  rw [hbody] at hfeed hfront
  have hin : '\n' ∈ body := by simpa using hfeed
  refine hsplit ⟨us, t.location, body, '"' :: after, ?_, hb, hin, h.before ht⟩
  simpa using hfront

theorem Cuts.covers_right {n : Nat} (h : Cuts .origin cs ts l rest)
    (hn : ¬ SplitBefore cs (l.right n) → n ≤ rest.length ∧ '\n' ∉ rest.take n) :
    Covers cs (l.right n) := by
  by_cases hsplit : SplitBefore cs (l.right n)
  · obtain ⟨before, e, hle⟩ := h.exists_line_le
    have hlt : l.line < (pieces cs).length := by
      rw [length_pieces, e, List.count_append]
      have horigin : Location.origin.line = 0 := rfl
      omega
    exact ⟨_, List.getElem?_eq_getElem hlt, fun hnot => absurd hsplit hnot⟩
  · obtain ⟨hle, htake⟩ := hn hsplit
    have horigin : Location.origin = placeBehind [] := rfl
    obtain ⟨before, e, hl⟩ :=
      h.exists_placeBehind horigin (h.oneLined fun hl => hsplit (hl.right n))
    have hplace : l.right n = placeBehind (before ++ rest.take n) := by
      rw [placeBehind_append htake, List.length_take_of_le hle, hl, List.nil_append]
    have hline := line_placeBehind (before ++ rest.take n) (rest.drop n)
    rw [List.append_assoc, List.take_append_drop, ← e, ← hplace] at hline
    refine ⟨_, hline, fun _ => ?_⟩
    rw [hplace, List.length_append, List.length_reverse]
    exact Nat.le_add_right _ _

theorem Cuts.covers_string {body more : List Char} {n : Nat}
    (h : Cuts .origin cs ts l ('"' :: (body ++ more))) (hb : isStringBody body = true)
    (hle : body.length ≤ n) (hn : n ≤ body.length + 1) : Covers cs (l.right n) := by
  refine h.covers_right fun hsplit => ?_
  have hnot : '\n' ∉ body := by
    intro hin
    have hne : n ≠ 0 := by
      have hpos := List.length_pos_of_mem hin
      omega
    exact hsplit ⟨ts, l, body, more, h, hb, hin, l.before_right hne⟩
  constructor
  · rw [List.length_cons, List.length_append]
    omega
  · rw [← List.cons_append, List.take_append_of_le_length hn]
    intro hmem
    have hmem := List.mem_of_mem_take hmem
    simp [hnot] at hmem

theorem covers_of_mem {source : String} {s : TokenStream} {t : Token} (h : scan source = .ok s)
    (ht : t ∈ s.toList) : Covers source.toList t.location := by
  have hcuts := scan_eq_ok_iff.1 h
  cases List.mem_append.1 ht with
  | inl ht =>
    obtain ⟨us, vs, e⟩ := List.append_of_mem ht
    rw [e] at hcuts
    obtain ⟨after, hfront⟩ := hcuts.split
    exact hfront.covers_right (n := 0) fun _ => ⟨Nat.zero_le _, List.not_mem_nil⟩
  | inr ht =>
    rw [List.mem_singleton.1 ht]
    exact hcuts.covers_right (n := 0) fun _ => ⟨Nat.zero_le _, List.not_mem_nil⟩

theorem covers_of_error {source : String} {e : LexError} (h : scan source = .error e) :
    Covers source.toList e.location := by
  obtain ⟨ts, l, rest, f, n, hc, -, hf, rfl⟩ := scan_eq_error_iff.1 h
  cases hf with
  | unexpected _ _ => exact hc.covers_right fun _ => ⟨Nat.zero_le _, List.not_mem_nil⟩
  | bareSigil _ => exact hc.covers_right fun _ => ⟨Nat.zero_le _, List.not_mem_nil⟩
  | string hu =>
    cases hu with
    | feed hb _ => exact hc.covers_string hb (Nat.le_refl _) (Nat.le_succ _)
    | escape hb => exact hc.covers_string hb (Nat.le_succ _) (Nat.le_refl _)

end TokenStream

namespace SourceError

def message : SourceError → String
  | lexical e => e.fault.message
  | grammatical e => e.cause.message

/-- The message is shown below the line of a place of the source. -/
def Shown (source : String) (e : SourceError) : Prop :=
  ∃ l before after, Covers source.toList l ∧
    e.render source = before ++ snippet source l e.message ++ after

theorem shown_of_framed {source : String} {e : ParseError} {l : Location}
    (hl : e.location = some l) (hc : Covers source.toList l) : (grammatical e).Shown source := by
  refine ⟨l, "\n\n", "\n", hc, ?_⟩
  simp only [render, ParseError.render, ParseError.renderAs, hl, ParseError.framed, message]

theorem shown_of_lexical {source : String} {e : LexError} (hc : Covers source.toList e.location) :
    (lexical e).Shown source := by
  refine ⟨e.location, "", "", hc, ?_⟩
  simp [render, LexError.render, message]

theorem Shown.fence_mem {source : String} {e : SourceError} (h : e.Shown source) :
    '`' ∈ (e.render source).toList := by
  obtain ⟨l, before, after, -, e⟩ := h
  obtain ⟨above, hsnippet⟩ := exists_snippetOf_eq (pieces source.toList) l _
  rw [e, snippet, hsnippet]
  simp

end SourceError

/-- What is wrong with an integer type is said without a fence. -/
theorem Ty.fence_notMem_of_intOfText {w : String} {e : TyTextError} (hw : Lexeme .intType w.toList)
    (h : intOfText w = .error e) : '`' ∉ e.message.toList := by
  obtain ⟨ds, hds, hdigits⟩ := lexeme_intType_iff.1 hw
  have hfence : '`' ∉ w.toList := by
    have hnot : '`' ∉ ds := fun hmem => absurd (hdigits.2 _ hmem) (by decide)
    simp [hds, hnot]
  unfold intOfText at h
  simp only [hds] at h
  split at h
  · next n hn =>
    cases h
    cases n <;> decide
  · cases h
    have e : (TyTextError.zeroWidth w).message = "Integer type must have a width, got " ++ w := rfl
    have hfront : '`' ∉ "Integer type must have a width, got ".toList := by decide +kernel
    rw [e, String.toList_append]
    exact fun hmem => (List.mem_append.1 hmem).elim hfront hfence
  · cases h

namespace Op

theorem ofSource_error_iff {source : String} {e : SourceError} : ofSource source = .error e ↔
    (∃ e', TokenStream.scan source = .error e' ∧ e = .lexical e') ∨
      ∃ s e' q, TokenStream.scan source = .ok s ∧ parseAll (.ofTokens s) = .error e' q ∧
        e = .grammatical e' := by
  unfold ofSource readAll
  cases TokenStream.scan source with
  | error e' => simp [Except.map, eq_comm]
  | ok s =>
    cases h : parseAll (.ofTokens s) with
    | ok ops q => simp [Except.map, h]
    | error e' q => simp [Except.map, h, eq_comm]

theorem ofSource_eq_error_of_test {source : String} {e : SourceError}
    (h : (match ofSource source with
      | .error e' => decide (e' = e)
      | .ok _ => false) = true) : ofSource source = .error e := by
  cases hs : ofSource source with
  | error e' =>
    rw [hs] at h
    rw [of_decide_eq_true h]
  | ok ops =>
    rw [hs] at h
    cases h

theorem ofSource_error_cases {source : String} {e : SourceError}
    (h : ofSource source = .error e) :
    (e.Shown source ∧ ∀ err, e ≠ .grammatical ⟨.typeText err, none⟩) ∨
      ∃ err s t, e = .grammatical ⟨.typeText err, none⟩ ∧ TokenStream.scan source = .ok s ∧
        t ∈ s.tokens ∧ t.kind = .intType ∧ Ty.intOfText t.lexeme = .error err := by
  obtain ⟨e', hs, rfl⟩ | ⟨s, e', q, hs, hp, rfl⟩ := ofSource_error_iff.1 h
  · exact .inl ⟨SourceError.shown_of_lexical (covers_of_error hs), fun err he => by cases he⟩
  · cases placed_of_parseAll (lexeme_of_scan hs) hp with
    | @token cause t ht =>
      exact .inl ⟨SourceError.shown_of_framed rfl (covers_of_mem hs ht), fun err he => by cases he⟩
    | @typeText t err ht hk he => exact .inr ⟨err, s, t, rfl, hs, ht, hk, he⟩

/-- A source that is rejected is shown with the message below one of its lines unless the text of an
integer type is what is wrong, which is told with nothing else. -/
theorem ofSource_error_shown_iff {source : String} {e : SourceError}
    (h : ofSource source = .error e) :
    (e.Shown source ↔ ¬ ∃ err, e = .grammatical ⟨.typeText err, none⟩) ∧
      ∀ err, e = .grammatical ⟨.typeText err, none⟩ → e.render source = err.message ∧
        ∃ s t, TokenStream.scan source = .ok s ∧ t ∈ s.tokens ∧ t.kind = .intType ∧
          Ty.intOfText t.lexeme = .error err := by
  obtain ⟨hshown, hne⟩ | ⟨err, s, t, rfl, hs, ht, hk, herr⟩ := ofSource_error_cases h
  · exact ⟨⟨fun _ hw => hw.elim hne, fun _ => hshown⟩, fun err he => absurd he (hne err)⟩
  · have hw : Lexeme .intType t.lexeme.toList := hk ▸ lexeme_of_scan hs t ht
    refine ⟨⟨fun hshown => ?_, fun hnot => absurd ⟨err, rfl⟩ hnot⟩, fun err' he => ?_⟩
    · exact absurd hshown.fence_mem (Ty.fence_notMem_of_intOfText hw herr)
    · cases he
      exact ⟨rfl, s, t, hs, ht, hk, herr⟩

def strayValue : String := "func.func @f() \x7b\n  return %a : i64\n\x7d"

theorem ofSource_error_shown_strayValue :
    ofSource strayValue = .error (.grammatical ⟨.undeclaredValue "%a", some ⟨1, 9⟩⟩) ∧
      SourceError.Shown strayValue (.grammatical ⟨.undeclaredValue "%a", some ⟨1, 9⟩⟩) := by
  have h : ofSource strayValue = .error (.grammatical ⟨.undeclaredValue "%a", some ⟨1, 9⟩⟩) :=
    ofSource_eq_error_of_test (by decide +kernel)
  refine ⟨h, (ofSource_error_shown_iff h).1.2 fun hw => ?_⟩
  obtain ⟨err, he⟩ := hw
  cases he

def noWidth : String := "func.func @f(%a : i0)"

theorem not_shown_noWidth :
    ofSource noWidth = .error (.grammatical ⟨.typeText (.zeroWidth "i0"), none⟩) ∧
      ¬ SourceError.Shown noWidth (.grammatical ⟨.typeText (.zeroWidth "i0"), none⟩) := by
  refine ⟨ofSource_eq_error_of_test (by decide +kernel), fun hshown => ?_⟩
  have hfence : '`' ∉ (TyTextError.zeroWidth "i0").message.toList := by decide +kernel
  exact hfence hshown.fence_mem

end Op

end BrilIR
