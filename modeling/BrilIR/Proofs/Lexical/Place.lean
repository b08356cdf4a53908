import BrilIR.Proofs.Lexical.Tokenization

/-!
Where tokens stand. The scanner counts lines and columns on its own; as long as no string goes over
the end of a line, they are those of the text in front of the token.
-/

namespace BrilIR

/-- The place behind a text that begins at the origin: the line feeds in it, and the characters
behind the last of them. -/
def Text.placeBehind (before : List Char) : Location :=
  ⟨before.count '\n', (before.reverse.takeWhile (· ≠ '\n')).length⟩

namespace Text

variable {before cs : List Char}

theorem placeBehind_feed : placeBehind (before ++ ['\n']) = (placeBehind before).nextLine := by
  simp [placeBehind, Location.nextLine]

theorem placeBehind_append (h : '\n' ∉ cs) :
    placeBehind (before ++ cs) = (placeBehind before).right cs.length := by
  have hcs : ∀ c ∈ cs.reverse, decide (c ≠ '\n') = true := by
    intro c hc
    have hne : c ≠ '\n' := fun e => h (e ▸ List.mem_reverse.1 hc)
    exact decide_eq_true hne
  simp only [placeBehind, Location.right, List.count_append, List.count_eq_zero_of_not_mem h,
    Nat.add_zero, List.reverse_append, List.takeWhile_append_of_pos hcs, List.length_append,
    List.length_reverse, Nat.add_comm]

end Text

namespace Token

theorem feed_notMem_of_digits {ds : List Char} (h : ∀ c ∈ ds, c.isDigit = true) : '\n' ∉ ds :=
  fun hm => absurd (h _ hm) (by decide)

theorem feed_notMem_of_identifierChars {cs : List Char}
    (h : ∀ c ∈ cs, isIdentifierChar c = true) : '\n' ∉ cs :=
  fun hm => absurd (h _ hm) (by decide)

theorem FloatText.feed_notMem {w : List Char} (h : FloatText w) : '\n' ∉ w := by
  obtain ⟨whole, fraction, exponent, rfl, hw, hf, he, -⟩ := h
  have hfraction : '\n' ∉ fraction := by
    cases hf with
    | inl hf => simp [hf]
    | inr hf =>
      obtain ⟨ds, rfl, hd⟩ := hf
      simp [feed_notMem_of_digits hd.2]
  have hexponent : '\n' ∉ exponent := by
    cases he with
    | inl he => simp [he]
    | inr he =>
      obtain ⟨c, sign, ds, rfl, hc, hsign, hd⟩ := he
      have hds := feed_notMem_of_digits hd.2
      obtain rfl | rfl := hc <;> obtain rfl | rfl | rfl := hsign <;> simp [hds]
  simp [feed_notMem_of_digits hw.2, hfraction, hexponent]

/-- Only strings can go on behind the end of a line. -/
theorem Lexeme.feed_notMem {kind : Kind} {w : List Char} (h : Lexeme kind w)
    (hk : kind ≠ .string) : '\n' ∉ w := by
  cases h.shape with
  | @mark _ c hm =>
    intro hmem
    cases List.mem_singleton.1 hmem
    cases hm
  | @sigil _ c body hs _ hb =>
    intro hmem
    cases List.mem_cons.1 hmem with
    | inl e =>
      cases e
      cases hs
    | inr hmem => exact feed_notMem_of_identifierChars hb hmem
  | @word c cs hc hcs =>
    intro hmem
    cases List.mem_cons.1 hmem with
    | inl e =>
      cases e
      exact absurd hc (by decide)
    | inr hmem => exact feed_notMem_of_identifierChars hcs hmem
  | integer hw => exact feed_notMem_of_digits hw.2
  | float hw => exact hw.feed_notMem
  | string _ => exact absurd rfl hk
  | minus => decide
  | arrow => decide

end Token

namespace TokenStream

open Token Text

variable {l l' : Location} {cs rest : List Char} {us ts : List Token}

def OneLined (ts : List Token) : Prop := ∀ t ∈ ts, t.kind = .string → '\n' ∉ t.lexeme.toList

theorem Cuts.split {t : Token} (h : Cuts l cs (us ++ t :: ts) l' rest) :
    ∃ after, Cuts l cs us t.location (t.lexeme.toList ++ after) := by
  generalize hall : us ++ t :: ts = all at h
  induction h generalizing us with
  | done => simp at hall
  | blank hb _ ih =>
    obtain ⟨after, hc⟩ := ih hall
    exact ⟨after, .blank hb hc⟩
  | comment hb hend _ ih =>
    obtain ⟨after, hc⟩ := ih hall
    exact ⟨after, .comment hb hend hc⟩
  | @token l l' kind w cs rest ts' hw _ ih =>
    cases us with
    | nil =>
      cases hall
      refine ⟨cs, ?_⟩
      rw [String.toList_ofList]
      exact .done
    | cons u us =>
      cases hall
      obtain ⟨after, hc⟩ := ih rfl
      exact ⟨after, .token hw hc⟩

theorem Cuts.exists_placeBehind {front : List Char} (h : Cuts l cs ts l' rest)
    (hl : l = placeBehind front) (hs : OneLined ts) :
    ∃ before, cs = before ++ rest ∧ l' = placeBehind (front ++ before) := by
  induction h generalizing front with
  | done => exact ⟨[], rfl, by rw [hl, List.append_nil]⟩
  | @blank l l' c cs rest ts hb _ ih =>
    have hplace : (if c = '\n' then l.nextLine else l.right 1) = placeBehind (front ++ [c]) := by
      by_cases hc : c = '\n'
      · rw [if_pos hc, hc, placeBehind_feed, hl]
      · have hne : '\n' ∉ [c] := fun hm => hc (List.mem_singleton.1 hm).symm
        rw [if_neg hc, placeBehind_append hne, hl]
        rfl
    obtain ⟨before, e, e'⟩ := ih hplace hs
    refine ⟨c :: before, by rw [e, List.cons_append], ?_⟩
    rw [e', List.append_assoc, List.singleton_append]
  | @comment l l' body cs rest ts hb hend _ ih =>
    have hfeed : '\n' ∉ "//".toList ++ body := by simp [hb]
    have hplace : l.right ("//".toList ++ body).length =
        placeBehind (front ++ ("//".toList ++ body)) := by
      rw [placeBehind_append hfeed, hl]
    obtain ⟨before, e, e'⟩ := ih hplace hs
    refine ⟨"//".toList ++ body ++ before, ?_, ?_⟩
    · rw [e]
      simp only [List.append_assoc]
    · rw [e', List.append_assoc]
  | @token l l' kind w cs rest ts hw _ ih =>
    obtain ⟨hstring, hrest⟩ := List.forall_mem_cons.1 hs
    have hfeed : '\n' ∉ w := by
      by_cases hk : kind = .string
      · have hstring := hstring hk
        rwa [String.toList_ofList] at hstring
      · exact hw.lexeme.feed_notMem hk
    have hplace : l.right w.length = placeBehind (front ++ w) := by
      rw [placeBehind_append hfeed, hl]
    obtain ⟨before, e, e'⟩ := ih hplace hrest
    refine ⟨w ++ before, by rw [e, List.append_assoc], ?_⟩
    rw [e', List.append_assoc]

theorem exists_head {source : String} {s : TokenStream} {t : Token} (h : scan source = .ok s)
    (hs : OneLined s.tokens) (ht : t ∈ s.tokens) :
    ∃ c, t.lexeme.toList.head? = some c ∧ c ≠ '\n' := by
  have hlexeme := lexeme_of_scan h t ht
  obtain ⟨c, cs, hc⟩ := List.exists_cons_of_ne_nil hlexeme.ne_nil
  have hfeed : '\n' ∉ t.lexeme.toList := by
    by_cases hk : t.kind = .string
    · exact hs t ht hk
    · exact hlexeme.feed_notMem hk
  rw [hc] at hfeed ⊢
  exact ⟨c, rfl, fun e => hfeed (e ▸ List.mem_cons_self)⟩

/-- A token of a source stands where the text in front of it ends, and that text is cut into the
tokens in front of it. -/
theorem exists_before {source : String} {s : TokenStream} {t : Token}
    (h : scan source = .ok s) (hs : OneLined s.tokens) (e : s.tokens = us ++ t :: ts) :
    ∃ before after, source.toList = before ++ (t.lexeme.toList ++ after) ∧
      Cuts .origin source.toList us t.location (t.lexeme.toList ++ after) ∧
      t.location = placeBehind before := by
  have hc := scan_eq_ok_iff.1 h
  rw [e] at hc hs
  obtain ⟨after, hcut⟩ := hc.split
  have hus : OneLined us := fun u hu => hs u (List.mem_append_left _ hu)
  have horigin : Location.origin = placeBehind [] := rfl
  obtain ⟨before, hb, hl⟩ := hcut.exists_placeBehind horigin hus
  exact ⟨before, after, hb, hcut, hl⟩

end TokenStream

end BrilIR
