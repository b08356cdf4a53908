import BrilIR.Proofs.Lexical.Tokenization
import BrilIR.Proofs.Parser.Cursor
import BrilIR.Proofs.Printing.Accepted

/-!
Which attributes survive being written and read again. An attribute that was read does unless it is
infinite or a string with one more quote at its end, since all quotes there are trimmed.
-/

namespace BrilIR

open Token BrilIR.Parser TokenStream

/-- The quote that closes a string is the only one at its end. -/
def ClosedOnce (w : String) : Prop := w = "\"\"" ∨ ¬ ['"', '"'] <:+ w.toList

theorem isStringBody_quotes (cs : List Char) : isStringBody (cs ++ ['"', '"']) = false := by
  induction cs using isStringBody.induct with
  | case1 => rfl
  | case2 c cs hc =>
    cases hb : isStringBody (c :: cs ++ ['"', '"']) with
    | false => rfl
    | true =>
      obtain ⟨hq, hn⟩ := isStringBody_head hb
      exact absurd hc (by simp [hq, hn])
  | case3 => rfl
  | case4 d cs _ ih => rw [List.cons_append, List.cons_append, isStringBody_escape, ih]
  | case5 c cs hc hb ih =>
    obtain ⟨hq, hn⟩ := not_or.1 hc
    rw [List.cons_append, isStringBody_plain hq hn hb, ih]

theorem trimQuotes_two {s : String} (hne : s.toList ≠ []) (hs : s.toList.head? ≠ some '"')
    (hl : s.toList.getLast? ≠ some '"') : trimQuotes ("\"" ++ s ++ "\"\"") = s := by
  have e : ("\"" ++ s ++ "\"\"").toList = '"' :: (s.toList ++ ['"', '"']) := by simp
  rw [trimQuotes, e]
  cases h : s.toList with
  | nil => exact absurd h hne
  | cons c cs =>
    have hc : c ≠ '"' := fun e => hs (by rw [h, e, List.head?_cons])
    have hlast : (c :: cs).reverse.head? ≠ some '"' := by
      rw [List.head?_reverse, ← h]
      exact hl
    have hquotes : (c :: cs ++ ['"', '"']).reverse = '"' :: '"' :: (c :: cs).reverse := by simp
    rw [List.dropWhile_cons_of_pos (by simp), List.cons_append,
      List.dropWhile_cons_of_neg (by simpa using hc), ← List.cons_append, hquotes,
      List.dropWhile_cons_of_pos (by simp), List.dropWhile_cons_of_pos (by simp)]
    cases hr : (c :: cs).reverse with
    | nil => simp at hr
    | cons d ds =>
      rw [hr] at hlast
      rw [List.dropWhile_cons_of_neg (by simpa using hlast), ← hr, List.reverse_reverse, ← h,
        String.ofList_toList]

theorem eq_trimQuotes_of_closedOnce {w : String} (h : Lexeme .string w.toList)
    (hw : ClosedOnce w) : w = "\"" ++ trimQuotes w ++ "\"" := by
  obtain ⟨s, hs, e⟩ := exists_content h hw
  rw [e, hs.trimQuotes]

theorem exists_content_of_not_closedOnce {w : String} {body : List Char}
    (e : w.toList = '"' :: (body ++ ['"'])) (hw : ¬ ClosedOnce w) :
    ∃ content, body = content ++ ['"'] := by
  obtain ⟨hne, hend⟩ := not_or.1 hw
  obtain ⟨before, hbefore⟩ := Classical.not_not.1 hend
  have hcons : before ++ ['"'] = '"' :: body := by
    have happend : (before ++ ['"']) ++ ['"'] = ('"' :: body) ++ ['"'] := by
      rw [List.append_assoc]
      exact hbefore.trans e
    exact List.append_cancel_right happend
  cases before with
  | nil =>
    have hbody : body = [] := (List.cons.inj hcons).2.symm
    refine absurd ?_ hne
    rw [← String.toList_inj, e, hbody]
    rfl
  | cons c content => exact ⟨content, (List.cons.inj hcons).2.symm⟩

/-- If one more quote stands at the end, a backslash in front of it takes the place of what closes
the string. -/
theorem eq_trimQuotes_of_not_closedOnce {w : String} (h : Lexeme .string w.toList)
    (hw : ¬ ClosedOnce w) : w = "\"" ++ trimQuotes w ++ "\"\"" := by
  obtain ⟨body, e, hb⟩ := h
  obtain ⟨content, rfl⟩ := exists_content_of_not_closedOnce e hw
  have hw' : w = "\"" ++ String.ofList content ++ "\"\"" := by
    rw [← String.toList_inj, e]
    simp
  rw [hw', trimQuotes_two]
  · rw [String.toList_ofList]
    intro hnil
    rw [hnil] at hb
    cases hb
  · rw [String.toList_ofList]
    intro hhead
    obtain ⟨rest, rfl⟩ := List.head?_eq_some_iff.1 hhead
    exact (isStringBody_head hb).1 rfl
  · rw [String.toList_ofList]
    intro hl
    obtain ⟨rest, rfl⟩ := List.getLast?_eq_some_iff.1 hl
    rw [List.append_assoc] at hb
    exact absurd hb (by rw [List.singleton_append, isStringBody_quotes]; simp)

namespace Attribute

/-- The text of the attribute is cut into tokens that are read, up to the last one, as an equal
attribute. -/
def Survives (a : Attribute) : Prop :=
  ∃ s b q, scan a.text = .ok s ∧ parse (.ofTokens s) = .ok b q ∧ q.isAtEnd = true ∧
    b.equal a = true

/-- The text of the attribute is cut into tokens that are read, up to the last one, as some
attribute. -/
def Reparses (a : Attribute) : Prop :=
  ∃ s b q, scan a.text = .ok s ∧ parse (.ofTokens s) = .ok b q ∧ q.isAtEnd = true

theorem Survives.reparses {a : Attribute} (h : a.Survives) : a.Reparses := by
  obtain ⟨s, b, q, hs, hb, hend, -⟩ := h
  exact ⟨s, b, q, hs, hb, hend⟩

theorem equal_self {a : Attribute} (h : a.Regular) : a.equal a = true := by
  cases a with
  | float x t =>
    have hx : x.code < Binary64.infinityCode := h.1
    have hnan : x.isNaN = false := decide_eq_false (Nat.not_lt_of_gt hx)
    simp [equal, Binary64.equal, hnan]
  | _ => simp [equal]

theorem exists_parse_text {a : Attribute} (h : a.Regular) : ∃ s q, scan a.text = .ok s ∧
    parse (.ofTokens s) = .ok a q ∧ q.isAtEnd = true := by
  obtain ⟨s, hs, hts⟩ := (writes_text h).exists_scan (by simp [Boundary])
  obtain ⟨q, hq, -, hend⟩ := denotes_parse.exists_ok (s := .ofTokens s) ⟨rfl, hts⟩
  exact ⟨s, q, hs, hq, List.isEmpty_iff.2 hend⟩

theorem survives_of_regular {a : Attribute} (h : a.Regular) : a.Survives := by
  obtain ⟨s, q, hs, hq, hend⟩ := exists_parse_text h
  exact ⟨s, a, q, hs, hq, hend, equal_self h⟩

theorem not_reparses_of_not_closedOnce {w : String} (h : Lexeme .string w.toList)
    (hw : ¬ ClosedOnce w) : ¬ (string (trimQuotes w)).Reparses := by
  intro hs
  obtain ⟨s, b, q, hs, -⟩ := hs
  obtain ⟨body, e, hb⟩ := id h
  have hcontent : (trimQuotes w).toList ++ ['"'] = body := by
    have hw' := congrArg String.toList (eq_trimQuotes_of_not_closedOnce h hw)
    rw [e] at hw'
    have hw' : '"' :: (body ++ ['"']) = '"' :: (((trimQuotes w).toList ++ ['"']) ++ ['"']) := by
      simpa using hw'
    exact (List.append_cancel_right (List.cons.inj hw').2).symm
  have htext : (string (trimQuotes w)).text.toList = '"' :: body := by
    rw [← hcontent]
    simp [text]
  have hfront : front '"' body = .fault .unterminatedString body.length := by
    have hu : Unclosed (body ++ []) .unterminatedString body.length := .feed hb (by simp)
    rw [List.append_nil] at hu
    rw [front_quote, hu.stringFront_eq]
  rw [scan, htext, scanFrom, hfront] at hs
  cases hs

theorem not_survives_of_not_closedOnce {w : String} (h : Lexeme .string w.toList)
    (hw : ¬ ClosedOnce w) : ¬ (string (trimQuotes w)).Survives :=
  fun hs => not_reparses_of_not_closedOnce h hw hs.reparses

theorem exists_tokens_of_scanFrom {kind : Kind} {w : String} {rest : List Char} {l : Location}
    {s : TokenStream} (hw : Lexeme kind w.toList) (hr : Apart kind rest)
    (h : scanFrom 0 l (w.toList ++ rest) = .ok s) :
    ∃ l' s', scanFrom 0 l' rest = .ok s' ∧ s.tokens = ⟨kind, w, l⟩ :: s'.tokens := by
  obtain ⟨l', e⟩ := scanFrom_lexeme l hw hr
  rw [h] at e
  cases hs : scanFrom 0 l' rest with
  | error f =>
    rw [hs] at e
    cases e
  | ok s' =>
    rw [hs] at e
    cases e
    exact ⟨l', s', hs, rfl⟩

theorem lexeme_inf : Lexeme .bareIdentifier "inf".toList :=
  ⟨'i', ['n', 'f'], rfl, by decide, List.all_eq_true.1 (by decide), by decide⟩

theorem text_of_isInfinite {x : Binary64} (h : x.isInfinite = true) (t : Ty) :
    (float x t).text.toList = (if x.negative then "-".toList else []) ++
      ("inf".toList ++ (" : " ++ t.text).toList) := by
  have hnan : x.isNaN = false := by
    have hcode : x.code = Binary64.infinityCode := beq_iff_eq.1 h
    simp [Binary64.isNaN, hcode]
  cases hneg : x.negative with
  | false => simp [text, Binary64.text, hnan, h, hneg]
  | true => simp [text, Binary64.text, hnan, h, hneg]

/-- A word is no attribute, and behind a sign there is only a number. -/
theorem not_reparses_of_isInfinite {a : Attribute} (h : a.IsInfinite) : ¬ a.Reparses := by
  intro hs
  cases a with
  | float x t =>
    obtain ⟨s, b, q, hs, hb, -⟩ := hs
    obtain ⟨-, hreads⟩ := denotes_parse.apply_ok hb
    obtain ⟨u, mid, hu, hreads⟩ := hreads.readsAs
    have hu : s.tokens = u :: mid := hu
    have hapart : Apart .bareIdentifier (" : " ++ t.text).toList := by
      rw [String.toList_append]
      exact boundary_cons.2 (by decide)
    rw [scan, text_of_isInfinite h] at hs
    cases hneg : x.negative with
    | false =>
      -- the first token is the word
      rw [hneg, if_neg Bool.false_ne_true, List.nil_append] at hs
      obtain ⟨l', s', -, e⟩ := exists_tokens_of_scanFrom lexeme_inf hapart hs
      cases hu.symm.trans e
      exact not_readsAs (by decide) hreads
    | true =>
      -- behind the sign the word stands where a number should
      rw [hneg, if_pos rfl] at hs
      have hminus : Lexeme .minus "-".toList := rfl
      obtain ⟨l', s', hs', e⟩ := exists_tokens_of_scanFrom hminus (by simp [Apart]) hs
      obtain ⟨l'', s'', -, e'⟩ := exists_tokens_of_scanFrom lexeme_inf hapart hs'
      cases hu.symm.trans e
      obtain ⟨m, v, us, hv, -, colon, _, _, -, -, -, hk⟩ := hreads
      have hv : s.tokens = m :: v :: us := hv
      rw [e, e'] at hv
      cases hv
      cases hk with
      | inl hk => cases hk.1
      | inr hk => cases hk.1
  | _ => exact h

theorem not_survives_of_isInfinite {a : Attribute} (h : a.IsInfinite) : ¬ a.Survives :=
  fun hs => not_reparses_of_isInfinite h hs.reparses

theorem Reads.regular_of_reparses {ts rest : List Token} {a : Attribute} (h : a.Reads ts rest)
    (hl : ∀ t ∈ ts, Lexeme t.kind t.lexeme.toList) (hr : a.Reparses) : a.Regular := by
  refine h.regular hl ?_ fun hinf => not_reparses_of_isInfinite hinf hr
  intro t us e hk
  refine Classical.byContradiction fun hclosed => ?_
  obtain ⟨u, mid, e', has⟩ := h.readsAs
  cases e.symm.trans e'
  have hlexeme : Lexeme .string t.lexeme.toList := hk ▸ hl t (by simp [e])
  rw [hk] at has
  obtain ⟨v, hv, -, rfl⟩ := has
  cases e.symm.trans hv
  exact not_reparses_of_not_closedOnce hlexeme hclosed hr

/-- An attribute that was read survives exactly if it is finite and, as a string, has only the
quote that closes it at its end. Exactly then a string holds what is between its quotes. -/
theorem survives_iff_of_parse {source : String} {s : TokenStream} {p q : ParserState} {n : Nat}
    {a : Attribute} (hs : scan source = .ok s) (hp : p.At s n) (h : parse p = .ok a q) :
    (a.Survives ↔ ¬ a.IsInfinite ∧ (p.peek.kind = .string → ClosedOnce p.peek.lexeme)) ∧
      ∀ v, a = .string v →
        (p.peek.lexeme = "\"" ++ v ++ "\"" ↔ ClosedOnce p.peek.lexeme) := by
  obtain ⟨-, hreads⟩ := denotes_parse.apply_ok h
  obtain ⟨t, mid, hahead, has⟩ := hreads.readsAs
  have hpeek : p.peek = t := by simp [ParserState.peek, ParserState.peekAt, hahead]
  have hlexemes : ∀ u ∈ p.ahead, Lexeme u.kind u.lexeme.toList := by
    intro u hu
    rw [hp.ahead] at hu
    exact lexeme_of_scan hs u (List.mem_of_mem_drop hu)
  have hword (hk : t.kind = .string) : Lexeme .string t.lexeme.toList :=
    hk ▸ hlexemes t (by simp [hahead])
  rw [hpeek]
  constructor
  · constructor
    · intro hsurvives
      refine ⟨fun hinf => not_survives_of_isInfinite hinf hsurvives, fun hk => ?_⟩
      rw [hk] at has
      obtain ⟨u, hu, -, rfl⟩ := has
      cases hahead.symm.trans hu
      exact Classical.byContradiction fun hclosed =>
        not_survives_of_not_closedOnce (hword hk) hclosed hsurvives
    · -- what is read from lexemes can be named in a source but for its last quote
      intro hcond
      refine survives_of_regular (hreads.regular hlexemes ?_ hcond.1)
      intro u us hu hk
      cases hahead.symm.trans hu
      exact hcond.2 hk
  · intro v hv
    subst hv
    obtain ⟨u, hu, hk, rfl⟩ := hreads
    cases hahead.symm.trans hu
    constructor
    · intro e
      refine Classical.byContradiction fun hclosed => ?_
      have hquotes := e.symm.trans (eq_trimQuotes_of_not_closedOnce (hword hk) hclosed)
      rw [String.append_right_inj] at hquotes
      exact absurd hquotes (by decide)
    · exact eq_trimQuotes_of_closedOnce (hword hk)

theorem exists_parse_string {s : TokenStream} {t : Token} (hs : s.tokens = [t])
    (hk : t.kind = .string) : ∃ q, parse (.ofTokens s) = .ok (string (trimQuotes t.lexeme)) q := by
  have hreads : (string (trimQuotes t.lexeme)).Reads s.tokens [] := ⟨t, hs, hk, rfl⟩
  obtain ⟨q, hq, -⟩ := denotes_parse.exists_ok (s := .ofTokens s) ⟨rfl, hreads⟩
  exact ⟨q, hq⟩

def quoteFirst : Token := ⟨.string, "\"\\\"a\"", ⟨0, 0⟩⟩

theorem survives_quoteFirst : scan quoteFirst.lexeme = .ok ⟨[quoteFirst], ⟨0, 5⟩⟩ ∧
    (∃ q, parse (.ofTokens ⟨[quoteFirst], ⟨0, 5⟩⟩) = .ok (string "\\\"a") q) ∧
    (string "\\\"a").Survives ∧ quoteFirst.lexeme = "\"" ++ "\\\"a" ++ "\"" := by
  have hs : scan quoteFirst.lexeme = .ok ⟨[quoteFirst], ⟨0, 5⟩⟩ :=
    scan_eq_of_toOption (by decide +kernel)
  have htrim : trimQuotes quoteFirst.lexeme = "\\\"a" := by decide
  have hclosed : ClosedOnce quoteFirst.lexeme := by
    unfold ClosedOnce
    decide
  obtain ⟨q, hq⟩ := @exists_parse_string ⟨[quoteFirst], ⟨0, 5⟩⟩ _ rfl rfl
  rw [htrim] at hq
  obtain ⟨hsurvives, hstring⟩ := survives_iff_of_parse hs (ParserState.at_ofTokens _) hq
  exact ⟨hs, ⟨q, hq⟩, hsurvives.2 ⟨id, fun _ => hclosed⟩, (hstring _ rfl).2 hclosed⟩

def quoteLast : Token := ⟨.string, "\"a\\\"\"", ⟨0, 0⟩⟩

theorem not_survives_quoteLast : scan quoteLast.lexeme = .ok ⟨[quoteLast], ⟨0, 5⟩⟩ ∧
    (∃ q, parse (.ofTokens ⟨[quoteLast], ⟨0, 5⟩⟩) = .ok (string "a\\") q) ∧
    ¬ (string "a\\").Survives ∧ quoteLast.lexeme ≠ "\"" ++ "a\\" ++ "\"" := by
  have hs : scan quoteLast.lexeme = .ok ⟨[quoteLast], ⟨0, 5⟩⟩ :=
    scan_eq_of_toOption (by decide +kernel)
  have htrim : trimQuotes quoteLast.lexeme = "a\\" := by decide
  have hopen : ¬ ClosedOnce quoteLast.lexeme := by
    unfold ClosedOnce
    decide
  have hlost := not_survives_of_not_closedOnce (lexeme_of_scan hs quoteLast (by simp)) hopen
  obtain ⟨q, hq⟩ := @exists_parse_string ⟨[quoteLast], ⟨0, 5⟩⟩ _ rfl rfl
  rw [htrim] at hq hlost
  exact ⟨hs, ⟨q, hq⟩, hlost, by decide⟩

end Attribute

end BrilIR
