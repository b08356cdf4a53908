import BrilIR.Proofs.Grammar.Recognition
import BrilIR.Proofs.Printing.Survival
import BrilIR.Proofs.Text.ByteOrder

/-!
Attribute dictionaries as tables. A list of entries in braces is read exactly if its keys differ,
and then as the table of the entries, whatever their order. The table is printed in the order of its
keys, and what is printed is read back as the table; only of the empty one nothing is printed.
-/

namespace BrilIR

open Token TokenStream BrilIR.Parser Production

namespace Attribute

variable {ts rest : List Token} {a : Attribute}

def IsReadFrom (ts : List Token) (a : Attribute) : Prop :=
  ∃ stop q, parse (.ofTokens ⟨ts, stop⟩) = .ok a q ∧ q.isAtEnd = true

/-- All ways to write the attribute. -/
def written (a : Attribute) : Language Token := {ts | a.IsReadFrom ts}

theorem isReadFrom_iff : a.IsReadFrom ts ↔ a.Reads ts [] := by
  constructor
  · intro h
    obtain ⟨stop, q, hq, hend⟩ := h
    obtain ⟨-, hreads⟩ := denotes_parse.apply_ok hq
    rwa [List.isEmpty_iff.1 hend] at hreads
  · intro h
    obtain ⟨q, hq, -, hend⟩ := denotes_parse.exists_ok (s := .ofTokens ⟨ts, .origin⟩) ⟨rfl, h⟩
    exact ⟨.origin, q, hq, List.isEmpty_iff.2 hend⟩

end Attribute

theorem Ty.Reads.append {ts rest : List Token} {u : Ty} (h : u.Reads ts rest) (more : List Token) :
    u.Reads (ts ++ more) (rest ++ more) := by
  induction u generalizing ts rest with
  | int width =>
    obtain ⟨t, rfl, hk, ht⟩ := h
    exact ⟨t, rfl, hk, ht⟩
  | float format =>
    obtain ⟨t, rfl, hk, ht⟩ := h
    exact ⟨t, rfl, hk, ht⟩
  | ptr pointee ih =>
    obtain ⟨bang, name, less, mid, greater, rfl, hb, hn, hp, hl, hr, hg⟩ := h
    exact ⟨bang, name, less, mid ++ more, greater, rfl, hb, hn, hp, hl, ih hr, hg⟩

theorem Attribute.Reads.append {ts rest : List Token} {a : Attribute} (h : a.Reads ts rest)
    (more : List Token) : a.Reads (ts ++ more) (rest ++ more) := by
  have sign {negative : Bool} {t colon : Token} {mid : List Token}
      (hs : ReadsSign ts negative (t :: colon :: mid)) :
      ReadsSign (ts ++ more) negative (t :: colon :: (mid ++ more)) := by
    cases negative with
    | true =>
      obtain ⟨m, rfl, hm⟩ := hs
      exact ⟨m, rfl, hm⟩
    | false =>
      cases hs
      rfl
  cases a with
  | int value u =>
    obtain ⟨negative, t, colon, mid, hs, hk, hv, hc, hu⟩ := h
    exact ⟨negative, t, colon, mid ++ more, sign hs, hk, hv, hc, hu.append more⟩
  | float value u =>
    obtain ⟨negative, t, colon, mid, hs, hk, hv, hc, hu⟩ := h
    exact ⟨negative, t, colon, mid ++ more, sign hs, hk, hv, hc, hu.append more⟩
  | bool b =>
    obtain ⟨t, rfl, hk⟩ := h
    exact ⟨t, rfl, hk⟩
  | string s =>
    obtain ⟨t, rfl, hk, hw⟩ := h
    exact ⟨t, rfl, hk, hw⟩
  | symbol s =>
    obtain ⟨t, rfl, hk, hw⟩ := h
    exact ⟨t, rfl, hk, hw⟩
  | type u => exact Ty.Reads.append h more

namespace Attributes

/-! Entries as they are written. -/

def writtenEntry (e : String × Attribute) : Language Token :=
  word .bareIdentifier e.1 * (mark .equal * e.2.written)

/-- Entries in braces with commas between them. One more comma may stand behind the last one. -/
def written (es : List (String × Attribute)) : Language Token :=
  mark .lbrace * (listed (es.map writtenEntry) * mark .rbrace)

theorem readsEntry_of_before {e : String × Attribute} {ts rest : List Token}
    (h : Before (writtenEntry e) ts rest) : ReadsEntry ts e rest := by
  simp only [writtenEntry, before_mul, before_word, before_mark] at h
  obtain ⟨_, ⟨key, rfl, hk, hw⟩, mid, ⟨eq, rfl, he⟩, vs, hvs, rfl⟩ := h
  exact ⟨key, eq, vs ++ rest, rfl, hk, hw, he, (Attribute.isReadFrom_iff.1 hvs).append rest⟩

theorem readsEntries_of_written {es : List (String × Attribute)} {us : List Token}
    (h : us ∈ written es) (rest : List Token) : ReadsEntries (us ++ rest) es rest := by
  obtain ⟨mid, hm, hl⟩ := before_mul.1 (⟨us, h, rfl⟩ : Before (written es) (us ++ rest) rest)
  exact ⟨mid, before_mark.1 hm, listed_of_before (fun e _ => readsEntry_of_before) hl⟩

def readEntry : Parser (String × Attribute) := do
  let key ← expect .bareIdentifier
  discard (expect .equal)
  return (key.lexeme, ← Attribute.parse)

theorem denotes_readEntry : Denotes readEntry (Plain ReadsEntry) := by
  refine (denotes_expect.plain_bind fun key => Denotes.mark_seq
    (Attribute.denotes_parse.plain_pure (key.lexeme, ·))).of_iff fun σ ts e σ' rest => ?_
  constructor
  · intro h
    obtain ⟨key, _, ⟨rfl, hk⟩, rfl, mid, ⟨eq, rfl, he⟩, a, ha, rfl⟩ := h
    exact ⟨rfl, key, eq, mid, rfl, hk, rfl, he, ha⟩
  · intro h
    obtain ⟨rfl, key, eq, mid, rfl, hk, hw, he, ha⟩ := h
    exact ⟨key, _, ⟨rfl, hk⟩, rfl, mid, ⟨eq, rfl, he⟩, e.2, ha, by rw [hw]⟩

theorem readsEntries_unique {ts rest rest' : List Token} {es es' : List (String × Attribute)}
    (h : ReadsEntries ts es rest) (h' : ReadsEntries ts es' rest') : es = es' ∧ rest = rest' := by
  have hdenotes : Denotes (do discard (expect .lbrace); listUntil .rbrace readEntry)
      (Plain ReadsEntries) := by
    refine .mark_seq (denotes_listOf (by decide) denotes_readEntry (fun h => h.2.beyond) ?_)
    intro t ts e rest he
    obtain ⟨key, eq, mid, e', hk, -⟩ := he
    cases e'
    simp [hk]
  have hplain : Plain ReadsEntries [] ts es [] rest := ⟨rfl, h⟩
  exact hdenotes.unique hplain ⟨rfl, h'⟩

/-! Tables. -/

theorem perm_insertEntry {key : String} {a : Attribute} {es : List (String × Attribute)}
    (h : ∀ e ∈ es, e.1 ≠ key) : (insertEntry key a es).Perm ((key, a) :: es) := by
  induction es with
  | nil => exact .refl _
  | cons e es ih =>
    obtain ⟨he, hes⟩ := List.forall_mem_cons.1 h
    rw [insertEntry]
    split
    · exact .refl _
    · split
      · exact ((ih hes).cons e).trans (.swap ..)
      · next hlt hgt =>
        exact absurd (String.le_antisymm (String.not_lt.1 hlt) (String.not_lt.1 hgt)) he

theorem perm_foldl_insert {d : Attributes} {es : List (String × Attribute)}
    (h : ((d.entries ++ es).map (·.1)).Nodup) :
    (es.foldl (fun d e => d.insert e.1 e.2) d).entries.Perm (d.entries ++ es) := by
  induction es generalizing d with
  | nil => simp
  | cons e es ih =>
    have hnew : ∀ a ∈ d.entries, a.1 ≠ e.1 := by
      intro a ha
      rw [List.map_append, List.nodup_append] at h
      exact h.2.2 a.1 (List.mem_map_of_mem ha) e.1 (by simp)
    have hinsert : (d.insert e.1 e.2).entries.Perm (e :: d.entries) := perm_insertEntry hnew
    have hmove : ((d.insert e.1 e.2).entries ++ es).Perm (d.entries ++ e :: es) :=
      (hinsert.append_right es).trans List.perm_middle.symm
    have h' : (((d.insert e.1 e.2).entries ++ es).map (·.1)).Nodup :=
      (hmove.map (·.1)).nodup_iff.2 h
    exact (ih h').trans hmove

theorem perm_ofList {es : List (String × Attribute)} (h : (es.map (·.1)).Nodup) :
    (ofList es).entries.Perm es :=
  perm_foldl_insert (d := ∅) h

theorem ofList_eq_of_perm {es es' : List (String × Attribute)} (h : (es.map (·.1)).Nodup)
    (hp : es'.Perm es) : ofList es' = ofList es := by
  have h' : (es'.map (·.1)).Nodup := (hp.map (·.1)).nodup_iff.2 h
  have hentries : (ofList es').entries.Perm (ofList es).entries :=
    (perm_ofList h').trans (hp.trans (perm_ofList h).symm)
  have hasymm (a b : String × Attribute) (hab : a.1 < b.1) (hba : b.1 < a.1) : a = b :=
    absurd (String.lt_trans hab hba) (String.lt_irrefl _)
  exact eq_of_entries (hentries.eq_of_pairwise (fun a b _ _ => hasymm a b) (ofList es').sorted
    (ofList es).sorted)

theorem get?_eq_some_iff {d : Attributes} {key : String} {a : Attribute} :
    d.get? key = some a ↔ (key, a) ∈ d.entries := by
  constructor
  · intro h
    obtain ⟨e, he, rfl⟩ := Option.map_eq_some_iff.1 h
    have hfound := List.find?_some he
    have hkey : e.1 = key := beq_iff_eq.1 hfound
    rw [← hkey]
    exact List.mem_of_find?_eq_some he
  · intro h
    cases hfind : d.entries.find? (·.1 == key) with
    | none =>
      have hnone := List.find?_eq_none.1 hfind (key, a) h
      simp at hnone
    | some e =>
      have hfound := List.find?_some hfind
      have hkey : e.1 = key := beq_iff_eq.1 hfound
      have hunique := List.inj_on_of_nodup_map d.nodup_keys (List.mem_of_find?_eq_some hfind) h hkey
      rw [get?, hfind, hunique]
      rfl

theorem pairwise_utf8Bytes (d : Attributes) :
    d.entries.Pairwise fun a b => utf8Bytes a.1 < utf8Bytes b.1 :=
  d.sorted.imp utf8Bytes_lt

/-! What is written is read as the table of its entries. -/

variable {es : List (String × Attribute)} {us rest : List Token} {p q : ParserState}
  {d : Attributes}

theorem exists_parse_written (hus : us ∈ written es) (hp : p.ahead = us ++ rest)
    (h : (es.map (·.1)).Nodup) : ∃ q, parse p = .ok (ofList es) q ∧ q.ahead = rest := by
  have hreads : (ofList es).Reads p.ahead rest := by
    rw [hp]
    exact ⟨es, readsEntries_of_written hus rest, h, rfl⟩
  obtain ⟨q, hq, -, hrest⟩ := denotes_parse.exists_ok (s := p) ⟨rfl, hreads⟩
  exact ⟨q, hq, hrest⟩

theorem eq_ofList_of_parse (hus : us ∈ written es) (hp : p.ahead = us ++ rest)
    (h : parse p = .ok d q) : d = ofList es ∧ (es.map (·.1)).Nodup ∧ q.ahead = rest := by
  obtain ⟨-, es', hes', hnodup, rfl⟩ := denotes_parse.apply_ok h
  rw [hp] at hes'
  obtain ⟨rfl, hrest⟩ := readsEntries_unique hes' (readsEntries_of_written hus rest)
  exact ⟨rfl, hnodup, hrest⟩

theorem regular_ofList (hus : us ∈ written es) (hl : Lexical us)
    (hr : ∀ e ∈ es, e.2.Reparses) (h : (es.map (·.1)).Nodup) : (ofList es).Regular := by
  intro e he
  have hes : e ∈ es := (perm_ofList h).mem_iff.1 he
  have hreads := readsEntries_of_written hus []
  rw [List.append_nil] at hreads
  obtain ⟨mid, hm, hlisted⟩ := hreads
  obtain ⟨vs, vs', hs, key, eq, ts, rfl, hk, hkey, -, ha⟩ :=
    hlisted.exists_reads (fun h => h.2.beyond) e hes
  have hlexical : Lexical (key :: eq :: ts) := hl.mono (hs.trans hm.beyond.suffix)
  have hword : Lexeme key.kind key.lexeme.toList := hlexical key (by simp)
  rw [hk, hkey] at hword
  have hts : Lexical ts := hlexical.mono ⟨[key, eq], rfl⟩
  exact ⟨hword, ha.regular_of_reparses hts (hr e hes)⟩

/-- A table that shows something is read back from what it shows. -/
theorem exists_parse_text (h : d.Regular) (hne : d.entries ≠ []) : ∃ s q,
    scan d.text = .ok s ∧ parse (.ofTokens s) = .ok d q ∧ q.isAtEnd = true := by
  obtain ⟨s, hs, hts⟩ := (writes_text h).exists_scan trivial
  cases hts (by simp [StartsWith]) with
  | inl hreads =>
    obtain ⟨q, hq, -, hend⟩ := denotes_parse.exists_ok (s := .ofTokens s) ⟨rfl, hreads.2⟩
    exact ⟨s, q, hs, hq, List.isEmpty_iff.2 hend⟩
  | inr hempty =>
    rw [hempty.2.1] at hne
    exact absurd rfl hne

/-- A dictionary is read exactly if the keys of its entries differ. What is read of it maps the keys
to their values and nothing else, and is the same for the entries in another order. It is shown in
the order of the bytes of the keys, and unless nothing is shown it is read back. -/
theorem parse_written (hus : us ∈ written es) (hp : p.ahead = us ++ rest) :
    ((∃ d q, parse p = .ok d q) ↔ (es.map (·.1)).Nodup) ∧
      ∀ d q, parse p = .ok d q → q.ahead = rest ∧
        (∀ key a, d.get? key = some a ↔ (key, a) ∈ es) ∧
        (∀ es' us' rest' p', es'.Perm es → us' ∈ written es' → p'.ahead = us' ++ rest' →
          ∃ q', parse p' = .ok d q' ∧ q'.ahead = rest') ∧
        (∃ shown : List (String × Attribute), shown.Perm es ∧
          shown.Pairwise (fun a b => utf8Bytes a.1 < utf8Bytes b.1) ∧
          d.text = if es = [] then "" else
            " \x7b" ++ ", ".intercalate (shown.map entryText) ++ "\x7d") ∧
        (es ≠ [] → Lexical us → (∀ e ∈ es, e.2.Reparses) →
          ∃ s q', scan d.text = .ok s ∧ parse (.ofTokens s) = .ok d q' ∧ q'.isAtEnd = true) := by
  constructor
  · constructor
    · intro h
      obtain ⟨d, q, h⟩ := h
      exact (eq_ofList_of_parse hus hp h).2.1
    · intro h
      obtain ⟨q, hq, -⟩ := exists_parse_written hus hp h
      exact ⟨ofList es, q, hq⟩
  · intro d q h
    obtain ⟨rfl, hnodup, hrest⟩ := eq_ofList_of_parse hus hp h
    have hperm : (ofList es).entries.Perm es := perm_ofList hnodup
    have hempty : (ofList es).entries = [] ↔ es = [] :=
      ⟨fun e => List.nil_perm.1 (e ▸ hperm), fun e => List.perm_nil.1 (e ▸ hperm)⟩
    refine ⟨hrest, fun key a => get?_eq_some_iff.trans hperm.mem_iff, ?_,
      ⟨(ofList es).entries, hperm, pairwise_utf8Bytes _, ?_⟩, ?_⟩
    · intro es' us' rest' p' hes' hus' hp'
      have hnodup' : (es'.map (·.1)).Nodup := (hes'.map (·.1)).nodup_iff.2 hnodup
      obtain ⟨q', hq', hrest'⟩ := exists_parse_written hus' hp' hnodup'
      rw [ofList_eq_of_perm hnodup hes'] at hq'
      exact ⟨q', hq', hrest'⟩
    · rw [text, isEmpty]
      simp only [List.isEmpty_iff, hempty]
    · intro hne hl hr
      exact exists_parse_text (regular_ofList hus hl hr hnodup) (mt hempty.1 hne)

def swappedTokens : List Token :=
  [⟨.lbrace, "\x7b", ⟨0, 0⟩⟩, ⟨.bareIdentifier, "b", ⟨0, 1⟩⟩, ⟨.equal, "=", ⟨0, 3⟩⟩,
    ⟨.integer, "1", ⟨0, 5⟩⟩, ⟨.colon, ":", ⟨0, 7⟩⟩, ⟨.intType, "i64", ⟨0, 9⟩⟩,
    ⟨.comma, ",", ⟨0, 12⟩⟩, ⟨.bareIdentifier, "a", ⟨0, 14⟩⟩, ⟨.equal, "=", ⟨0, 16⟩⟩,
    ⟨.kwTrue, "true", ⟨0, 18⟩⟩, ⟨.comma, ",", ⟨0, 22⟩⟩, ⟨.rbrace, "\x7d", ⟨0, 23⟩⟩]

theorem swappedTokens_mem_written :
    swappedTokens ∈ written [("b", .int 1 (.int 64)), ("a", .bool true)] := by
  have hb : Before (writtenEntry ("b", .int 1 (.int 64))) swappedTokens.tail
      (swappedTokens.drop 6) :=
    .mul (before_word.2 ⟨_, rfl, rfl, rfl⟩) (.mul (before_mark.2 ⟨_, rfl, rfl⟩)
      ⟨(swappedTokens.drop 3).take 3, ⟨.origin, _, rfl, rfl⟩, rfl⟩)
  have ha : Before (writtenEntry ("a", .bool true)) (swappedTokens.drop 7)
      (swappedTokens.drop 10) :=
    .mul (before_word.2 ⟨_, rfl, rfl, rfl⟩) (.mul (before_mark.2 ⟨_, rfl, rfl⟩)
      ⟨(swappedTokens.drop 9).take 1, ⟨.origin, _, rfl, rfl⟩, rfl⟩)
  have hend : Before (listed [] * mark .rbrace) (swappedTokens.drop 11) [] :=
    .mul (before_empty.2 rfl) (before_mark.2 ⟨_, rfl, rfl⟩)
  have hlast := before_listed_cons.2 ⟨_, ha, .inr ⟨_, ⟨_, rfl, rfl⟩, hend⟩⟩
  have hboth := before_listed_cons.2 ⟨_, hb, .inr ⟨_, ⟨_, rfl, rfl⟩, hlast⟩⟩
  exact before_nil.1 (.mul (before_mark.2 ⟨_, rfl, rfl⟩) hboth)

theorem parse_swappedTokens :
    scan "\x7bb = 1 : i64, a = true,\x7d" = .ok ⟨swappedTokens, ⟨0, 24⟩⟩ ∧
      ∃ d q, parse (.ofTokens ⟨swappedTokens, ⟨0, 24⟩⟩) = .ok d q ∧
        d.get? "a" = some (.bool true) ∧ d.get? "b" = some (.int 1 (.int 64)) ∧
        d.text = " \x7ba = true, b = 1 : i64\x7d" ∧
        ∃ s q', scan d.text = .ok s ∧ parse (.ofTokens s) = .ok d q' ∧ q'.isAtEnd = true := by
  have hs : scan "\x7bb = 1 : i64, a = true,\x7d" = .ok ⟨swappedTokens, ⟨0, 24⟩⟩ := by decide
  have hlexical : Lexical swappedTokens := lexeme_of_scan hs
  have hahead : (ParserState.ofTokens ⟨swappedTokens, ⟨0, 24⟩⟩).ahead = swappedTokens ++ [] := rfl
  obtain ⟨hiff, hall⟩ := parse_written swappedTokens_mem_written hahead
  obtain ⟨d, q, h⟩ := hiff.2 (by decide)
  obtain ⟨-, hget, -, -, hback⟩ := hall d q h
  have hreparses : ∀ e ∈ [("b", Attribute.int 1 (.int 64)), ("a", .bool true)], e.2.Reparses := by
    intro e he
    refine (Attribute.survives_of_regular ?_).reparses
    cases List.mem_pair.1 he with
    | inl h =>
      rw [h]
      show (64 : UInt32) ≠ 0
      decide
    | inr h =>
      rw [h]
      trivial
  have htext : (match parse (.ofTokens ⟨swappedTokens, ⟨0, 24⟩⟩) with
      | .ok d _ => d.text
      | .error .. => "") = " \x7ba = true, b = 1 : i64\x7d" := by
    decide +kernel
  rw [h] at htext
  have ha : d.get? "a" = some (.bool true) := (hget _ _).2 (by simp)
  have hb : d.get? "b" = some (.int 1 (.int 64)) := (hget _ _).2 (by simp)
  have hreads := hback (by simp) hlexical hreparses
  exact ⟨hs, d, q, h, ha, hb, htext, hreads⟩

/-- Nothing is shown of the empty table, and nothing is not a dictionary. -/
theorem not_parse_text_empty :
    (∃ s, scan "\x7b\x7d" = .ok s ∧ s.tokens ∈ written [] ∧ ∃ q, parse (.ofTokens s) = .ok ∅ q) ∧
      (∅ : Attributes).text = "" ∧
      ¬ ∃ s d q, scan (∅ : Attributes).text = .ok s ∧ parse (.ofTokens s) = .ok d q := by
  refine ⟨⟨⟨[⟨.lbrace, "\x7b", ⟨0, 0⟩⟩, ⟨.rbrace, "\x7d", ⟨0, 1⟩⟩], ⟨0, 2⟩⟩, by decide, ?_, _, rfl⟩,
    rfl, ?_⟩
  · exact before_nil.1 (.mul (before_mark.2 ⟨_, rfl, rfl⟩)
      (.mul (before_empty.2 rfl) (before_mark.2 ⟨_, rfl, rfl⟩)))
  · intro h
    obtain ⟨s, d, q, hs, hq⟩ := h
    cases hs
    cases hq

end Attributes

end BrilIR
