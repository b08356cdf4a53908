import BrilIR.Proofs.Lexical.Place

/-!
Where tokens stand, counted in characters. The scanner does not see the line feeds in strings; but
for them its lines and columns are those of the offset of a token, and they grow from one token to
the next.
-/

namespace BrilIR

namespace Location

variable {a b c : Location}

theorem Before.trans (h : a.Before b) (h' : b.Before c) : a.Before c := by
  unfold Before at h h' ⊢
  omega

theorem before_nextLine (a : Location) : a.Before a.nextLine :=
  .inl (Nat.lt_succ_self _)

theorem before_right (a : Location) {n : Nat} (h : n ≠ 0) : a.Before (a.right n) :=
  .inr ⟨rfl, Nat.lt_add_of_pos_right (Nat.pos_of_ne_zero h)⟩

def UpTo (a b : Location) : Prop := a = b ∨ a.Before b

theorem Before.trans_upTo (h : a.Before b) (h' : b.UpTo c) : a.Before c := by
  cases h' with
  | inl e => exact e ▸ h
  | inr h' => exact h.trans h'

end Location

namespace Text

variable {feeds feeds' : Nat → Bool} {cs : List Char} {i n : Nat}

/-- The place at an offset where a new line begins behind the offsets that `feeds` holds of: how
many of them stand in front of it, and how far it is behind the last of them. -/
def placeAt (feeds : Nat → Bool) (i : Nat) : Location :=
  let before := (List.range i).filter feeds
  ⟨before.length, i - (before.getLast?.map (· + 1)).getD 0⟩

theorem placeAt_zero : placeAt feeds 0 = .origin := rfl

theorem placeAt_succ : placeAt feeds (i + 1) =
    if feeds i then (placeAt feeds i).nextLine else (placeAt feeds i).right 1 := by
  by_cases h : feeds i = true
  · simp [placeAt, List.range_succ, List.filter_append, h, Location.nextLine]
  · have hlast : ((((List.range i).filter feeds).getLast?).map (· + 1)).getD 0 ≤ i := by
      cases hl : ((List.range i).filter feeds).getLast? with
      | none => exact Nat.zero_le i
      | some p =>
        have hp := List.mem_of_getLast? hl
        simp only [List.mem_filter, List.mem_range] at hp
        exact hp.1
    simp only [placeAt, List.range_succ, List.filter_append, h, List.filter_cons_of_neg,
      Bool.false_eq_true, not_false_eq_true, List.filter_nil, List.append_nil, if_false,
      Location.right, Location.mk.injEq, true_and]
    omega

theorem placeAt_add (h : ∀ p < n, feeds (i + p) = false) :
    placeAt feeds (i + n) = (placeAt feeds i).right n := by
  induction n with
  | zero => rfl
  | succ n ih =>
    have hn : feeds (i + n) = false := h n (Nat.lt_succ_self n)
    have hplace := ih fun p hp => h p (Nat.lt_succ_of_lt hp)
    rw [← Nat.add_assoc, placeAt_succ, hn, hplace]
    rfl

theorem placeAt_congr (h : ∀ p < i, feeds p = feeds' p) : placeAt feeds i = placeAt feeds' i := by
  have hfilter : (List.range i).filter feeds = (List.range i).filter feeds' :=
    List.filter_congr fun p hp => h p (List.mem_range.1 hp)
  simp only [placeAt, hfilter]

/-- With all line feeds of a text it is the true place. -/
theorem placeAt_eq_placeBehind (h : i ≤ cs.length) :
    placeAt (fun p => cs[p]? == some '\n') i = placeBehind (cs.take i) := by
  induction i with
  | zero => rfl
  | succ i ih =>
    have hi : i < cs.length := h
    have htake : cs.take (i + 1) = cs.take i ++ [cs[i]] := by
      rw [List.take_add_one, List.getElem?_eq_getElem hi]
      rfl
    rw [placeAt_succ, ih (Nat.le_of_lt hi), htake, List.getElem?_eq_getElem hi]
    by_cases hc : cs[i] = '\n'
    · rw [hc, placeBehind_feed]
      rfl
    · have hne : '\n' ∉ [cs[i]] := fun hm => hc (List.mem_singleton.1 hm).symm
      rw [placeBehind_append hne, if_neg (by simpa using hc)]
      rfl

theorem placeAt_line_lt (h : ∀ p, feeds p = true → feeds' p = true) {p : Nat} (hp : p < i)
    (hf : feeds p = false) (hf' : feeds' p = true) :
    (placeAt feeds i).line < (placeAt feeds' i).line := by
  have hfilter : (List.range i).filter feeds = ((List.range i).filter feeds').filter feeds := by
    rw [List.filter_filter]
    refine List.filter_congr fun q _ => ?_
    cases hq : feeds q with
    | false => rfl
    | true => simp [h q hq]
  have hmem : p ∈ (List.range i).filter feeds' :=
    List.mem_filter.2 ⟨List.mem_range.2 hp, hf'⟩
  simp only [placeAt]
  rw [hfilter]
  refine Nat.lt_of_le_of_ne (List.length_filter_le _ _) fun e => ?_
  have hall := List.length_filter_eq_length_iff.1 e p hmem
  rw [hf] at hall
  cases hall

end Text

namespace TokenStream

open Token Text

variable {l l' : Location} {i : Nat} {cs rest : List Char} {ts : List Token} {starts : List Nat}

/-! The scanner goes forward. -/

theorem Cuts.increasing (h : Cuts l cs ts l' rest) :
    (ts.map (·.location) ++ [l']).Pairwise Location.Before ∧
      ∀ a ∈ ts.map (·.location) ++ [l'], l.UpTo a := by
  have behind {l l₁ : Location} {as : List Location} (hl : l.Before l₁)
      (h : ∀ a ∈ as, l₁.UpTo a) : ∀ a ∈ as, l.UpTo a :=
    fun a ha => .inr (hl.trans_upTo (h a ha))
  induction h with
  | done =>
    refine ⟨List.pairwise_singleton _ _, fun a ha => ?_⟩
    exact .inl (List.mem_singleton.1 ha).symm
  | @blank l l' c cs rest ts hb _ ih =>
    have hl : l.Before (if c = '\n' then l.nextLine else l.right 1) := by
      split
      · exact l.before_nextLine
      · exact l.before_right Nat.one_ne_zero
    exact ⟨ih.1, behind hl ih.2⟩
  | @comment l l' body cs rest ts hb hend _ ih =>
    have hl : l.Before (l.right ("//".toList ++ body).length) := l.before_right (by simp)
    exact ⟨ih.1, behind hl ih.2⟩
  | @token l l' kind w cs rest ts hw _ ih =>
    have hl : l.Before (l.right w.length) :=
      l.before_right (by simpa using hw.lexeme.ne_nil)
    refine ⟨List.pairwise_cons.2 ⟨fun a ha => hl.trans_upTo (ih.2 a ha), ih.1⟩, ?_⟩
    exact List.forall_mem_cons.2 ⟨.inl rfl, behind hl ih.2⟩

theorem pairwise_before {source : String} {s : TokenStream} (h : scan source = .ok s) :
    s.toList.Pairwise fun t u => t.location.Before u.location := by
  have hmap : s.toList.map (·.location) = s.tokens.map (·.location) ++ [s.stop] := by
    simp [toList, atEnd]
  rw [← List.pairwise_map, hmap]
  exact (scan_eq_ok_iff.1 h).increasing.1

/-! Offsets. -/

/-- From the offset `i` on, a text consists of the tokens, which begin at the given offsets, and of
gaps between them. The last offset is that of the end of the text. -/
inductive Starts : Nat → List Char → List Token → List Nat → Prop
  | done {i : Nat} : Starts i [] [] [i]
  | blank {i : Nat} {c : Char} {cs : List Char} {ts : List Token} {starts : List Nat}
      (hb : isBlank c = true) (h : Starts (i + 1) cs ts starts) : Starts i (c :: cs) ts starts
  | comment {i : Nat} {body cs : List Char} {ts : List Token} {starts : List Nat}
      (hb : '\n' ∉ body) (hend : ∀ c ∈ cs.head?, c = '\n')
      (h : Starts (i + ("//".toList ++ body).length) cs ts starts) :
      Starts i ("//".toList ++ (body ++ cs)) ts starts
  | token {i : Nat} {t : Token} {cs : List Char} {ts : List Token} {starts : List Nat}
      (hw : Longest t.kind t.lexeme.toList (t.lexeme.toList ++ cs))
      (h : Starts (i + t.lexeme.toList.length) cs ts starts) :
      Starts i (t.lexeme.toList ++ cs) (t :: ts) (i :: starts)

/-! What stands at the front decides how a text goes on. -/

theorem Longest.front_eq {c : Char} {kind : Kind} {w : List Char} (h : Longest kind w (w ++ rest))
    (e : w ++ rest = c :: cs) : ∃ n, front c cs = .lexeme kind n := by
  rw [e] at h
  obtain ⟨n, hf, -⟩ := front_of_longest h
  exact ⟨n, hf⟩

theorem slashes_append (cs : List Char) : "//".toList ++ cs = '/' :: '/' :: cs := rfl

theorem isBlank_slash : isBlank '/' = false := by decide

theorem Starts.of_nil (h : Starts i [] ts starts) : ts = [] ∧ starts = [i] := by
  generalize e : ([] : List Char) = cs at h
  cases h with
  | done => exact ⟨rfl, rfl⟩
  | blank _ _ => cases e
  | comment _ _ _ => cases e
  | token hw _ => exact absurd (List.append_eq_nil_iff.1 e.symm).1 hw.lexeme.ne_nil

theorem Starts.of_blank {c : Char} (hc : isBlank c = true) (h : Starts i (c :: cs) ts starts) :
    Starts (i + 1) cs ts starts := by
  generalize e : c :: cs = text at h
  cases h with
  | done => cases e
  | blank _ h =>
    cases e
    exact h
  | comment _ _ _ =>
    rw [slashes_append] at e
    cases e
    rw [isBlank_slash] at hc
    cases hc
  | token hw _ =>
    obtain ⟨n, hf⟩ := Longest.front_eq hw e.symm
    rw [front_of_isBlank hc] at hf
    cases hf

theorem Starts.of_comment {body : List Char} (hb : '\n' ∉ body) (hend : ∀ c ∈ cs.head?, c = '\n')
    (h : Starts i ("//".toList ++ (body ++ cs)) ts starts) :
    Starts (i + ("//".toList ++ body).length) cs ts starts := by
  generalize e : "//".toList ++ (body ++ cs) = text at h
  cases h with
  | done => cases e
  | blank hc _ =>
    rw [slashes_append] at e
    cases e
    rw [isBlank_slash] at hc
    cases hc
  | @comment _ body' cs' _ _ hb' hend' h =>
    have hrest := List.append_cancel_left e
    have hbody : body = body' := by
      rw [← takeWhile_comment hb hend, hrest, takeWhile_comment hb' hend']
    subst hbody
    have hcs : cs = cs' := List.append_cancel_left hrest
    rwa [hcs]
  | token hw _ =>
    rw [slashes_append] at e
    obtain ⟨n, hf⟩ := Longest.front_eq hw e.symm
    rw [front_comment] at hf
    cases hf

theorem Starts.of_token {t : Token} (hw : Longest t.kind t.lexeme.toList (t.lexeme.toList ++ cs))
    (h : Starts i (t.lexeme.toList ++ cs) (t :: ts) starts) :
    ∃ tail, starts = i :: tail ∧ Starts (i + t.lexeme.toList.length) cs ts tail := by
  generalize e : t.lexeme.toList ++ cs = text at h
  cases h with
  | @blank _ c more _ _ hc _ =>
    obtain ⟨n, hf⟩ := Longest.front_eq hw e
    rw [front_of_isBlank hc] at hf
    cases hf
  | comment hb hend _ =>
    rw [slashes_append] at e
    obtain ⟨n, hf⟩ := Longest.front_eq hw e
    rw [front_comment] at hf
    cases hf
  | token _ h =>
    rw [← List.append_cancel_left e] at h
    exact ⟨_, rfl, h⟩

theorem Starts.unique {starts' : List Nat} (h : Starts i cs ts starts)
    (h' : Starts i cs ts starts') : starts = starts' := by
  induction h generalizing starts' with
  | done => exact h'.of_nil.2.symm
  | blank hc _ ih => exact ih (h'.of_blank hc)
  | comment hb hend _ ih => exact ih (h'.of_comment hb hend)
  | token hw _ ih =>
    obtain ⟨tail, e, h'⟩ := h'.of_token hw
    rw [e, ih h']

theorem Starts.le (h : Starts i cs ts starts) : ∀ j ∈ starts, i ≤ j ∧ j ≤ i + cs.length := by
  induction h with
  | done => simp
  | blank _ _ ih =>
    intro j hj
    have := ih j hj
    rw [List.length_cons]
    omega
  | comment _ _ _ ih =>
    intro j hj
    have := ih j hj
    simp only [List.length_append] at this ⊢
    omega
  | @token i t cs ts starts hw _ ih =>
    intro j hj
    rw [List.length_append]
    cases List.mem_cons.1 hj with
    | inl e => omega
    | inr hj =>
      have := ih j hj
      omega

theorem drop_behind {as : List Char} {j : Nat} (h : i + as.length ≤ j) :
    (as ++ cs).drop (j - i) = cs.drop (j - (i + as.length)) := by
  have hj : j - i = as.length + (j - (i + as.length)) := by omega
  rw [hj, List.drop_length_add_append]

theorem Starts.lexeme_prefix {t : Token} {j : Nat} (h : Starts i cs ts starts)
    (ht : (t, j) ∈ ts.zip starts) : t.lexeme.toList <+: cs.drop (j - i) := by
  have shift {as : List Char} {ts : List Token} {starts : List Nat} {cs : List Char} {i : Nat}
      (h : Starts (i + as.length) cs ts starts) (ht : (t, j) ∈ ts.zip starts)
      (hp : t.lexeme.toList <+: cs.drop (j - (i + as.length))) :
      t.lexeme.toList <+: (as ++ cs).drop (j - i) := by
    rwa [drop_behind (h.le j (List.of_mem_zip ht).2).1]
  induction h with
  | done => cases ht
  | @blank i c cs ts starts _ h ih => exact @shift [c] _ _ _ _ h ht (ih ht)
  | @comment i body cs ts starts _ _ h ih =>
    rw [← List.append_assoc]
    exact shift h ht (ih ht)
  | @token i u cs ts starts _ h ih =>
    cases List.mem_cons.1 ht with
    | inl e =>
      cases e
      rw [Nat.sub_self]
      exact List.prefix_append _ _
    | inr ht => exact shift h ht (ih ht)

theorem Starts.end_le {t : Token} {m n j k : Nat} (h : Starts i cs ts starts)
    (ht : ts[m]? = some t) (hj : starts[m]? = some j) (hk : starts[n]? = some k) (hmn : m < n) :
    j + t.lexeme.toList.length ≤ k := by
  induction h generalizing m n with
  | done => cases ht
  | blank _ _ ih => exact ih ht hj hk hmn
  | comment _ _ _ ih => exact ih ht hj hk hmn
  | @token i u cs ts starts _ h ih =>
    obtain ⟨n, rfl⟩ := Nat.exists_eq_succ_of_ne_zero (Nat.ne_of_gt (Nat.zero_lt_of_lt hmn))
    cases m with
    | zero =>
      cases ht
      cases hj
      exact (h.le k (List.mem_of_getElem? hk)).1
    | succ m => exact ih ht hj hk (Nat.lt_of_succ_lt_succ hmn)

/-- Whether an offset is in one of the strings among the tokens, which begin at the offsets beside
them. -/
def inString (spans : List (Token × Nat)) (p : Nat) : Bool :=
  spans.any fun x => x.1.kind == .string && decide (x.2 ≤ p ∧ p < x.2 + x.1.lexeme.toList.length)

theorem inString_iff {spans : List (Token × Nat)} {p : Nat} : inString spans p = true ↔
    ∃ t i, (t, i) ∈ spans ∧ t.kind = .string ∧ i ≤ p ∧ p < i + t.lexeme.toList.length := by
  simp [inString]

def isLineEnd (cs : List Char) (spans : List (Token × Nat)) (p : Nat) : Bool :=
  cs[p]? == some '\n' && !inString spans p

/-- From the offset `i` on `feeds` holds of the line feeds of a text outside of its strings. -/
def Tells (feeds : Nat → Bool) (i : Nat) (cs : List Char) (spans : List (Token × Nat)) : Prop :=
  ∀ p, feeds (i + p) = (cs[p]? == some '\n' && !inString spans (i + p))

section Tells

variable {feeds : Nat → Bool} {as : List Char} {spans : List (Token × Nat)} {t : Token} {p : Nat}

theorem Tells.drop (h : Tells feeds i (as ++ cs) spans) : Tells feeds (i + as.length) cs spans := by
  intro p
  rw [Nat.add_assoc, h (as.length + p), List.getElem?_append_right (Nat.le_add_right _ _),
    Nat.add_sub_cancel_left]

theorem Tells.token (h : Tells feeds i (t.lexeme.toList ++ cs) ((t, i) :: spans)) :
    Tells feeds (i + t.lexeme.toList.length) cs spans := by
  intro p
  have hout : ¬ (i ≤ i + t.lexeme.toList.length + p ∧
      i + t.lexeme.toList.length + p < i + t.lexeme.toList.length) := by omega
  rw [h.drop p, inString, List.any_cons, decide_eq_false hout, Bool.and_false, Bool.false_or,
    inString]

theorem Tells.placeAt (h : Tells feeds i (as ++ cs) spans) (hfeed : '\n' ∉ as) :
    placeAt feeds (i + as.length) = (placeAt feeds i).right as.length := by
  refine placeAt_add fun p hp => ?_
  have hne : ((as ++ cs)[p]? == some '\n') = false := by
    rw [List.getElem?_append_left hp, List.getElem?_eq_getElem hp]
    have hc : as[p] ≠ '\n' := fun e => hfeed (e ▸ List.getElem_mem hp)
    simpa using hc
  rw [h p, hne, Bool.false_and]

end Tells

/-- The scanner is at the place of the offset that it has come to. -/
theorem Cuts.exists_starts (h : Cuts l cs ts l' rest) (hrest : rest = []) (i : Nat) :
    ∃ starts, Starts i cs ts starts ∧ starts.length = ts.length + 1 ∧
      ∀ feeds, Tells feeds i cs (ts.zip starts) → placeAt feeds i = l →
        ∀ x ∈ (ts ++ [atEnd l']).zip starts, x.1.location = placeAt feeds x.2 := by
  -- `feeds` is chosen last, so the pieces further on are told the same ones
  induction h generalizing i with
  | done =>
    subst hrest
    refine ⟨[i], .done, rfl, fun feeds _ hl x hx => ?_⟩
    cases List.mem_singleton.1 hx
    exact hl.symm
  | @blank l l' c cs rest ts hb _ ih =>
    obtain ⟨starts, hstarts, hlength, hplaces⟩ := ih hrest (i + 1)
    refine ⟨starts, .blank hb hstarts, hlength, fun feeds htells hl => hplaces feeds ?_ ?_⟩
    · have htells : Tells feeds i ([c] ++ cs) (ts.zip starts) := htells
      exact htells.drop
    · have hout : inString (ts.zip starts) i = false := by
        refine List.any_eq_false.2 fun x hx => ?_
        have hle := (hstarts.le x.2 (List.of_mem_zip hx).2).1
        have hnot : ¬ (x.2 ≤ i ∧ i < x.2 + x.1.lexeme.toList.length) := by omega
        simp [hnot]
      have hfeed : feeds i = (c == '\n') := by
        have hzero := htells 0
        simpa [hout] using hzero
      rw [placeAt_succ, hfeed, hl]
      simp only [beq_iff_eq]
  | @comment l l' body cs rest ts hb hend _ ih =>
    obtain ⟨starts, hstarts, hlength, hplaces⟩ := ih hrest (i + ("//".toList ++ body).length)
    refine ⟨starts, .comment hb hend hstarts, hlength, fun feeds htells hl => ?_⟩
    have hfeed : '\n' ∉ "//".toList ++ body := by simp [hb]
    rw [← List.append_assoc] at htells
    exact hplaces feeds htells.drop (by rw [htells.placeAt hfeed, hl])
  | @token l l' kind w cs rest ts hw _ ih =>
    obtain ⟨starts, hstarts, hlength, hplaces⟩ := ih hrest (i + w.length)
    generalize ht : (⟨kind, String.ofList w, l⟩ : Token) = t
    have hlexeme : t.lexeme.toList = w := by rw [← ht, String.toList_ofList]
    have hkind : t.kind = kind := by rw [← ht]
    rw [← hlexeme] at hw hstarts hplaces ⊢
    rw [← hkind] at hw
    refine ⟨i :: starts, .token hw hstarts, by simp [hlength], fun feeds htells hl => ?_⟩
    -- the line feeds in a string are no ends of lines, and another token has none
    have hplace : placeAt feeds (i + t.lexeme.toList.length) = l.right t.lexeme.toList.length := by
      rw [← hl]
      by_cases hs : t.kind = .string
      · refine placeAt_add fun p hp => ?_
        have hin : inString ((t, i) :: ts.zip starts) (i + p) = true :=
          inString_iff.2 ⟨t, i, List.mem_cons_self, hs, by omega, by omega⟩
        have hfeed := htells p
        rw [List.zip_cons_cons, hin] at hfeed
        rw [hfeed, Bool.not_true, Bool.and_false]
      · exact htells.placeAt (hw.lexeme.feed_notMem hs)
    intro x hx
    cases List.mem_cons.1 hx with
    | inl e =>
      cases e
      rw [hl, ← ht]
    | inr hx => exact hplaces feeds htells.token hplace x hx

theorem Starts.getLast? (h : Starts i cs ts starts) : starts.getLast? = some (i + cs.length) := by
  induction h with
  | done => rfl
  | blank _ _ ih =>
    rw [ih, List.length_cons, Nat.add_right_comm, Nat.add_assoc]
  | comment _ _ _ ih =>
    rw [ih]
    simp only [List.length_append, Nat.add_assoc]
  | token _ _ ih =>
    rw [List.getLast?_cons, ih, Option.getD_some, List.length_append, Nat.add_assoc]

theorem Starts.feed_mem_iff {t : Token} {j : Nat} (h : Starts 0 cs ts starts)
    (ht : (t, j) ∈ ts.zip starts) : '\n' ∈ t.lexeme.toList ↔
      ∃ p, j ≤ p ∧ p < j + t.lexeme.toList.length ∧ cs[p]? = some '\n' := by
  obtain ⟨more, e⟩ := h.lexeme_prefix ht
  have hat {q : Nat} (hq : q < t.lexeme.toList.length) :
      cs[j + q]? = some t.lexeme.toList[q] := by
    rw [← List.getElem?_drop, ← Nat.sub_zero j, ← e, List.getElem?_append_left hq,
      List.getElem?_eq_getElem hq]
  constructor
  · intro hm
    obtain ⟨q, hq, hc⟩ := List.getElem_of_mem hm
    exact ⟨j + q, Nat.le_add_right _ _, Nat.add_lt_add_left hq j, by rw [hat hq, hc]⟩
  · intro hm
    obtain ⟨p, hle, hlt, hc⟩ := hm
    obtain ⟨q, rfl⟩ := Nat.exists_eq_add_of_le hle
    have hq : q < t.lexeme.toList.length := Nat.lt_of_add_lt_add_left hlt
    rw [hat hq] at hc
    exact Option.some.inj hc ▸ List.getElem_mem hq

theorem Starts.lt_of_start_lt {t : Token} {m n j k : Nat} (h : Starts i cs ts starts)
    (ht : ts[m]? = some t) (hj : starts[m]? = some j) (hk : starts[n]? = some k) (hjk : j < k) :
    m < n := by
  refine Nat.lt_of_not_le fun hle => ?_
  cases Nat.eq_or_lt_of_le hle with
  | inl e =>
    subst e
    rw [hj] at hk
    cases hk
    exact Nat.lt_irrefl _ hjk
  | inr hnm =>
    have hn : n < ts.length := Nat.lt_trans hnm (List.getElem?_eq_some_iff.1 ht).1
    have hend := h.end_le (List.getElem?_eq_getElem hn) hk hj hnm
    omega

/-- Among the tokens in front of an offset, the strings that go over the end of a line are what
makes its place another than the true one. -/
theorem Starts.placeAt_eq_iff {n : Nat} (h : Starts 0 cs ts starts)
    (hlength : starts.length = ts.length + 1) (hi : starts[n]? = some i) :
    placeAt (isLineEnd cs (ts.zip starts)) i = placeBehind (cs.take i) ↔ OneLined (ts.take n) := by
  have hle : i ≤ cs.length := by
    have := h.le i (List.mem_of_getElem? hi)
    omega
  rw [← placeAt_eq_placeBehind hle]
  constructor
  · intro hplace u hu hk hfeed
    obtain ⟨m, hm, rfl⟩ := List.mem_take_iff_getElem.1 hu
    have hmn : m < n := by omega
    have hlt : m < ts.length := by omega
    have ht : ts[m]? = some ts[m] := List.getElem?_eq_getElem hlt
    obtain ⟨j, hj⟩ : ∃ j, starts[m]? = some j := ⟨_, List.getElem?_eq_getElem (by omega)⟩
    have hspan : (ts[m], j) ∈ ts.zip starts :=
      List.mem_of_getElem? (List.getElem?_zip_eq_some.2 ⟨ht, hj⟩)
    have hend := h.end_le ht hj hi hmn
    -- The line feed in the string is one that begins no line.
    obtain ⟨p, hjp, hpj, hc⟩ := (h.feed_mem_iff hspan).1 hfeed
    have hin : inString (ts.zip starts) p = true := inString_iff.2 ⟨_, j, hspan, hk, hjp, hpj⟩
    have hlines : (placeAt (isLineEnd cs (ts.zip starts)) i).line <
        (placeAt (fun p => cs[p]? == some '\n') i).line := by
      refine placeAt_line_lt (p := p) (fun q hq => (Bool.and_eq_true_iff.1 hq).1) (by omega) ?_ ?_
      · rw [isLineEnd, hin, Bool.not_true, Bool.and_false]
      · rw [hc, beq_self_eq_true]
    rw [hplace] at hlines
    exact Nat.lt_irrefl _ hlines
  · intro hlined
    refine placeAt_congr fun p hp => ?_
    by_cases hc : cs[p]? = some '\n'
    · have hout : inString (ts.zip starts) p = false := by
        refine Bool.eq_false_iff.2 fun hin => ?_
        obtain ⟨u, j, hspan, hk, hjp, hpj⟩ := inString_iff.1 hin
        obtain ⟨m, hm⟩ := List.getElem?_of_mem hspan
        obtain ⟨ht, hj⟩ := List.getElem?_zip_eq_some.1 hm
        have hmn : m < n := h.lt_of_start_lt ht hj hi (Nat.lt_of_le_of_lt hjp hp)
        have hu : u ∈ ts.take n := by
          rw [← List.getElem?_take_of_lt hmn] at ht
          exact List.mem_of_getElem? ht
        exact hlined u hu hk ((h.feed_mem_iff hspan).2 ⟨p, hjp, hpj, hc⟩)
      rw [isLineEnd, hout, Bool.not_false, Bool.and_true]
    · have hne : (cs[p]? == some '\n') = false := beq_eq_false_iff_ne.2 hc
      rw [isLineEnd, hne, Bool.false_and]

/-- The place of a token is found from the offset at which it begins: as many lines down as line
feeds outside of strings stand in front of it, and as far to the right as it is from the last of
them. It is the true place of the offset exactly if no string in front of the token goes over the
end of a line, and in every source the places grow from one token to the next. -/
theorem scan_locations {source : String} {s : TokenStream} (h : scan source = .ok s) :
    ∃ starts, (∀ starts', Starts 0 source.toList s.tokens starts' ↔ starts' = starts) ∧
      starts.length = s.toList.length ∧ starts.getLast? = some source.toList.length ∧
      (∀ n t i, s.toList[n]? = some t → starts[n]? = some i →
        t.lexeme.toList <+: source.toList.drop i ∧
        t.location = placeAt (isLineEnd source.toList (s.tokens.zip starts)) i ∧
        (t.location = placeBehind (source.toList.take i) ↔ OneLined (s.tokens.take n))) ∧
      s.toList.Pairwise fun t u => t.location.Before u.location := by
  obtain ⟨starts, hstarts, hlength, hplaces⟩ := (scan_eq_ok_iff.1 h).exists_starts rfl 0
  have htells : Tells (isLineEnd source.toList (s.tokens.zip starts)) 0 source.toList
      (s.tokens.zip starts) := by
    intro p
    rw [Nat.zero_add, isLineEnd]
  have hat := hplaces _ htells placeAt_zero
  have hlast := hstarts.getLast?
  rw [Nat.zero_add] at hlast
  refine ⟨starts, fun starts' => ⟨fun h' => h'.unique hstarts, fun e => e ▸ hstarts⟩, ?_, hlast, ?_,
    pairwise_before h⟩
  · simp [hlength, toList]
  · intro n t i ht hi
    have hspan : (t, i) ∈ s.toList.zip starts :=
      List.mem_of_getElem? (List.getElem?_zip_eq_some.2 ⟨ht, hi⟩)
    have hplace : t.location = placeAt (isLineEnd source.toList (s.tokens.zip starts)) i :=
      hat (t, i) hspan
    refine ⟨?_, hplace, hplace ▸ hstarts.placeAt_eq_iff hlength hi⟩
    by_cases hn : n < s.tokens.length
    · have ht' : s.tokens[n]? = some t := by
        rwa [toList, List.getElem?_append_left hn] at ht
      exact hstarts.lexeme_prefix (List.mem_of_getElem? (List.getElem?_zip_eq_some.2 ⟨ht', hi⟩))
    · rw [toList, List.getElem?_append_right (Nat.le_of_not_lt hn), List.getElem?_singleton] at ht
      split at ht
      · cases ht
        exact List.nil_prefix
      · cases ht

def escapedFeed : String := "\"a\\\nb\" x\ny"

/-- The scanner takes the word for one of the first line. -/
def escapedFeedTokens : TokenStream where
  tokens := [⟨.string, "\"a\\\nb\"", ⟨0, 0⟩⟩, ⟨.bareIdentifier, "x", ⟨0, 7⟩⟩,
    ⟨.bareIdentifier, "y", ⟨1, 0⟩⟩]
  stop := ⟨1, 1⟩

theorem scan_locations_escapedFeed : scan escapedFeed = .ok escapedFeedTokens ∧
    ∃ starts, (∀ starts', Starts 0 escapedFeed.toList escapedFeedTokens.tokens starts' ↔
        starts' = starts) ∧
      starts.length = escapedFeedTokens.toList.length ∧
      starts.getLast? = some escapedFeed.toList.length ∧
      (∀ n t i, escapedFeedTokens.toList[n]? = some t → starts[n]? = some i →
        t.lexeme.toList <+: escapedFeed.toList.drop i ∧
        t.location =
          placeAt (isLineEnd escapedFeed.toList (escapedFeedTokens.tokens.zip starts)) i ∧
        (t.location = placeBehind (escapedFeed.toList.take i) ↔
          OneLined (escapedFeedTokens.tokens.take n))) ∧
      escapedFeedTokens.toList.Pairwise fun t u => t.location.Before u.location := by
  have h : scan escapedFeed = .ok escapedFeedTokens := scan_eq_of_toOption (by decide +kernel)
  exact ⟨h, scan_locations h⟩

end TokenStream

end BrilIR
