import BrilIR.Proofs.Lexical.Munch
import BrilIR.Proofs.Lexical.Scan

/-!
What a source is cut into. Blanks, comments and longest lexemes make up the whole text, and cutting
gets stuck only where none of them stands.
-/

namespace BrilIR

namespace Token

/-- What stands behind the opening quote of a string that is never closed, the fault, and how many
of the characters are read before it is noticed. -/
inductive Unclosed : List Char → Fault → Nat → Prop
  | feed {body rest : List Char} (hb : isStringBody body = true)
      (hr : ∀ c ∈ rest.head?, c = '\n') : Unclosed (body ++ rest) .unterminatedString body.length
  | escape {body : List Char} (hb : isStringBody body = true) :
      Unclosed (body ++ ['\\']) .openEscape (body.length + 1)

inductive Faulty : List Char → Fault → Nat → Prop
  | unexpected {c : Char} {cs : List Char} (hs : sigilKind? c = none) (hq : c ≠ '"') :
      Faulty (c :: cs) (.unexpected c) 0
  | bareSigil {c : Char} {cs : List Char} (hs : sigilKind? c ≠ none) : Faulty (c :: cs) .bareSigil 0
  | string {cs : List Char} {f : Fault} {n : Nat} (h : Unclosed cs f n) : Faulty ('"' :: cs) f n

/-- The text begins with no blank and no comment. -/
structure Solid (cs : List Char) : Prop where
  not_blank : ∀ c ∈ cs.head?, isBlank c = false
  not_comment : ¬ "//".toList <+: cs

/-- The text goes on, but neither with a blank nor with a comment nor with a lexeme. -/
structure Stuck (cs : List Char) : Prop where
  ne_nil : cs ≠ []
  solid : Solid cs
  not_lexeme : ∀ kind w, w <+: cs → ¬ Lexeme kind w

theorem Front.extend_eq_gap {m n : Nat} {front : Front} (h : front.extend m = .gap n) :
    ∃ k, front = .gap k := by
  cases front with
  | gap k => exact ⟨k, rfl⟩
  | lexeme kind k => cases h
  | fault f k => cases h

theorem Front.extend_eq_fault {m n : Nat} {front : Front} {f : Fault}
    (h : front.extend m = .fault f n) : ∃ k, front = .fault f k ∧ n = k + m := by
  cases front with
  | gap k => cases h
  | lexeme kind k => cases h
  | fault f' k =>
    cases h
    exact ⟨k, rfl, rfl⟩

theorem Unclosed.escaped {d : Char} {cs : List Char} {f : Fault} {n : Nat} (h : Unclosed cs f n) :
    Unclosed ('\\' :: d :: cs) f (n + 2) := by
  cases h with
  | @feed body rest hb hr =>
    rw [← isStringBody_escape] at hb
    exact .feed hb hr
  | @escape body hb =>
    rw [← isStringBody_escape] at hb
    exact .escape hb

theorem Unclosed.plain {c : Char} {cs : List Char} {f : Fault} {n : Nat} (hq : c ≠ '"')
    (hn : c ≠ '\n') (hb : c ≠ '\\') (h : Unclosed cs f n) : Unclosed (c :: cs) f (n + 1) := by
  cases h with
  | @feed body rest hbody hr =>
    rw [← isStringBody_plain hq hn hb] at hbody
    exact .feed hbody hr
  | @escape body hbody =>
    rw [← isStringBody_plain hq hn hb] at hbody
    exact .escape hbody

theorem Unclosed.nil {cs : List Char} (h : ∀ c ∈ cs.head?, c = '\n') :
    Unclosed cs .unterminatedString 0 :=
  @feed [] cs rfl h

theorem unclosed_of_stringFront {cs : List Char} {f : Fault} {n : Nat}
    (h : stringFront cs = .fault f n) : Unclosed cs f n := by
  induction cs using stringFront.induct generalizing n with
  | case1 =>
    cases h
    exact Unclosed.nil (by simp)
  | case2 cs =>
    rw [stringFront_quote] at h
    cases h
  | case3 cs _ =>
    rw [stringFront_feed] at h
    cases h
    exact Unclosed.nil (by simp)
  | case4 =>
    cases h
    exact @Unclosed.escape [] rfl
  | case5 d cs _ _ ih =>
    rw [stringFront_escape] at h
    obtain ⟨k, hk, rfl⟩ := Front.extend_eq_fault h
    exact (ih hk).escaped
  | case6 c cs hq hn hb ih =>
    rw [stringFront_plain hq hn hb] at h
    obtain ⟨k, hk, rfl⟩ := Front.extend_eq_fault h
    exact (ih hk).plain hq hn hb

theorem Unclosed.stringFront_eq {cs : List Char} {f : Fault} {n : Nat} (h : Unclosed cs f n) :
    stringFront cs = .fault f n := by
  cases h with
  | @feed body rest hb hr =>
    rw [stringFront_body hb]
    cases rest with
    | nil => simp [stringFront, Front.extend]
    | cons c rest =>
      have hc : c = '\n' := hr c rfl
      rw [hc, stringFront_feed, Front.extend, Nat.zero_add]
  | @escape body hb =>
    rw [stringFront_body hb]
    simp [stringFront, Front.extend, Nat.add_comm]

/-! The front of a text. -/

theorem front_comment (cs : List Char) :
    front '/' ('/' :: cs) = .gap (1 + (cs.takeWhile (· ≠ '\n')).length) := by
  simp [front, markKind?, sigilKind?, isBlank, Nat.add_comm]

theorem stringFront_ne_gap (cs : List Char) (n : Nat) : stringFront cs ≠ .gap n := by
  intro h
  induction cs using stringFront.induct generalizing n with
  | case1 => cases h
  | case2 cs =>
    rw [stringFront_quote] at h
    cases h
  | case3 cs _ =>
    rw [stringFront_feed] at h
    cases h
  | case4 => cases h
  | case5 d cs _ _ ih =>
    rw [stringFront_escape] at h
    obtain ⟨k, hk⟩ := Front.extend_eq_gap h
    exact ih k hk
  | case6 c cs hq hn hb ih =>
    rw [stringFront_plain hq hn hb] at h
    obtain ⟨k, hk⟩ := Front.extend_eq_gap h
    exact ih k hk

theorem front_of_solid {c : Char} {cs : List Char} (h : Solid (c :: cs)) :
    (∃ kind n, front c cs = .lexeme kind n) ∨
      ∃ f n, front c cs = .fault f n ∧ Faulty (c :: cs) f n := by
  have hb : isBlank c = false := h.not_blank c rfl
  have hcomment : ¬ (c = '/' ∧ cs.head? = some '/') := by
    intro hc
    apply h.not_comment
    cases cs with
    | nil => cases hc.2
    | cons d cs =>
      obtain ⟨rfl, hd⟩ := hc
      cases hd
      exact ⟨cs, rfl⟩
  cases hm : markKind? c with
  | some kind => exact .inl ⟨kind, 0, front_mark hm cs⟩
  | none =>
    cases hs : sigilKind? c with
    | some kind =>
      rw [front_sigil hs, sigilFront]
      split
      · exact .inr ⟨_, _, rfl, .bareSigil (by simp [hs])⟩
      · exact .inl ⟨_, _, rfl⟩
    | none =>
      -- what is left is a dash, a string, a number, a word or nothing that is known
      by_cases hdash : c = '-'
      · subst hdash
        rw [front_dash]
        split
        · exact .inl ⟨_, _, rfl⟩
        · exact .inl ⟨_, _, rfl⟩
      by_cases hquote : c = '"'
      · subst hquote
        rw [front_quote]
        cases hf : stringFront cs with
        | gap n => exact absurd hf (stringFront_ne_gap cs n)
        | lexeme kind n => exact .inl ⟨kind, n, rfl⟩
        | fault f n => exact .inr ⟨f, n, rfl, .string (unclosed_of_stringFront hf)⟩
      by_cases hd : c.isDigit = true
      · exact .inl ⟨_, _, front_of_isDigit hd cs⟩
      by_cases hi : isIdentifierStart c = true
      · exact .inl ⟨_, _, front_of_isIdentifierStart hi cs⟩
      · refine .inr ⟨.unexpected c, 0, ?_, .unexpected hs hquote⟩
        simp [front, hm, hs, hb, hcomment, hdash, hquote, hd, hi]

theorem solid_of_front {c : Char} {cs : List Char} (h : ∀ n, front c cs ≠ .gap n) :
    Solid (c :: cs) where
  not_blank := by
    intro d hd
    cases hd
    cases hb : isBlank c with
    | false => rfl
    | true => exact absurd (front_of_isBlank hb cs) (h 0)
  not_comment := by
    intro hp
    obtain ⟨rest, e⟩ := hp
    cases e
    exact h _ (front_comment rest)

theorem Faulty.unique {cs : List Char} {f g : Fault} {n m : Nat} (h : Faulty cs f n)
    (h' : Faulty cs g m) : f = g ∧ n = m := by
  cases h with
  | unexpected hs hq =>
    cases h' with
    | unexpected => exact ⟨rfl, rfl⟩
    | bareSigil hs' => exact absurd hs hs'
    | string => exact absurd rfl hq
  | bareSigil hs =>
    cases h' with
    | unexpected hs' => exact absurd hs' hs
    | bareSigil => exact ⟨rfl, rfl⟩
    | string => exact absurd rfl hs
  | string hu =>
    cases h' with
    | unexpected _ hq => exact absurd rfl hq
    | bareSigil hs => exact absurd rfl hs
    | string hu' =>
      have e := hu.stringFront_eq
      rw [hu'.stringFront_eq] at e
      cases e
      exact ⟨rfl, rfl⟩

/-- Exactly where cutting is stuck there is a fault. -/
theorem front_eq_fault_iff {c : Char} {cs : List Char} {f : Fault} {n : Nat} :
    front c cs = .fault f n ↔ Stuck (c :: cs) ∧ Faulty (c :: cs) f n := by
  constructor
  · intro h
    have hsolid : Solid (c :: cs) := solid_of_front fun k hk => by rw [h] at hk; cases hk
    constructor
    · refine ⟨List.cons_ne_nil c cs, hsolid, fun kind w hw hl => ?_⟩
      obtain ⟨k, m, hk, -⟩ := front_covers hl hw
      rw [h] at hk
      cases hk
    · obtain ⟨kind, m, hk⟩ | ⟨g, m, hg, hf⟩ := front_of_solid hsolid
      · rw [h] at hk
        cases hk
      · rw [h] at hg
        cases hg
        exact hf
  · intro h
    obtain ⟨hstuck, hf⟩ := h
    obtain ⟨kind, m, hk⟩ | ⟨g, m, hg, hf'⟩ := front_of_solid hstuck.solid
    · obtain ⟨hfront, hlex, -⟩ := longest_of_front hk
      exact absurd hlex (hstuck.not_lexeme kind _ hfront)
    · obtain ⟨rfl, rfl⟩ := hf.unique hf'
      exact hg

end Token

namespace TokenStream

open Token

/-- From a place on, a text is cut into tokens up to another place, with the rest behind it. -/
inductive Cuts : Location → List Char → List Token → Location → List Char → Prop
  | done {l : Location} {cs : List Char} : Cuts l cs [] l cs
  /-- Only a line feed begins a new line. -/
  | blank {l l' : Location} {c : Char} {cs rest : List Char} {ts : List Token}
      (hb : isBlank c = true)
      (h : Cuts (if c = '\n' then l.nextLine else l.right 1) cs ts l' rest) :
      Cuts l (c :: cs) ts l' rest
  /-- A comment goes on up to a line feed or the end. -/
  | comment {l l' : Location} {body cs rest : List Char} {ts : List Token}
      (hb : '\n' ∉ body) (hend : ∀ c ∈ cs.head?, c = '\n')
      (h : Cuts (l.right ("//".toList ++ body).length) cs ts l' rest) :
      Cuts l ("//".toList ++ (body ++ cs)) ts l' rest
  | token {l l' : Location} {kind : Kind} {w cs rest : List Char} {ts : List Token}
      (hw : Longest kind w (w ++ cs)) (h : Cuts (l.right w.length) cs ts l' rest) :
      Cuts l (w ++ cs) (⟨kind, String.ofList w, l⟩ :: ts) l' rest

theorem scanFrom_gap {c : Char} {cs : List Char} {n : Nat} (l : Location)
    (h : front c cs = .gap n) (hn : n ≤ cs.length) : scanFrom 0 l (c :: cs) =
      scanFrom 0 ((if c = '\n' then l.nextLine else l.right 1).right n) (cs.drop n) := by
  simp only [scanFrom, h, scanFrom_skip hn]

theorem takeWhile_comment {body cs : List Char} (hb : '\n' ∉ body)
    (hend : ∀ c ∈ cs.head?, c = '\n') : (body ++ cs).takeWhile (· ≠ '\n') = body := by
  apply takeWhile_append
  · intro c hc
    have : c ≠ '\n' := by
      intro e
      exact hb (e ▸ hc)
    simpa using this
  · intro c hc
    simpa using hend c hc

theorem scanFrom_comment {body cs : List Char} (l : Location) (hb : '\n' ∉ body)
    (hend : ∀ c ∈ cs.head?, c = '\n') : scanFrom 0 l ("//".toList ++ (body ++ cs)) =
      scanFrom 0 (l.right ("//".toList ++ body).length) cs := by
  have hf := front_comment (body ++ cs)
  rw [takeWhile_comment hb hend, Nat.add_comm] at hf
  have hright : (l.right 1).right (body.length + 1) = l.right ("//".toList ++ body).length := by
    simp only [Location.right, Location.mk.injEq, true_and, List.length_append]
    show _ = l.column + (2 + body.length)
    omega
  show scanFrom 0 l ('/' :: '/' :: (body ++ cs)) = _
  rw [scanFrom_gap l hf (by simp), if_neg (by decide), hright, List.drop_succ_cons,
    List.drop_left]

theorem scanFrom_longest {kind : Kind} {w cs : List Char} (l : Location)
    (h : Longest kind w (w ++ cs)) : scanFrom 0 l (w ++ cs) =
      (scanFrom 0 (l.right w.length) cs).map (cons ⟨kind, String.ofList w, l⟩) := by
  cases w with
  | nil => exact absurd rfl h.lexeme.ne_nil
  | cons c w =>
    rw [List.cons_append] at h ⊢
    obtain ⟨n, hf, hw, hn⟩ := front_of_longest h
    have hlen : n = w.length := by
      have hlength := congrArg List.length hw
      rw [List.length_cons, List.length_cons, List.length_take] at hlength
      omega
    subst hlen
    have e := scanFrom_cons_lexeme l hf
    have hright : (l.right 1).right w.length = l.right (c :: w).length := by
      simp only [Location.right, Location.mk.injEq, true_and, List.length_cons]
      omega
    rw [List.take_left, List.drop_left, hright] at e
    exact e

theorem Cuts.scanFrom_eq {l l' : Location} {cs rest : List Char} {ts : List Token}
    (h : Cuts l cs ts l' rest) : scanFrom 0 l cs = (scanFrom 0 l' rest).map (prepend ts) := by
  induction h with
  | @done l cs => cases scanFrom 0 l cs <;> rfl
  | blank hb _ ih =>
    rw [scanFrom, front_of_isBlank hb]
    exact ih
  | comment hb hend _ ih => rw [scanFrom_comment _ hb hend, ih]
  | @token l l' kind w cs rest ts hw _ ih =>
    rw [scanFrom_longest l hw, ih]
    cases scanFrom 0 l' rest <;> rfl

theorem exists_comment {cs : List Char} (h : "//".toList <+: cs) :
    ∃ body rest, cs = "//".toList ++ (body ++ rest) ∧ '\n' ∉ body ∧
      ∀ c ∈ rest.head?, c = '\n' := by
  obtain ⟨tail, e⟩ := h
  refine ⟨tail.takeWhile (· ≠ '\n'), tail.dropWhile (· ≠ '\n'), ?_, ?_, ?_⟩
  · rw [List.takeWhile_append_dropWhile, e]
  · intro hmem
    have := List.all_eq_true.1 List.all_takeWhile _ hmem
    simp at this
  · intro c hc
    have := List.head?_dropWhile_not (· ≠ '\n') tail
    rw [Option.mem_def.1 hc] at this
    simpa using this

/-- At the front of a text that goes on stands a blank, a comment or a longest lexeme, or cutting is
stuck. -/
theorem cut_cases {cs : List Char} (hne : cs ≠ []) :
    (∃ c more, cs = c :: more ∧ isBlank c = true) ∨
      (∃ body more, cs = "//".toList ++ (body ++ more) ∧ '\n' ∉ body ∧
        ∀ c ∈ more.head?, c = '\n') ∨
      (∃ kind w more, cs = w ++ more ∧ Longest kind w (w ++ more)) ∨ Stuck cs := by
  by_cases hcomment : "//".toList <+: cs
  · exact .inr (.inl (exists_comment hcomment))
  cases cs with
  | nil => contradiction
  | cons c cs =>
    cases hb : isBlank c with
    | true => exact .inl ⟨c, cs, rfl, hb⟩
    | false =>
      have hsolid : Solid (c :: cs) := ⟨by simp [hb], hcomment⟩
      obtain ⟨kind, n, hk⟩ | ⟨f, n, hf, -⟩ := front_of_solid hsolid
      · have hw := longest_of_front hk
        obtain ⟨more, hmore⟩ := hw.front
        refine .inr (.inr (.inl ⟨kind, c :: cs.take n, more, hmore.symm, ?_⟩))
        rwa [hmore]
      · exact .inr (.inr (.inr (front_eq_fault_iff.1 hf).1))

theorem exists_cuts (l : Location) (cs : List Char) :
    ∃ ts l' rest, Cuts l cs ts l' rest ∧ (rest = [] ∨ Stuck rest) := by
  -- no piece that is cut off is empty
  induction hn : cs.length using Nat.strongRecOn generalizing l cs with
  | ind n ih =>
    by_cases hnil : cs = []
    · exact ⟨[], l, cs, .done, .inl hnil⟩
    obtain ⟨c, more, e, hb⟩ | ⟨body, more, e, hb, hend⟩ | ⟨kind, w, more, e, hw⟩ | hstuck :=
      cut_cases hnil
    · have hlt : more.length < n := by
        rw [← hn, e, List.length_cons]
        exact Nat.lt_succ_self _
      obtain ⟨ts, l', rest, h, hr⟩ := ih _ hlt (if c = '\n' then l.nextLine else l.right 1) more rfl
      rw [e]
      exact ⟨ts, l', rest, .blank hb h, hr⟩
    · have hlt : more.length < n := by
        have hslashes : "//".toList.length = 2 := rfl
        rw [← hn, e, List.length_append, List.length_append]
        omega
      obtain ⟨ts, l', rest, h, hr⟩ := ih _ hlt (l.right ("//".toList ++ body).length) more rfl
      rw [e]
      exact ⟨ts, l', rest, .comment hb hend h, hr⟩
    · have hlt : more.length < n := by
        have hpos := List.length_pos_iff.2 hw.lexeme.ne_nil
        rw [← hn, e, List.length_append]
        omega
      obtain ⟨ts, l', rest, h, hr⟩ := ih _ hlt (l.right w.length) more rfl
      rw [e]
      exact ⟨_, l', rest, .token hw h, hr⟩
    · exact ⟨[], l, cs, .done, .inr hstuck⟩

theorem Stuck.exists_faulty {cs : List Char} (h : Stuck cs) : ∃ f n, Faulty cs f n := by
  cases cs with
  | nil => exact absurd rfl h.ne_nil
  | cons c cs =>
    obtain ⟨kind, n, hk⟩ | ⟨f, n, -, hf⟩ := front_of_solid h.solid
    · have hw := longest_of_front hk
      exact absurd hw.lexeme (h.not_lexeme _ _ hw.front)
    · exact ⟨f, n, hf⟩

theorem scanFrom_of_stuck {cs : List Char} {f : Fault} {n : Nat} (l : Location) (h : Stuck cs)
    (hf : Faulty cs f n) : scanFrom 0 l cs = .error ⟨f, l.right n⟩ := by
  cases cs with
  | nil => exact absurd rfl h.ne_nil
  | cons c cs =>
    have hfront := front_eq_fault_iff.2 ⟨h, hf⟩
    simp only [scanFrom, hfront]

theorem scan_eq_ok_iff {source : String} {s : TokenStream} :
    scan source = .ok s ↔ Cuts .origin source.toList s.tokens s.stop [] := by
  constructor
  · intro h
    obtain ⟨ts, l, rest, hc, hnil | hstuck⟩ := exists_cuts .origin source.toList
    · subst hnil
      rw [scan, hc.scanFrom_eq] at h
      cases h
      simpa [prepend] using hc
    · obtain ⟨f, n, hf⟩ := Stuck.exists_faulty hstuck
      rw [scan, hc.scanFrom_eq, scanFrom_of_stuck l hstuck hf] at h
      cases h
  · intro h
    rw [scan, h.scanFrom_eq]
    simp [scanFrom, Except.map, prepend]

theorem scan_eq_error_iff {source : String} {e : LexError} :
    scan source = .error e ↔ ∃ ts l rest f n, Cuts .origin source.toList ts l rest ∧
      Stuck rest ∧ Faulty rest f n ∧ e = ⟨f, l.right n⟩ := by
  constructor
  · intro h
    obtain ⟨ts, l, rest, hc, hnil | hstuck⟩ := exists_cuts .origin source.toList
    · subst hnil
      rw [scan, hc.scanFrom_eq] at h
      cases h
    · obtain ⟨f, n, hf⟩ := Stuck.exists_faulty hstuck
      rw [scan, hc.scanFrom_eq, scanFrom_of_stuck l hstuck hf] at h
      cases h
      exact ⟨ts, l, rest, f, n, hc, hstuck, hf, rfl⟩
  · intro h
    obtain ⟨ts, l, rest, f, n, hc, hstuck, hf, e⟩ := h
    rw [scan, hc.scanFrom_eq, scanFrom_of_stuck l hstuck hf, e]
    rfl

theorem determined_of_scan {source : String} {s : TokenStream} (h : scan source = .ok s) :
    ∀ t ∈ s.tokens, t.kind ≠ .eof ∧ Determined t.kind t.lexeme.toList := by
  intro t ht
  have hl := lexeme_of_scan h t ht
  constructor
  · intro e
    rw [e] at hl
    exact hl
  · exact hl.determined

/-- The scanner loses nothing and cuts off the longest lexeme each time. It succeeds exactly if the
whole source is cut, with the end of the input as the last and only token of its kind; and it fails
exactly if cutting gets stuck, with the fault at the place where it does. -/
theorem scan_maximal_munch (source : String) :
    (∀ s, scan source = .ok s ↔ Cuts .origin source.toList s.tokens s.stop []) ∧
    (∀ s, scan source = .ok s → s.toList.getLast? = some (.atEnd s.stop) ∧
      ∀ t ∈ s.toList.dropLast, t.kind ≠ .eof ∧ Determined t.kind t.lexeme.toList) ∧
    ∀ e, scan source = .error e ↔ ∃ ts l rest f n, Cuts .origin source.toList ts l rest ∧
      Stuck rest ∧ Faulty rest f n ∧ e = ⟨f, l.right n⟩ := by
  refine ⟨fun s => scan_eq_ok_iff, fun s h => ?_, fun e => scan_eq_error_iff⟩
  constructor
  · simp [toList]
  · intro t ht
    apply determined_of_scan h
    simpa [toList] using ht

/-- A point and a letter e without digits behind them are no part of a number. -/
example : (scan "3e5 3e i32x // ->\n1.5->-").toOption.map (·.tokens.map (·.lexeme)) =
    some ["3e5", "3", "e", "i32x", "1.5", "->", "-"] := by
  decide

end TokenStream

end BrilIR
