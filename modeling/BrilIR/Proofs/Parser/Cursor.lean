import BrilIR.Proofs.Parser.Denotation

/-!
A parser as a cursor over the tokens of a source. Whether it succeeds or fails it moves the cursor
forward only, and never over the end; how far at least is found from its parts.
-/

namespace BrilIR

namespace ParserState

/-- The cursor of the parser stands behind `n` tokens of the source, the last of which is the
previous one. In front of all tokens the first one stands in for it. -/
structure At (p : ParserState) (s : TokenStream) (n : Nat) : Prop where
  le : n ≤ s.tokens.length
  ahead : p.ahead = s.tokens.drop n
  stop : p.stop = s.stop
  previous : s.toList[n - 1]? = some p.previous

theorem at_ofTokens (s : TokenStream) : (ofTokens s).At s 0 := by
  refine ⟨Nat.zero_le _, rfl, rfl, ?_⟩
  cases h : s.tokens <;> simp [ofTokens, TokenStream.toList, h]

theorem exists_at (p : ParserState) : ∃ s n, p.At s n := by
  refine ⟨⟨p.previous :: p.ahead, p.stop⟩, 1, ?_, rfl, rfl, rfl⟩
  simp

theorem peek_of_nil {p : ParserState} (h : p.ahead = []) : p.peek = .atEnd p.stop := by
  simp [peek, peekAt, h]

namespace At

variable {p q : ParserState} {s : TokenStream} {n m : Nat}

theorem length_ahead (h : p.At s n) : p.ahead.length + n = s.tokens.length := by
  have hle := h.le
  rw [h.ahead, List.length_drop]
  omega

theorem isAtEnd_iff (h : p.At s n) : p.isAtEnd = true ↔ n = s.tokens.length := by
  have hlength := h.length_ahead
  rw [isAtEnd, List.isEmpty_iff, ← List.length_eq_zero_iff]
  omega

/-- A look ahead stays on the end of the source once it is there. -/
theorem peekAt (h : p.At s n) (k : Nat) :
    s.toList[min (n + k) (s.toList.length - 1)]? = some (p.peekAt k) := by
  have hle := h.le
  have hlength : s.toList.length - 1 = s.tokens.length := by simp [TokenStream.toList]
  rw [ParserState.peekAt, List.getD_eq_getElem?_getD, h.ahead, List.getElem?_drop, h.stop, hlength]
  by_cases hk : n + k < s.tokens.length
  · rw [Nat.min_eq_left (Nat.le_of_lt hk), TokenStream.toList, List.getElem?_append_left hk,
      List.getElem?_eq_getElem hk]
    rfl
  · have hk := Nat.le_of_not_lt hk
    rw [Nat.min_eq_right hk, TokenStream.toList, List.getElem?_concat_length,
      List.getElem?_eq_none hk]
    rfl

theorem congr (h : p.At s n) (ha : q.ahead = p.ahead) (hs : q.stop = p.stop)
    (hp : q.previous = p.previous) : q.At s n :=
  ⟨h.le, ha.trans h.ahead, hs.trans h.stop, hp ▸ h.previous⟩

theorem next {t : Token} {ts : List Token} (h : p.At s n) (e : p.ahead = t :: ts) :
    At { p with previous := t, ahead := ts } s (n + 1) := by
  have hdrop : s.tokens.drop n = t :: ts := by rw [← h.ahead, e]
  have hlt : n < s.tokens.length := by
    have hlength := congrArg List.length hdrop
    rw [List.length_drop, List.length_cons] at hlength
    omega
  rw [List.drop_eq_getElem_cons hlt] at hdrop
  obtain ⟨rfl, rfl⟩ := List.cons.inj hdrop
  refine ⟨hlt, rfl, h.stop, ?_⟩
  rw [Nat.add_sub_cancel, TokenStream.toList, List.getElem?_append_left hlt,
    List.getElem?_eq_getElem hlt]

end At

theorem exists_peekOpName (p : ParserState) :
    ∃ k ≤ p.ahead.length, p.peekOpName = p.peekAt k := by
  have drop (f : Token → Bool) (ts : List Token) :
      ∃ k ≤ ts.length, ts.dropWhile f = ts.drop k := by
    induction ts with
    | nil => exact ⟨0, Nat.le_refl 0, rfl⟩
    | cons t ts ih =>
      by_cases ht : f t = true
      · obtain ⟨k, hk, e⟩ := ih
        exact ⟨k + 1, Nat.succ_le_succ hk, by rw [List.dropWhile_cons_of_pos ht, e,
          List.drop_succ_cons]⟩
      · exact ⟨0, Nat.zero_le _, by rw [List.dropWhile_cons_of_neg ht, List.drop_zero]⟩
  have look (k : Nat) : (p.ahead.drop k).headD (.atEnd p.stop) = p.peekAt k := by
    rw [peekAt, List.headD_eq_head?_getD, List.head?_drop, List.getD_eq_getElem?_getD]
  unfold peekOpName
  split
  · obtain ⟨k, hk, e⟩ := drop (fun t => t.kind == .percentIdentifier || t.kind == .comma) p.ahead
    simp only [e]
    split
    · next he =>
      have hlt : k < p.ahead.length := by
        refine Nat.lt_of_le_of_ne hk ?_
        rintro rfl
        simp at he
      exact ⟨k + 1, hlt, by rw [List.tail_drop, look]⟩
    · exact ⟨k, hk, look k⟩
  · exact ⟨0, Nat.zero_le _, rfl⟩

end ParserState

namespace Parser

open ParserState

variable {α β : Type}

/-- Run in a state, the parser moves the cursor over `k` tokens at least if it succeeds. If it fails
it does not move it back either. -/
structure Advances (k : Nat) (x : Parser α) (p : ParserState) : Prop where
  ok : ∀ {s n a q}, p.At s n → x p = .ok a q → ∃ m, n + k ≤ m ∧ q.At s m
  error : ∀ {s n e q}, p.At s n → x p = .error e q → ∃ m, n ≤ m ∧ q.At s m

def Forward (k : Nat) (x : Parser α) : Prop := ∀ p, Advances k x p

namespace Advances

variable {x y : Parser α} {f : α → Parser β} {p q : ParserState} {j k : Nat} {a : α}

theorem of_eq (h : Advances k y p) (e : x p = y p) : Advances k x p :=
  ⟨fun hp hx => h.ok hp (e ▸ hx), fun hp hx => h.error hp (e ▸ hx)⟩

theorem length_le (h : Advances k x p) (e : x p = .ok a q) :
    q.ahead.length + k ≤ p.ahead.length := by
  obtain ⟨s, n, hp⟩ := p.exists_at
  obtain ⟨m, hm, hq⟩ := h.ok hp e
  have hpl := hp.length_ahead
  have hql := hq.length_ahead
  omega

theorem suffix (h : Advances k x p) (e : x p = .ok a q) : q.ahead <:+ p.ahead := by
  obtain ⟨s, n, hp⟩ := p.exists_at
  obtain ⟨m, hm, hq⟩ := h.ok hp e
  obtain ⟨d, rfl⟩ := Nat.exists_eq_add_of_le (Nat.le_of_add_right_le hm)
  rw [hq.ahead, hp.ahead, ← List.drop_drop]
  exact List.drop_suffix _ _

theorem strict (h : Advances 0 x p) (hx : ∀ a q, x p = .ok a q → q.ahead.length < p.ahead.length) :
    Advances 1 x p := by
  refine ⟨fun hp e => ?_, h.error⟩
  obtain ⟨m, hm, hq⟩ := h.ok hp e
  have hlt := hx _ _ e
  have hpl := hp.length_ahead
  have hql := hq.length_ahead
  exact ⟨m, by omega, hq⟩

theorem bind (hx : Advances j x p) (hf : ∀ a q, x p = .ok a q → Advances k (f a) q) :
    Advances (j + k) (x >>= f) p := by
  constructor
  · intro s n b q hp e
    obtain ⟨a, mid, ha, hb⟩ := bind_ok.1 e
    obtain ⟨m, hm, hmid⟩ := hx.ok hp ha
    obtain ⟨l, hl, hq⟩ := (hf a mid ha).ok hmid hb
    exact ⟨l, by omega, hq⟩
  · intro s n e q hp he
    rw [bind_apply] at he
    cases ha : x p with
    | ok a mid =>
      rw [ha] at he
      obtain ⟨m, hm, hmid⟩ := hx.ok hp ha
      obtain ⟨l, hl, hq⟩ := (hf a mid ha).error hmid he
      exact ⟨l, by omega, hq⟩
    | error e' mid =>
      rw [ha] at he
      cases he
      exact hx.error hp ha

end Advances

namespace Forward

variable {x y : Parser α} {f : α → Parser β} {k : Nat}

theorem weaken (h : Forward k x) : Forward 0 x := by
  refine fun p => ⟨fun hp e => ?_, (h p).error⟩
  obtain ⟨m, hm, hq⟩ := (h p).ok hp e
  exact ⟨m, by omega, hq⟩

protected theorem bind (hx : Forward k x) (hf : ∀ a, Forward 0 (f a)) : Forward k (x >>= f) :=
  fun p => (hx p).bind fun a q _ => hf a q

theorem skip (hx : Forward 0 x) (hf : ∀ a, Forward k (f a)) : Forward k (x >>= f) := by
  intro p
  have h := (hx p).bind fun a q _ => hf a q
  rwa [Nat.zero_add] at h

protected theorem pure (a : α) : Forward 0 (pure a) := by
  refine fun p => ⟨fun {s n b q} hp e => ?_, fun _ e => by cases e⟩
  cases e
  exact ⟨n, Nat.le_refl n, hp⟩

protected theorem throw (e : ParseError) : Forward k (throw e : Parser α) := by
  refine fun p => ⟨fun _ h => (by cases h), fun {s n e q} hp h => ?_⟩
  cases h
  exact ⟨n, Nat.le_refl n, hp⟩

protected theorem map (hx : Forward k x) (f : α → β) : Forward k (f <$> x) := by
  rw [map_eq_pure_bind]
  exact hx.bind fun a => .pure (f a)

protected theorem discard (hx : Forward k x) : Forward k (discard x) :=
  hx.map fun _ => ()

protected theorem ite {c : Prop} [Decidable c] (hx : Forward k x) (hy : Forward k y) :
    Forward k (if c then x else y) := by
  split
  · exact hx
  · exact hy

protected theorem get : Forward 0 (get : Parser ParserState) := by
  refine fun p => ⟨fun {s n b q} hp e => ?_, fun _ e => by cases e⟩
  cases e
  exact ⟨n, Nat.le_refl n, hp⟩

protected theorem modify {f : ParserState → ParserState} (ha : ∀ p, (f p).ahead = p.ahead)
    (hs : ∀ p, (f p).stop = p.stop) (hp : ∀ p, (f p).previous = p.previous) :
    Forward 0 (modify f : Parser Unit) := by
  refine fun p => ⟨fun {s n b q} h e => ?_, fun _ e => by cases e⟩
  cases e
  exact ⟨n, Nat.le_refl n, h.congr (ha p) (hs p) (hp p)⟩

end Forward

theorem forward_failAt {k : Nat} {t : Token} {cause : ParseError.Cause} :
    Forward k (failAt (α := α) t cause) := .throw _

theorem forward_failBare {k : Nat} {cause : ParseError.Cause} :
    Forward k (failBare (α := α) cause) := .throw _

theorem forward_require {c : Prop} [Decidable c] {t : Token} {cause : ParseError.Cause} :
    Forward 0 (require c t cause) := .ite (.pure ()) forward_failAt

theorem forward_peek : Forward 0 peek := .bind .get fun p => .pure p.peek

theorem forward_check {kind : Token.Kind} : Forward 0 (check kind) :=
  .bind .get fun p => .pure (p.check kind)

theorem forward_expect {kind : Token.Kind} : Forward 1 (expect kind) := by
  refine fun p => ⟨fun {s n t q} hp e => ?_, fun {s n e q} hp h => ?_⟩
  · obtain ⟨ts, ha, -, rfl⟩ := expect_ok_iff.1 e
    exact ⟨n + 1, Nat.le_refl _, hp.next ha⟩
  · have hq : q = p := by
      unfold expect at h
      split at h
      · cases h
        rfl
      · split at h
        · cases h
        · cases h
          rfl
    exact ⟨n, Nat.le_refl n, hq ▸ hp⟩

theorem forward_advance : Forward 0 advance := by
  refine fun p => ⟨fun {s n t q} hp e => ?_, fun {s n e q} hp h => ?_⟩
  · unfold advance at e
    split at e
    · cases e
      exact ⟨n, Nat.le_refl n, hp⟩
    · next ha =>
      cases e
      exact ⟨n + 1, by omega, hp.next ha⟩
  · unfold advance at h
    split at h <;> cases h

theorem forward_ifNext {kind : Token.Kind} {part : Parser α} {a : α} (h : Forward 0 part) :
    Forward 0 (ifNext kind part a) :=
  .bind forward_check fun _ => .ite h (.pure a)

theorem advances_ifNext {kind : Token.Kind} {part : Parser α} {a : α} {k : Nat} {p : ParserState}
    (h : Forward k part) (hp : p.check kind = true) : Advances k (ifNext kind part a) p := by
  refine (h p).of_eq ?_
  show (if p.check kind = true then part else pure a) p = part p
  rw [if_pos hp]

theorem ifNext_of_not_check {kind : Token.Kind} {part : Parser α} {a : α} {p : ParserState}
    (hp : p.check kind = false) : ifNext kind part a p = .ok a p := by
  show (if p.check kind = true then part else pure a) p = _
  rw [hp]
  rfl

theorem forward_keyword {word : String} : Forward 1 (keyword word) :=
  .bind forward_expect fun _ => forward_require

theorem forward_pushScope : Forward 0 pushScope :=
  .modify (fun _ => rfl) (fun _ => rfl) fun _ => rfl

theorem forward_popScope : Forward 0 popScope :=
  .modify (fun _ => rfl) (fun _ => rfl) fun _ => rfl

theorem forward_define {t : Token} {v : Value} : Forward 0 (define t v) := by
  refine .bind .get fun p => ?_
  split
  · exact forward_failBare
  · exact .ite forward_failAt (.modify (fun _ => rfl) (fun _ => rfl) fun _ => rfl)

/-! Loops. -/

/-- A property that is told in each state apart holds of a loop if it holds where the loop stops,
of a turn and of a turn with more behind it. `P` holds of what the turns start from. -/
theorem repeatUntil_rule {C : Parser β → Prop} {P : β → Prop} {stop : ParserState → Bool}
    {step : β → Parser β} (apart : ∀ x, (∀ p, ∃ y, x p = y p ∧ C y) → C x)
    (stopped : ∀ b, P b → C (pure b)) (turn : ∀ b, P b → C (step b))
    (more : ∀ b (f : β → Parser β), P b → (∀ c, P c → C (f c)) → C (step b >>= f)) {b : β}
    (hb : P b) : C (repeatUntil stop step b) := by
  have bounded (n : Nat) : ∀ b, P b → C (repeatAtMost stop step n b) := by
    induction n with
    | zero =>
      refine fun b hb => apart _ fun p => ?_
      by_cases hp : stop p = true
      · exact ⟨pure b, if_pos hp, stopped b hb⟩
      · exact ⟨step b, if_neg hp, turn b hb⟩
    | succ n ih =>
      refine fun b hb => apart _ fun p => ?_
      by_cases hp : stop p = true
      · exact ⟨pure b, if_pos hp, stopped b hb⟩
      · exact ⟨step b >>= repeatAtMost stop step n,
          (if_neg hp).trans (bind_apply (step b) _ p).symm, more b _ hb ih⟩
  exact apart _ fun p => ⟨repeatAtMost stop step p.ahead.length b, rfl, bounded _ b hb⟩

theorem forward_repeatUntil {stop : ParserState → Bool} {step : β → Parser β}
    (h : ∀ b, Forward 0 (step b)) (b : β) : Forward 0 (repeatUntil stop step b) := by
  refine repeatUntil_rule (P := fun _ => True) ?_ (fun b _ => .pure b) (fun b _ => h b)
    (fun b f _ hf => (h b).bind fun c => hf c trivial) trivial
  intro x hx p
  obtain ⟨y, e, hy⟩ := hx p
  exact (hy p).of_eq e

theorem forward_separator {close : Token.Kind} : Forward 0 (separator close) :=
  .bind forward_check fun _ => .ite (.pure ()) forward_expect.weaken.discard

def itemTurn (item : Parser α) (as : List α) : Parser (List α) :=
  return as ++ [← item]

def commaTurn (item : Parser α) (as : List α) : Parser (List α) := do
  discard advance
  return as ++ [← item]

def entryTurn (close : Token.Kind) (entry : β → Parser β) (b : β) : Parser β := do
  let b ← entry b
  separator close
  return b

theorem forward_itemTurn {k : Nat} {item : Parser α} (h : Forward k item) (as : List α) :
    Forward k (itemTurn item as) :=
  h.bind fun a => .pure (as ++ [a])

theorem forward_commaTurn {k : Nat} {item : Parser α} (h : Forward k item) (as : List α) :
    Forward k (commaTurn item as) :=
  .skip forward_advance.discard fun _ => forward_itemTurn h as

theorem forward_entryTurn {k : Nat} {close : Token.Kind} {entry : β → Parser β}
    (h : ∀ b, Forward k (entry b)) (b : β) : Forward k (entryTurn close entry b) :=
  (h b).bind fun c => .bind forward_separator fun _ => .pure c

theorem entriesUntil_eq (close : Token.Kind) (entry : β → Parser β) (b : β) :
    entriesUntil close entry b = (do
      let b ← repeatUntil (·.check close) (entryTurn close entry) b
      discard (expect close)
      return b) := rfl

theorem listUntil_eq (close : Token.Kind) (item : Parser α) :
    listUntil close item = entriesUntil close (itemTurn item) [] := rfl

theorem commaSeparated_eq (item : Parser α) : commaSeparated item = (do
    let first ← item
    repeatUntil (!·.check .comma) (commaTurn item) [first]) := rfl

theorem forward_entriesUntil {close : Token.Kind} {entry : β → Parser β}
    (h : ∀ b, Forward 0 (entry b)) (b : β) : Forward 1 (entriesUntil close entry b) := by
  rw [entriesUntil_eq]
  refine .skip (forward_repeatUntil (forward_entryTurn h) b) fun c => ?_
  exact .bind forward_expect.discard fun _ => .pure c

theorem forward_listUntil {close : Token.Kind} {item : Parser α} (h : Forward 0 item) :
    Forward 1 (listUntil close item) := by
  rw [listUntil_eq]
  exact forward_entriesUntil (forward_itemTurn h) []

theorem forward_commaSeparated {k : Nat} {item : Parser α} (h : Forward k item) :
    Forward k (commaSeparated item) := by
  rw [commaSeparated_eq]
  exact .bind h fun a => forward_repeatUntil (forward_commaTurn h.weaken) [a]

end Parser

end BrilIR
