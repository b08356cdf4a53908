import BrilIR.Proofs.Parser.Cursor

/-!
Loops and recursion as they are without their bounds. A loop whose turns go over a token each comes
to a result by itself, and a recursion that goes on behind a token only never meets its bound.
-/

namespace BrilIR.Parser

variable {α β : Type}

/-! Loops. -/

inductive Turns (stop : ParserState → Bool) (turn : β → Parser β) :
    β → ParserState → β → ParserState → Prop
  | refl (b : β) (p : ParserState) : Turns stop turn b p b p
  | next {b c d : β} {p q r : ParserState} : stop p = false → turn b p = .ok c q →
      Turns stop turn c q d r → Turns stop turn b p d r

/-- What a loop comes to that may take as many turns as it likes: behind some turns it stops, or the
next turn fails. -/
def Ends (stop : ParserState → Bool) (turn : β → Parser β) (b : β) (p : ParserState)
    (r : EStateM.Result ParseError ParserState β) : Prop :=
  ∃ c q, Turns stop turn b p c q ∧
    (stop q = true ∧ r = .ok c q ∨
      stop q = false ∧ ∃ e q', turn c q = .error e q' ∧ r = .error e q')

/-- Wherever the loop does not stop its turn goes over a token. -/
def Spends (stop : ParserState → Bool) (turn : β → Parser β) : Prop :=
  ∀ b p, stop p = false → Advances 1 (turn b) p

section Loops

variable {stop : ParserState → Bool} {turn : β → Parser β} {b c : β} {p q : ParserState}
  {r r' : EStateM.Result ParseError ParserState β}

theorem Turns.ends (ht : Turns stop turn b p c q) (h : Ends stop turn c q r) :
    Ends stop turn b p r := by
  induction ht with
  | refl => exact h
  | next hs hb _ ih =>
    obtain ⟨d, q', hd, hr⟩ := ih h
    exact ⟨d, q', .next hs hb hd, hr⟩

theorem Ends.unique (h : Ends stop turn b p r) (h' : Ends stop turn b p r') : r = r' := by
  obtain ⟨c, q, ht, hr⟩ := h
  induction ht with
  | refl b p =>
    obtain ⟨c', q', ht', hr'⟩ := h'
    cases ht' with
    | refl =>
      obtain ⟨hs, rfl⟩ | ⟨hs, e, q, he, rfl⟩ := hr
      · obtain ⟨-, rfl⟩ | ⟨hs', -⟩ := hr'
        · rfl
        · rw [hs] at hs'
          cases hs'
      · obtain ⟨hs', -⟩ | ⟨-, e', q', he', rfl⟩ := hr'
        · rw [hs] at hs'
          cases hs'
        · rw [he] at he'
          cases he'
          rfl
    | next hs' hb _ =>
      obtain ⟨hs, -⟩ | ⟨-, e, q, he, -⟩ := hr
      · rw [hs] at hs'
        cases hs'
      · rw [he] at hb
        cases hb
  | next hs hb _ ih =>
    obtain ⟨c', q', ht', hr'⟩ := h'
    cases ht' with
    | refl =>
      obtain ⟨hs', -⟩ | ⟨-, e, q, he, -⟩ := hr'
      · rw [hs] at hs'
        cases hs'
      · rw [he] at hb
        cases hb
    | next _ hb' ht' =>
      rw [hb] at hb'
      cases hb'
      exact ih ⟨c', q', ht', hr'⟩ hr

theorem Spends.suffix (h : Spends stop turn) (ht : Turns stop turn b p c q) :
    q.ahead <:+ p.ahead := by
  induction ht with
  | refl => exact List.suffix_refl _
  | next hs hb _ ih => exact ih.trans ((h _ _ hs).suffix hb)

/-- As many turns as there are tokens are enough. -/
theorem Spends.ends_repeatAtMost (h : Spends stop turn) (n : Nat) :
    ∀ b p, p.ahead.length ≤ n → Ends stop turn b p (repeatAtMost stop turn n b p) := by
  have stopped {b : β} {p : ParserState} (hs : stop p = true) : Ends stop turn b p (.ok b p) :=
    ⟨b, p, .refl b p, .inl ⟨hs, rfl⟩⟩
  have failed {b : β} {p q : ParserState} {e : ParseError} (hs : stop p = false)
      (he : turn b p = .error e q) : Ends stop turn b p (.error e q) :=
    ⟨b, p, .refl b p, .inr ⟨hs, e, q, he, rfl⟩⟩
  induction n with
  | zero =>
    intro b p hn
    simp only [repeatAtMost]
    cases hs : stop p with
    | true => exact stopped hs
    | false =>
      cases ht : turn b p with
      | error e q => exact failed hs ht
      | ok c q =>
        have := (h b p hs).length_le ht
        omega
  | succ n ih =>
    intro b p hn
    simp only [repeatAtMost]
    cases hs : stop p with
    | true => exact stopped hs
    | false =>
      cases ht : turn b p with
      | error e q => exact failed hs ht
      | ok c q =>
        have hlength := (h b p hs).length_le ht
        exact Turns.ends (.next hs ht (.refl c q)) (ih c q (by omega))

theorem Spends.ends (h : Spends stop turn) (b : β) (p : ParserState) :
    Ends stop turn b p (repeatUntil stop turn b p) :=
  h.ends_repeatAtMost p.ahead.length b p (Nat.le_refl _)

theorem Spends.length_lt (h : Spends stop turn) (hp : stop p = false)
    (e : repeatUntil stop turn b p = .ok c q) : q.ahead.length < p.ahead.length := by
  obtain ⟨d, q', ht, hr⟩ := h.ends b p
  rw [e] at hr
  obtain ⟨hs, hr⟩ | ⟨-, _, _, -, hr⟩ := hr
  · cases hr
    cases ht with
    | refl =>
      rw [hp] at hs
      cases hs
    | next _ hb ht =>
      have hfirst := (h b p hp).length_le hb
      have hrest := (h.suffix ht).length_le
      omega
  · cases hr

end Loops

/-! Loops up to a closing token. -/

section Closing

variable {close : Token.Kind} {turn : β → Parser β} {b c : β} {p q : ParserState}

theorem Spends.check_close (h : Spends (·.check close) turn)
    (e : repeatUntil (·.check close) turn b p = .ok c q) : q.check close = true := by
  obtain ⟨d, q', -, hr⟩ := h.ends b p
  rw [e] at hr
  obtain ⟨hs, hr⟩ | ⟨-, _, _, -, hr⟩ := hr
  · cases hr
    exact hs
  · cases hr

theorem Spends.error_of_isAtEnd (h : Spends (·.check close) turn)
    (ht : Turns (·.check close) turn b p c q) (hq : q.isAtEnd = true) :
    ∃ e q', repeatUntil (·.check close) turn b p = .error e q' := by
  have hnil : q.ahead = [] := List.isEmpty_iff.1 hq
  have hs : q.check close = false := by simp [ParserState.check, hnil]
  cases hc : turn c q with
  | ok d q' =>
    have hlength := (h c q hs).length_le hc
    rw [hnil] at hlength
    exact absurd hlength (Nat.not_succ_le_zero _)
  | error e q' =>
    have hends := ht.ends ⟨c, q, .refl c q, .inr ⟨hs, e, q', hc, rfl⟩⟩
    exact ⟨e, q', (h.ends b p).unique hends⟩

theorem Spends.error_of_missing (h : Spends (·.check close) turn)
    (hp : ∀ t ∈ p.ahead, t.kind ≠ close) :
    ∃ e q, repeatUntil (·.check close) turn b p = .error e q := by
  cases hr : repeatUntil (·.check close) turn b p with
  | error e q => exact ⟨e, q, rfl⟩
  | ok c q =>
    obtain ⟨t, ts, ht, hk⟩ := check_iff.1 (h.check_close hr)
    obtain ⟨d, q', hd, hends⟩ := h.ends b p
    rw [hr] at hends
    obtain ⟨-, e⟩ | ⟨-, _, _, -, e⟩ := hends
    · cases e
      have hmem : t ∈ p.ahead := (h.suffix hd).subset (by simp [ht])
      exact absurd hk (hp t hmem)
    · cases e

structure Closes (close : Token.Kind) (turn : β → Parser β) : Prop where
  check : ∀ {b p c q}, repeatUntil (·.check close) turn b p = .ok c q → q.check close = true
  atEnd : ∀ {b p c q}, Turns (·.check close) turn b p c q → q.isAtEnd = true →
    ∃ e q', repeatUntil (·.check close) turn b p = .error e q'
  missing : ∀ {b p}, (∀ t ∈ p.ahead, t.kind ≠ close) →
    ∃ e q, repeatUntil (·.check close) turn b p = .error e q

theorem Spends.closes (h : Spends (·.check close) turn) : Closes close turn :=
  ⟨h.check_close, h.error_of_isAtEnd, h.error_of_missing⟩

end Closing

/-! Recursion. -/

/-- The body asks for the parser that it is given only where fewer tokens are ahead. -/
def Descends (body : Parser α → Parser α) : Prop :=
  ∀ {g g' : Parser α} {p : ParserState}, Forward 0 g →
    (∀ q : ParserState, q.ahead.length < p.ahead.length → g q = g' q) → body g p = body g' p

/-- The parser is the one that is read by this body, as deep as it goes: there is no endless descent
and no bound on its depth. -/
structure Recursion (body : Parser α → Parser α) (f : Parser α) : Prop where
  descends : Descends body
  unfold : f = body f
  unique : ∀ {g : Parser α}, Forward 0 g → g = body g → g = f

theorem Descends.unique {body : Parser α → Parser α} {f g : Parser α} (h : Descends body)
    (hf : f = body f) (hforward : Forward 0 g) (hg : g = body g) : g = f := by
  have agree (n : Nat) : ∀ p : ParserState, p.ahead.length < n → g p = f p := by
    induction n with
    | zero => exact fun p hp => absurd hp (Nat.not_lt_zero _)
    | succ n ih =>
      intro p hp
      rw [hg, hf]
      exact h hforward fun q hq => ih q (by omega)
  exact funext fun p => agree (p.ahead.length + 1) p (Nat.lt_succ_self _)

/-- A bounded recursion, begun with a bound for each token, is the one without a bound. -/
theorem Descends.recursion {body : Parser α → Parser α} {within : Nat → Parser α}
    (h : Descends body) (hzero : ∀ g p, p.ahead = [] → within 0 p = body g p)
    (hsucc : ∀ n, within (n + 1) = body (within n)) (hforward : ∀ n, Forward 0 (within n)) :
    Recursion body fun p => within p.ahead.length p := by
  -- More than a bound for each token does not matter.
  have enough (n : Nat) : ∀ p : ParserState, p.ahead.length ≤ n →
      within n p = within p.ahead.length p := by
    induction n using Nat.strongRecOn with
    | ind n ih =>
      intro p hp
      cases n with
      | zero => rw [Nat.le_zero.1 hp]
      | succ n =>
        cases hl : p.ahead.length with
        | zero =>
          rw [hsucc, hzero (within n) p (List.length_eq_zero_iff.1 hl)]
        | succ m =>
          rw [hsucc, hsucc]
          refine h (hforward n) fun q hq => ?_
          rw [ih n (Nat.lt_succ_self n) q (by omega), ih m (by omega) q (by omega)]
  have unfold : (fun p : ParserState => within p.ahead.length p) =
      body fun p => within p.ahead.length p := by
    funext p
    cases hl : p.ahead.length with
    | zero => exact hzero _ p (List.length_eq_zero_iff.1 hl)
    | succ n =>
      rw [hsucc]
      exact h (hforward n) fun q hq => enough n q (by omega)
  exact ⟨h, unfold, h.unique unfold⟩

theorem bind_congr {x y : Parser α} {f g : α → Parser β} {p : ParserState} (hx : x p = y p)
    (hf : ∀ a q, x p = .ok a q → f a q = g a q) : (x >>= f) p = (y >>= g) p := by
  rw [bind_apply, bind_apply, ← hx]
  cases h : x p with
  | ok a q => exact hf a q h
  | error e q => rfl

theorem repeatUntil_congr {stop : ParserState → Bool} {turn turn' : β → Parser β} {n : Nat}
    (hforward : ∀ b, Forward 0 (turn b))
    (h : ∀ b (q : ParserState), q.ahead.length < n → turn b q = turn' b q) (b : β)
    {p : ParserState} (hp : p.ahead.length < n) :
    repeatUntil stop turn b p = repeatUntil stop turn' b p := by
  have bounded (m : Nat) : ∀ b (q : ParserState), q.ahead.length < n →
      repeatAtMost stop turn m b q = repeatAtMost stop turn' m b q := by
    induction m with
    | zero =>
      intro b q hq
      simp only [repeatAtMost, h b q hq]
    | succ m ih =>
      intro b q hq
      simp only [repeatAtMost]
      rw [← h b q hq]
      cases ht : turn b q with
      | error e r => rfl
      | ok c r =>
        have hlength := (hforward b q).length_le ht
        simp only [ih c r (by omega)]
  exact bounded p.ahead.length b p hp

end BrilIR.Parser
