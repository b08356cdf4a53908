import BrilIR.Parser.Basic

/-!
Parsers as relations. A parser denotes a relation when it succeeds exactly where the relation holds
between the scopes and tokens before, the result, and the scopes and tokens after. Each combinator
has one lemma here, so a parser is understood from its parts and never run by hand.
-/

namespace BrilIR.Parser

variable {α β : Type}

/-- Scopes and tokens before, result, scopes and tokens after. -/
abbrev Reading (α : Type) :=
  List Scope → List Token → α → List Scope → List Token → Prop

/-- The parser succeeds exactly where the relation holds. -/
def Denotes (p : Parser α) (R : Reading α) : Prop :=
  ∀ s a σ rest,
    (∃ s', p s = .ok a s' ∧ s'.scopes = σ ∧ s'.ahead = rest) ↔ R s.scopes s.ahead a σ rest

/-- A reading that has nothing to do with scopes. -/
def Plain (G : List Token → α → List Token → Prop) : Reading α :=
  fun σ ts a σ' rest => σ' = σ ∧ G ts a rest

def StartsWith (kind : Token.Kind) (ts : List Token) : Prop :=
  ∃ t rest, ts = t :: rest ∧ t.kind = kind

def Beyond (ts rest : List Token) : Prop := ∃ t, t :: rest <:+ ts

/-- Reading goes over at least one token, and over nothing but tokens. -/
def Consumes (R : Reading α) : Prop :=
  ∀ {σ ts a σ' rest}, R σ ts a σ' rest → Beyond ts rest

namespace Beyond

variable {ts mid rest : List Token} {t : Token}

theorem of_eq (h : ts = t :: rest) : Beyond ts rest := ⟨t, h ▸ List.suffix_refl _⟩

theorem suffix (h : Beyond ts rest) : rest <:+ ts := by
  obtain ⟨t, h⟩ := h
  exact (List.suffix_cons t rest).trans h

theorem length_lt (h : Beyond ts rest) : rest.length < ts.length := by
  obtain ⟨t, h⟩ := h
  exact h.length_le

theorem suffix_trans (h : mid <:+ ts) (hr : Beyond mid rest) : Beyond ts rest := by
  obtain ⟨t, hr⟩ := hr
  exact ⟨t, hr.trans h⟩

theorem trans_suffix (h : Beyond ts mid) (hr : rest <:+ mid) : Beyond ts rest := by
  obtain ⟨t, h⟩ := h
  obtain ⟨us, rfl⟩ := hr
  cases us with
  | nil => exact ⟨t, h⟩
  | cons u us =>
    have hs : (u :: us).getLast (by simp) :: rest <:+ u :: us ++ rest := by
      refine ⟨(u :: us).dropLast, ?_⟩
      rw [List.append_cons, List.dropLast_concat_getLast]
    exact ⟨_, hs.trans ((List.suffix_cons t _).trans h)⟩

theorem trans (h : Beyond ts mid) (hr : Beyond mid rest) : Beyond ts rest :=
  h.trans_suffix hr.suffix

theorem next (h : Beyond ts (t :: rest)) : Beyond ts rest :=
  h.trans_suffix (List.suffix_cons t rest)

end Beyond

@[simp] theorem startsWith_nil {kind : Token.Kind} : ¬ StartsWith kind [] := by
  simp [StartsWith]

@[simp] theorem startsWith_cons {kind : Token.Kind} {t : Token} {ts : List Token} :
    StartsWith kind (t :: ts) ↔ t.kind = kind := by
  simp [StartsWith]

theorem StartsWith.not {kind kind' : Token.Kind} {ts : List Token} (h : StartsWith kind ts)
    (hne : kind ≠ kind') : ¬ StartsWith kind' ts := by
  obtain ⟨t, mid, rfl, hk⟩ := h
  rw [startsWith_cons, hk]
  exact hne

theorem check_iff {kind : Token.Kind} {s : ParserState} :
    s.check kind = true ↔ StartsWith kind s.ahead := by
  unfold ParserState.check
  cases s.ahead with
  | nil => simp
  | cons t ts => simp

theorem bind_apply (p : Parser α) (f : α → Parser β) (s : ParserState) :
    (p >>= f) s = match p s with
      | .ok a s₁ => f a s₁
      | .error e s₁ => .error e s₁ := by
  show EStateM.bind p f s = _
  unfold EStateM.bind
  cases p s <;> rfl

theorem bind_ok {p : Parser α} {f : α → Parser β} {s s' : ParserState} {b : β} :
    (p >>= f) s = .ok b s' ↔ ∃ a s₁, p s = .ok a s₁ ∧ f a s₁ = .ok b s' := by
  rw [bind_apply]
  cases h : p s with
  | ok a s₁ =>
    constructor
    · intro hf
      exact ⟨a, s₁, rfl, hf⟩
    · rintro ⟨_, _, e, hf⟩
      cases e
      exact hf
  | error e s₁ => simp

theorem get_bind_ok {f : ParserState → Parser α} {s s' : ParserState} {a : α} :
    (get >>= f) s = .ok a s' ↔ f s s = .ok a s' :=
  Iff.rfl

theorem discard_ok {p : Parser α} {s s' : ParserState} :
    discard p s = .ok () s' ↔ ∃ a, p s = .ok a s' := by
  show (Functor.discard p : Parser Unit) s = _ ↔ _
  rw [show Functor.discard p = p >>= fun _ => pure () from rfl, bind_ok]
  constructor
  · rintro ⟨a, s₁, h, e⟩
    cases e
    exact ⟨a, h⟩
  · rintro ⟨a, h⟩
    exact ⟨a, s', h, rfl⟩

namespace Denotes

theorem of_iff {p : Parser α} {R S : Reading α} (hp : Denotes p R)
    (h : ∀ σ ts a σ' rest, R σ ts a σ' rest ↔ S σ ts a σ' rest) : Denotes p S :=
  fun s a σ rest => (hp s a σ rest).trans (h ..)

theorem apply_ok {p : Parser α} {R : Reading α} (hp : Denotes p R) {s s' : ParserState} {a : α}
    (h : p s = .ok a s') : R s.scopes s.ahead a s'.scopes s'.ahead :=
  (hp s a s'.scopes s'.ahead).1 ⟨s', h, rfl, rfl⟩

theorem exists_ok {p : Parser α} {R : Reading α} (hp : Denotes p R) {s : ParserState} {a : α}
    {σ : List Scope} {rest : List Token} (h : R s.scopes s.ahead a σ rest) :
    ∃ s', p s = .ok a s' ∧ s'.scopes = σ ∧ s'.ahead = rest :=
  (hp s a σ rest).2 h

theorem unique {p : Parser α} {R : Reading α} (hp : Denotes p R) {σ σ₁ σ₂ : List Scope}
    {ts rest rest' : List Token} {a b : α} (h : R σ ts a σ₁ rest) (h' : R σ ts b σ₂ rest') :
    a = b ∧ rest = rest' := by
  let s : ParserState := ⟨.atEnd .origin, ts, .origin, σ, []⟩
  obtain ⟨s₁, e₁, -, rfl⟩ := hp.exists_ok (s := s) h
  obtain ⟨s₂, e₂, -, rfl⟩ := hp.exists_ok (s := s) h'
  cases e₁.symm.trans e₂
  exact ⟨rfl, rfl⟩

theorem bind {p : Parser α} {f : α → Parser β} {P : Reading α} {F : α → Reading β}
    (hp : Denotes p P) (hf : ∀ a, Denotes (f a) (F a)) :
    Denotes (p >>= f) fun σ ts b σ' rest =>
      ∃ a σ₁ mid, P σ ts a σ₁ mid ∧ F a σ₁ mid b σ' rest := by
  intro s b σ rest
  constructor
  · rintro ⟨s', h, rfl, rfl⟩
    obtain ⟨a, s₁, h₁, h₂⟩ := bind_ok.1 h
    exact ⟨a, s₁.scopes, s₁.ahead, hp.apply_ok h₁, (hf a).apply_ok h₂⟩
  · rintro ⟨a, σ₁, mid, h₁, h₂⟩
    obtain ⟨s₁, e₁, rfl, rfl⟩ := hp.exists_ok h₁
    obtain ⟨s', e₂, hσ, hr⟩ := (hf a).exists_ok h₂
    exact ⟨s', bind_ok.2 ⟨a, s₁, e₁, e₂⟩, hσ, hr⟩

protected theorem pure (a : α) :
    Denotes (pure a) (Plain fun ts b rest => b = a ∧ rest = ts) := by
  intro s b σ rest
  constructor
  · rintro ⟨s', h, rfl, rfl⟩
    cases h
    exact ⟨rfl, rfl, rfl⟩
  · rintro ⟨rfl, rfl, rfl⟩
    exact ⟨s, rfl, rfl, rfl⟩

theorem map {p : Parser α} {P : Reading α} (hp : Denotes p P) (f : α → β) :
    Denotes (f <$> p) fun σ ts b σ' rest => ∃ a, P σ ts a σ' rest ∧ b = f a := by
  rw [map_eq_pure_bind]
  refine (hp.bind fun a => .pure (f a)).of_iff fun σ ts b σ' rest => ?_
  constructor
  · rintro ⟨a, _, _, h, rfl, rfl, rfl⟩
    exact ⟨a, h, rfl⟩
  · rintro ⟨a, h, rfl⟩
    exact ⟨a, σ', rest, h, rfl, rfl, rfl⟩

protected theorem discard {p : Parser α} {P : Reading α} (hp : Denotes p P) :
    Denotes (discard p) fun σ ts _ σ' rest => ∃ a, P σ ts a σ' rest :=
  (hp.map fun _ => ()).of_iff fun _ _ _ _ _ =>
    ⟨fun ⟨a, h, _⟩ => ⟨a, h⟩, fun ⟨a, h⟩ => ⟨a, h, rfl⟩⟩

protected theorem ite {c : Prop} [Decidable c] {p q : Parser α} {P Q : Reading α}
    (hp : Denotes p P) (hq : Denotes q Q) :
    Denotes (if c then p else q) fun σ ts a σ' rest =>
      (c ∧ P σ ts a σ' rest) ∨ (¬ c ∧ Q σ ts a σ' rest) := by
  by_cases h : c
  · simpa [h] using hp
  · simpa [h] using hq

protected theorem fail {p : Parser α} (h : ∀ s, ∃ e s', p s = .error e s') :
    Denotes p fun _ _ _ _ _ => False := by
  intro s a σ rest
  obtain ⟨e, s', h⟩ := h s
  simp [h]

theorem get_bind {f : ParserState → Parser α} {R : Reading α} (h : ∀ s, Denotes (f s) R) :
    Denotes (do f (← get)) R := by
  intro s a σ rest
  exact h s s a σ rest

/-- What begins with a look at the next token and cannot succeed at the end of the source. -/
theorem peek_bind {f : Token → Parser α} {F : Token → Reading α} (hf : ∀ t, Denotes (f t) (F t))
    (hend : ∀ {t}, t.kind = .eof → ∀ {σ a σ' rest}, ¬ F t σ [] a σ' rest) :
    Denotes (do f (← peek)) fun σ ts a σ' rest =>
      ∃ t mid, ts = t :: mid ∧ F t σ ts a σ' rest := by
  intro s a σ rest
  refine (hf s.peek s a σ rest).trans ?_
  cases h : s.ahead with
  | nil =>
    have he : s.peek.kind = .eof := by simp [ParserState.peek, ParserState.peekAt, h, Token.atEnd]
    simpa using hend he
  | cons t ts => simp [ParserState.peek, ParserState.peekAt, h]

end Denotes

theorem denotes_failAt {t : Token} {cause : ParseError.Cause} :
    Denotes (failAt (α := α) t cause) fun _ _ _ _ _ => False :=
  .fail fun s => ⟨_, s, rfl⟩

theorem denotes_require {c : Prop} [Decidable c] {t : Token} {cause : ParseError.Cause} :
    Denotes (require c t cause) fun σ ts _ σ' rest => c ∧ σ' = σ ∧ rest = ts := by
  refine (Denotes.ite (.pure ()) denotes_failAt).of_iff fun σ ts a σ' rest => ?_
  simp [Plain]

theorem expect_ok_iff {kind : Token.Kind} {s s' : ParserState} {t : Token} :
    expect kind s = .ok t s' ↔
      ∃ ts, s.ahead = t :: ts ∧ t.kind = kind ∧ s' = { s with previous := t, ahead := ts } := by
  obtain ⟨previous, ahead, stop, scopes, begun⟩ := s
  cases ahead with
  | nil =>
    constructor
    · intro e
      cases e
    · rintro ⟨_, e, -⟩
      cases e
  | cons u us =>
    by_cases hk : u.kind = kind
    · simp only [expect, if_pos hk]
      constructor
      · intro e
        cases e
        exact ⟨us, rfl, hk, rfl⟩
      · rintro ⟨_, e, -, rfl⟩
        cases e
        rfl
    · simp only [expect, if_neg hk]
      constructor
      · intro e
        cases e
      · rintro ⟨_, e, ht, -⟩
        cases e
        exact absurd ht hk

theorem denotes_expect {kind : Token.Kind} :
    Denotes (expect kind) (Plain fun ts t rest => ts = t :: rest ∧ t.kind = kind) := by
  intro s t σ rest
  constructor
  · rintro ⟨s', h, rfl, rfl⟩
    obtain ⟨ts, e, hk, rfl⟩ := expect_ok_iff.1 h
    exact ⟨rfl, e, hk⟩
  · rintro ⟨rfl, e, hk⟩
    exact ⟨_, expect_ok_iff.2 ⟨rest, e, hk, rfl⟩, rfl, rfl⟩

theorem denotes_check_ite {kind : Token.Kind} {p q : Parser α} {P Q : Reading α}
    (hp : Denotes p P) (hq : Denotes q Q) :
    Denotes (do if ← check kind then p else q) fun σ ts a σ' rest =>
      (StartsWith kind ts ∧ P σ ts a σ' rest) ∨ (¬ StartsWith kind ts ∧ Q σ ts a σ' rest) := by
  intro s a σ rest
  show (∃ s', (if s.check kind = true then p else q) s = .ok a s' ∧ _) ↔ _
  simpa only [check_iff] using (Denotes.ite (c := s.check kind = true) hp hq) s a σ rest

theorem denotes_ifNext {kind : Token.Kind} {part : Parser α} {a : α} {P : Reading α}
    (h : Denotes part P) :
    Denotes (ifNext kind part a) fun σ ts b σ' rest =>
      (StartsWith kind ts ∧ P σ ts b σ' rest) ∨
        (¬ StartsWith kind ts ∧ σ' = σ ∧ b = a ∧ rest = ts) :=
  denotes_check_ite h (.pure a)

theorem denotes_keyword {word : String} :
    Denotes (keyword word) (Plain fun ts _ rest =>
      ∃ t, ts = t :: rest ∧ t.kind = .bareIdentifier ∧ t.lexeme = word) := by
  refine (denotes_expect.bind fun t => denotes_require).of_iff fun σ ts a σ' rest => ?_
  constructor
  · rintro ⟨t, σ₁, mid, ⟨rfl, rfl, hk⟩, hw, rfl, rfl⟩
    exact ⟨rfl, t, rfl, hk, hw⟩
  · rintro ⟨rfl, t, rfl, hk, hw⟩
    exact ⟨t, σ', rest, ⟨rfl, rfl, hk⟩, hw, rfl, rfl⟩

/-! Loops. -/

inductive Loop (stop : List Token → Prop) (step : β → Reading β) : β → Reading β
  | done {b σ ts} : stop ts → Loop stop step b σ ts b σ ts
  | turn {b c d σ σ₁ σ' ts mid rest} : ¬ stop ts → step b σ ts c σ₁ mid →
      Loop stop step c σ₁ mid d σ' rest → Loop stop step b σ ts d σ' rest

theorem Loop.stop_rest {stop : List Token → Prop} {step : β → Reading β} {b d : β}
    {σ σ' : List Scope} {ts rest : List Token} (h : Loop stop step b σ ts d σ' rest) :
    stop rest := by
  induction h with
  | done h => exact h
  | turn _ _ _ ih => exact ih

theorem loop_iff_of_stop {stop : List Token → Prop} {step : β → Reading β} {b d : β}
    {σ σ' : List Scope} {ts rest : List Token} (h : stop ts) :
    Loop stop step b σ ts d σ' rest ↔
      Plain (fun ts d rest => d = b ∧ rest = ts) σ ts d σ' rest := by
  constructor
  · intro hl
    cases hl with
    | done _ => exact ⟨rfl, rfl, rfl⟩
    | turn hn _ _ => exact absurd h hn
  · rintro ⟨rfl, rfl, rfl⟩
    exact .done h

theorem loop_iff_of_not_stop {stop : List Token → Prop} {step : β → Reading β} {b d : β}
    {σ σ' : List Scope} {ts rest : List Token} (h : ¬ stop ts) :
    Loop stop step b σ ts d σ' rest ↔
      ∃ c σ₁ mid, step b σ ts c σ₁ mid ∧ Loop stop step c σ₁ mid d σ' rest := by
  constructor
  · intro hl
    cases hl with
    | done hs => exact absurd hs h
    | turn _ hc hl => exact ⟨_, _, _, hc, hl⟩
  · rintro ⟨c, σ₁, mid, hc, hl⟩
    exact .turn h hc hl

/-- Bounded turns suffice when each of them consumes a token. -/
theorem denotes_repeatAtMost {stop : ParserState → Bool} {stops : List Token → Prop}
    {step : β → Parser β} {R : β → Reading β} (hstop : ∀ s, stop s = true ↔ stops s.ahead)
    (hstep : ∀ b, Denotes (step b) (R b))
    (hR : ∀ {b σ ts c σ' rest}, ¬ stops ts → R b σ ts c σ' rest → Beyond ts rest) (n : Nat) :
    ∀ b s d σ rest, s.ahead.length ≤ n →
      ((∃ s', repeatAtMost stop step n b s = .ok d s' ∧ s'.scopes = σ ∧ s'.ahead = rest) ↔
        Loop stops R b s.scopes s.ahead d σ rest) := by
  -- a turn lowers the number of tokens ahead, so the bound stays above it
  induction n with
  | zero =>
    intro b s d σ rest hn
    by_cases hs : stop s = true
    · rw [loop_iff_of_stop ((hstop s).1 hs)]
      simp only [repeatAtMost, hs, if_true]
      exact Denotes.pure b s d σ rest
    · have hs' : ¬ stops s.ahead := fun h => hs ((hstop s).2 h)
      have hno : ∀ c σ₁ mid, ¬ R b s.scopes s.ahead c σ₁ mid := by
        intro c σ₁ mid h
        have := (hR hs' h).length_lt
        omega
      rw [loop_iff_of_not_stop hs']
      simp only [repeatAtMost, hs]
      constructor
      · intro h
        exact absurd ((hstep b s d σ rest).1 h) (hno _ _ _)
      · rintro ⟨c, σ₁, mid, h, _⟩
        exact absurd h (hno _ _ _)
  | succ n ih =>
    intro b s d σ rest hn
    by_cases hs : stop s = true
    · rw [loop_iff_of_stop ((hstop s).1 hs)]
      simp only [repeatAtMost, hs, if_true]
      exact Denotes.pure b s d σ rest
    · have hs' : ¬ stops s.ahead := fun h => hs ((hstop s).2 h)
      have hlen : ∀ c (s₁ : ParserState), R b s.scopes s.ahead c s₁.scopes s₁.ahead →
          s₁.ahead.length ≤ n := by
        intro c s₁ h
        have := (hR hs' h).length_lt
        omega
      rw [loop_iff_of_not_stop hs']
      simp only [repeatAtMost, hs]
      constructor
      · rintro ⟨s', e, rfl, rfl⟩
        cases h : step b s with
        | error _ _ => simp [h] at e
        | ok c s₁ =>
          have hc := (hstep b).apply_ok h
          simp only [h] at e
          exact ⟨c, _, _, hc, (ih c s₁ d _ _ (hlen c s₁ hc)).1 ⟨s', e, rfl, rfl⟩⟩
      · rintro ⟨c, σ₁, mid, hc, hl⟩
        obtain ⟨s₁, e, rfl, rfl⟩ := (hstep b).exists_ok hc
        obtain ⟨s', e', hσ, hr⟩ := (ih c s₁ d σ rest (hlen c s₁ hc)).2 hl
        exact ⟨s', by simpa [e] using e', hσ, hr⟩

theorem denotes_repeatUntil {stop : ParserState → Bool} {stops : List Token → Prop}
    {step : β → Parser β} {R : β → Reading β} (hstop : ∀ s, stop s = true ↔ stops s.ahead)
    (hstep : ∀ b, Denotes (step b) (R b))
    (hR : ∀ {b σ ts c σ' rest}, ¬ stops ts → R b σ ts c σ' rest → Beyond ts rest) (b : β) :
    Denotes (repeatUntil stop step b) (Loop stops R b) :=
  fun s d σ rest => denotes_repeatAtMost hstop hstep hR _ b s d σ rest (Nat.le_refl _)

inductive Many (stop : List Token → Prop) (item : Reading α) : Reading (List α)
  | nil {σ ts} : stop ts → Many stop item σ ts [] σ ts
  | cons {a as σ σ₁ σ' ts mid rest} : ¬ stop ts → item σ ts a σ₁ mid →
      Many stop item σ₁ mid as σ' rest → Many stop item σ ts (a :: as) σ' rest

/-- A list up to and including the closing token, with commas between the items. One more comma may
stand behind the last item. -/
inductive Listed (close : Token.Kind) (item : Reading α) : Reading (List α)
  | nil {σ t rest} : t.kind = close → Listed close item σ (t :: rest) [] σ rest
  | last {a σ σ' ts t rest} : item σ ts a σ' (t :: rest) → t.kind = close →
      Listed close item σ ts [a] σ' rest
  | cons {a as σ σ₁ σ' ts t mid rest} : item σ ts a σ₁ (t :: mid) → t.kind = .comma →
      Listed close item σ₁ mid as σ' rest → Listed close item σ ts (a :: as) σ' rest

inductive Separated (item : Reading α) : Reading (List α)
  | last {a σ σ' ts rest} : item σ ts a σ' rest → ¬ StartsWith .comma rest →
      Separated item σ ts [a] σ' rest
  | cons {a as σ σ₁ σ' ts t mid rest} : item σ ts a σ₁ (t :: mid) → t.kind = .comma →
      Separated item σ₁ mid as σ' rest → Separated item σ ts (a :: as) σ' rest

theorem loop_append_iff {stop : List Token → Prop} {item : Reading α} {as bs : List α}
    {σ σ' : List Scope} {ts rest : List Token} :
    Loop stop (fun as σ ts bs σ' rest => ∃ a, item σ ts a σ' rest ∧ bs = as ++ [a]) as σ ts bs σ'
      rest ↔ ∃ cs, bs = as ++ cs ∧ Many stop item σ ts cs σ' rest := by
  constructor
  · intro h
    induction h with
    | done h => exact ⟨[], by simp, .nil h⟩
    | turn hs hi _ ih =>
      obtain ⟨a, ha, rfl⟩ := hi
      obtain ⟨cs, rfl, hc⟩ := ih
      exact ⟨a :: cs, by simp, .cons hs ha hc⟩
  · rintro ⟨cs, rfl, h⟩
    induction h generalizing as with
    | nil h => simpa using .done h
    | @cons a cs _ _ _ _ _ _ hs ha _ ih =>
      refine .turn hs ⟨a, ha, rfl⟩ ?_
      simpa using @ih (as ++ [a])

/-- Entries of a list, each of which changes what the entries before it came to. -/
inductive ListedFrom (close : Token.Kind) (entry : β → Reading β) : β → Reading β
  | nil {b σ t rest} : t.kind = close → ListedFrom close entry b σ (t :: rest) b σ rest
  | last {b c σ σ' ts t rest} : entry b σ ts c σ' (t :: rest) → t.kind = close →
      ListedFrom close entry b σ ts c σ' rest
  | cons {b c d σ σ₁ σ' ts t mid rest} : entry b σ ts c σ₁ (t :: mid) → t.kind = .comma →
      ListedFrom close entry c σ₁ mid d σ' rest → ListedFrom close entry b σ ts d σ' rest

theorem denotes_separator {close : Token.Kind} :
    Denotes (separator close) fun σ ts _ σ' rest =>
      (StartsWith close ts ∧ σ' = σ ∧ rest = ts) ∨
        (¬ StartsWith close ts ∧ σ' = σ ∧ ∃ t, ts = t :: rest ∧ t.kind = .comma) := by
  refine (denotes_check_ite (.pure ()) denotes_expect.discard).of_iff fun σ ts a σ' rest => ?_
  simp [Plain]

def entryThenSeparator (close : Token.Kind) (R : Reading β) : Reading β :=
  fun σ ts c σ' rest => ∃ mid, R σ ts c σ' mid ∧
    ((StartsWith close mid ∧ rest = mid) ∨
      (¬ StartsWith close mid ∧ ∃ t, mid = t :: rest ∧ t.kind = .comma))

theorem loop_entries_iff {close : Token.Kind} {R : β → Reading β} (hcomma : close ≠ .comma)
    (hopen : ∀ {b σ t ts c σ' rest}, R b σ (t :: ts) c σ' rest → t.kind ≠ close)
    {b c : β} {σ σ' : List Scope} {ts rest : List Token} :
    (∃ t, Loop (StartsWith close) (fun b => entryThenSeparator close (R b)) b σ ts c σ'
        (t :: rest)) ↔
      ListedFrom close R b σ ts c σ' rest := by
  constructor
  · rintro ⟨t, h⟩
    generalize hr : t :: rest = r at h
    induction h with
    | done h =>
      subst hr
      exact .nil (startsWith_cons.1 h)
    | turn _ he hl ih =>
      obtain ⟨mid, hb, ⟨⟨u, us, rfl, hu⟩, rfl⟩ | ⟨_, u, rfl, hu⟩⟩ := he
      · cases hl with
        | done _ =>
          cases hr
          exact .last hb hu
        | turn h _ _ => exact absurd (startsWith_cons.2 hu) h
      · exact .cons hb hu (ih hr)
  · have not_close {b σ ts c σ' rest} (h : R b σ ts c σ' rest) : ¬ StartsWith close ts := by
      rintro ⟨t, ts, rfl, ht⟩
      exact hopen h ht
    intro h
    induction h with
    | @nil b σ t rest ht => exact ⟨t, .done (startsWith_cons.2 ht)⟩
    | @last b c σ σ' ts t rest hb ht =>
      exact ⟨t, .turn (not_close hb) ⟨_, hb, .inl ⟨startsWith_cons.2 ht, rfl⟩⟩
        (.done (startsWith_cons.2 ht))⟩
    | @cons b c d σ σ₁ σ' ts t mid rest hb ht _ ih =>
      obtain ⟨u, hl⟩ := ih
      have hn : ¬ StartsWith close (t :: mid) := by
        rw [startsWith_cons, ht]
        exact hcomma.symm
      exact ⟨u, .turn (not_close hb) ⟨_, hb, .inr ⟨hn, t, rfl, ht⟩⟩ hl⟩

theorem denotes_entriesUntil {close : Token.Kind} {entry : β → Parser β} {R : β → Reading β}
    (hcomma : close ≠ .comma) (he : ∀ b, Denotes (entry b) (R b)) (hR : ∀ b, Consumes (R b))
    (hopen : ∀ {b σ t ts c σ' rest}, R b σ (t :: ts) c σ' rest → t.kind ≠ close) (b : β) :
    Denotes (entriesUntil close entry b) (ListedFrom close R b) := by
  have turn (b : β) : Denotes (do
      let c ← entry b
      separator close
      return c) (entryThenSeparator close (R b)) := by
    refine ((he b).bind fun c => denotes_separator.bind fun _ => .pure c).of_iff
      fun σ ts d σ' rest => ?_
    constructor
    · rintro ⟨c, σ₁, mid, hc, _, _, _, ⟨hs, rfl, rfl⟩ | ⟨hs, rfl, t, rfl, ht⟩, rfl, rfl, rfl⟩
      · exact ⟨_, hc, .inl ⟨hs, rfl⟩⟩
      · exact ⟨_, hc, .inr ⟨hs, t, rfl, ht⟩⟩
    · rintro ⟨mid, hc, ⟨hs, rfl⟩ | ⟨hs, t, rfl, ht⟩⟩
      · exact ⟨d, σ', _, hc, (), σ', _, .inl ⟨hs, rfl, rfl⟩, rfl, rfl, rfl⟩
      · exact ⟨d, σ', _, hc, (), σ', _, .inr ⟨hs, rfl, t, rfl, ht⟩, rfl, rfl, rfl⟩
  have consumes (b : β) : Consumes (entryThenSeparator close (R b)) := by
    rintro σ ts c σ' rest ⟨mid, hc, ⟨_, rfl⟩ | ⟨_, t, rfl, _⟩⟩
    · exact hR b hc
    · exact (hR b hc).next
  refine ((denotes_repeatUntil (fun s => check_iff) turn (fun _ h => consumes _ h) b).bind fun c =>
    denotes_expect.discard.bind fun _ => .pure c).of_iff fun σ ts d σ' rest => ?_
  rw [← loop_entries_iff hcomma hopen]
  constructor
  · rintro ⟨c, σ₁, mid, hl, _, _, _, ⟨t, rfl, rfl, _⟩, rfl, rfl, rfl⟩
    exact ⟨t, hl⟩
  · rintro ⟨t, hl⟩
    exact ⟨d, σ', _, hl, (), σ', rest, ⟨t, rfl, rfl, startsWith_cons.1 hl.stop_rest⟩, rfl, rfl, rfl⟩

theorem listedFrom_append_iff {close : Token.Kind} {item : Reading α} {as bs : List α}
    {σ σ' : List Scope} {ts rest : List Token} :
    ListedFrom close (fun as σ ts bs σ' rest => ∃ a, item σ ts a σ' rest ∧ bs = as ++ [a]) as σ ts
      bs σ' rest ↔ ∃ cs, bs = as ++ cs ∧ Listed close item σ ts cs σ' rest := by
  constructor
  · intro h
    induction h with
    | nil ht => exact ⟨[], by simp, .nil ht⟩
    | last hi ht =>
      obtain ⟨a, ha, rfl⟩ := hi
      exact ⟨[a], rfl, .last ha ht⟩
    | cons hi ht _ ih =>
      obtain ⟨a, ha, rfl⟩ := hi
      obtain ⟨cs, rfl, hc⟩ := ih
      exact ⟨a :: cs, by simp, .cons ha ht hc⟩
  · rintro ⟨cs, rfl, h⟩
    induction h generalizing as with
    | nil ht => simpa using .nil ht
    | last ha ht => exact .last ⟨_, ha, rfl⟩ ht
    | @cons a cs _ _ _ _ _ _ _ ha ht _ ih =>
      refine .cons ⟨a, ha, rfl⟩ ht ?_
      simpa using @ih (as ++ [a])

theorem denotes_append {item : Parser α} {R : Reading α} (hi : Denotes item R) (as : List α) :
    Denotes (do let a ← item; pure (as ++ [a]))
      fun σ ts bs σ' rest => ∃ a, R σ ts a σ' rest ∧ bs = as ++ [a] := by
  refine (hi.bind fun a => .pure (as ++ [a])).of_iff fun σ ts bs σ' rest => ?_
  constructor
  · rintro ⟨a, σ₁, mid, ha, rfl, rfl, rfl⟩
    exact ⟨a, ha, rfl⟩
  · rintro ⟨a, ha, rfl⟩
    exact ⟨a, σ', rest, ha, rfl, rfl, rfl⟩

theorem denotes_listUntil {close : Token.Kind} {item : Parser α} {R : Reading α}
    (hcomma : close ≠ .comma) (hi : Denotes item R) (hR : Consumes R)
    (hopen : ∀ {σ t ts a σ' rest}, R σ (t :: ts) a σ' rest → t.kind ≠ close) :
    Denotes (listUntil close item) (Listed close R) := by
  refine (denotes_entriesUntil hcomma (denotes_append hi) ?_ ?_ []).of_iff
    fun σ ts as σ' rest => ?_
  · rintro as σ ts bs σ' rest ⟨a, ha, -⟩
    exact hR ha
  · rintro as σ t ts bs σ' rest ⟨a, ha, -⟩
    exact hopen ha
  · simp [listedFrom_append_iff]

theorem denotes_many {stop : ParserState → Bool} (stops : List Token → Prop) {item : Parser α}
    {R : Reading α} (hstop : ∀ s, stop s = true ↔ stops s.ahead) (hi : Denotes item R)
    (hR : Consumes R) (as : List α) :
    Denotes (repeatUntil stop (fun as => return as ++ [← item]) as)
      fun σ ts bs σ' rest => ∃ cs, bs = as ++ cs ∧ Many stops R σ ts cs σ' rest := by
  refine (denotes_repeatUntil hstop (denotes_append hi) ?_ as).of_iff fun σ ts as σ' rest =>
    loop_append_iff
  rintro as σ ts bs σ' rest - ⟨a, ha, -⟩
  exact hR ha

theorem many_comma_iff {item : Reading α} {a : α} {as : List α} {σ σ' : List Scope}
    {ts rest : List Token} :
    (∃ σ₁ mid, item σ ts a σ₁ mid ∧ Many (fun ts => ¬ StartsWith .comma ts)
      (fun σ ts a σ' rest => ∃ t mid, ts = t :: mid ∧ item σ mid a σ' rest) σ₁ mid as σ' rest) ↔
      Separated item σ ts (a :: as) σ' rest := by
  induction as generalizing a σ ts with
  | nil =>
    constructor
    · rintro ⟨σ₁, mid, ha, hm⟩
      cases hm with
      | nil h => exact .last ha h
    · intro h
      cases h with
      | last ha h => exact ⟨σ', rest, ha, .nil h⟩
      | cons _ _ h => cases h
  | cons b bs ih =>
    constructor
    · rintro ⟨σ₁, mid, ha, hm⟩
      cases hm with
      | cons hc hb hm =>
        obtain ⟨t, mid, rfl, hb⟩ := hb
        have ht : t.kind = .comma := by simpa using hc
        exact .cons ha ht (ih.1 ⟨_, _, hb, hm⟩)
    · intro h
      cases h with
      | cons ha ht h =>
        obtain ⟨σ₂, mid₂, hb, hm⟩ := ih.2 h
        exact ⟨_, _, ha, .cons (by simpa using ht) ⟨_, _, rfl, hb⟩ hm⟩

theorem denotes_advance :
    Denotes (discard advance) fun σ ts _ σ' rest => σ' = σ ∧
      ((ts = [] ∧ rest = []) ∨ ∃ t, ts = t :: rest) := by
  rintro ⟨previous, ahead, stop, scopes, begun⟩ a σ rest
  cases ahead with
  | nil =>
    constructor
    · rintro ⟨s', e, rfl, rfl⟩
      cases e
      exact ⟨rfl, .inl ⟨rfl, rfl⟩⟩
    · rintro ⟨rfl, ⟨_, rfl⟩ | ⟨t, e⟩⟩
      · exact ⟨_, rfl, rfl, rfl⟩
      · cases e
  | cons t ts =>
    constructor
    · rintro ⟨s', e, rfl, rfl⟩
      cases e
      exact ⟨rfl, .inr ⟨t, rfl⟩⟩
    · rintro ⟨rfl, ⟨e, _⟩ | ⟨u, e⟩⟩
      · cases e
      · cases e
        exact ⟨_, rfl, rfl, rfl⟩

theorem denotes_advance_bind {p : Parser α} {R : Reading α} (hp : Denotes p R) (hR : Consumes R) :
    Denotes (discard advance >>= fun _ => p) fun σ ts a σ' rest =>
      ∃ t mid, ts = t :: mid ∧ R σ mid a σ' rest := by
  refine (denotes_advance.bind fun _ => hp).of_iff fun σ ts a σ' rest => ?_
  constructor
  · rintro ⟨_, σ₁, mid, ⟨rfl, ⟨rfl, rfl⟩ | ⟨t, rfl⟩⟩, ha⟩
    · exact absurd (hR ha).length_lt (Nat.not_lt_zero _)
    · exact ⟨t, mid, rfl, ha⟩
  · rintro ⟨t, mid, rfl, ha⟩
    exact ⟨(), σ, mid, ⟨rfl, .inr ⟨t, rfl⟩⟩, ha⟩

theorem denotes_commaSeparated {item : Parser α} {R : Reading α} (hi : Denotes item R)
    (hR : Consumes R) : Denotes (commaSeparated item) (Separated R) := by
  have turn : (fun as : List α => (do
      discard advance
      return as ++ [← item] : Parser (List α))) =
      fun as => do return as ++ [← (discard advance >>= fun _ => item)] := by
    funext as
    simp only [bind_assoc]
  have hstop (s : ParserState) :
      (!s.check .comma) = true ↔ ¬ StartsWith .comma s.ahead := by
    simp [← check_iff]
  have hstep : Consumes fun σ ts a σ' rest => ∃ t mid, ts = t :: mid ∧ R σ mid a σ' rest := by
    rintro σ ts a σ' rest ⟨t, mid, rfl, ha⟩
    exact (Beyond.of_eq rfl).trans (hR ha)
  unfold commaSeparated
  rw [turn]
  refine (hi.bind fun a => denotes_many (fun ts => ¬ StartsWith .comma ts) hstop
    (denotes_advance_bind hi hR) hstep [a]).of_iff fun σ ts as σ' rest => ?_
  constructor
  · rintro ⟨a, σ₁, mid, ha, as, rfl, hm⟩
    exact many_comma_iff.1 ⟨σ₁, mid, ha, hm⟩
  · intro h
    cases as with
    | nil => cases h
    | cons a as =>
      obtain ⟨σ₁, mid, ha, hm⟩ := many_comma_iff.2 h
      exact ⟨a, σ₁, mid, ha, as, rfl, hm⟩

/-! Lists of items that have nothing to do with scopes. -/

variable {G : List Token → α → List Token → Prop} {σ σ' : List Scope} {ts rest : List Token}
  {as : List α}

theorem Listed.plain {close : Token.Kind} (h : Listed close (Plain G) σ ts as σ' rest) :
    σ' = σ ∧ ∀ τ, Listed close (Plain G) τ ts as τ rest := by
  induction h with
  | nil ht => exact ⟨rfl, fun τ => .nil ht⟩
  | last ha ht => exact ⟨ha.1, fun τ => .last ⟨rfl, ha.2⟩ ht⟩
  | cons ha ht _ ih => exact ⟨ih.1.trans ha.1, fun τ => .cons ⟨rfl, ha.2⟩ ht (ih.2 τ)⟩

theorem Listed.exists_reads {close : Token.Kind} (h : Listed close (Plain G) σ ts as σ' rest)
    (hG : Consumes (Plain G)) : ∀ a ∈ as, ∃ us us', us <:+ ts ∧ G us a us' := by
  induction h with
  | nil _ => simp
  | last ha _ => simpa using ⟨_, List.suffix_refl _, _, ha.2⟩
  | cons ha _ _ ih =>
    refine List.forall_mem_cons.2 ⟨⟨_, _, List.suffix_refl _, ha.2⟩, fun b hb => ?_⟩
    obtain ⟨us, us', hs, hr⟩ := ih b hb
    exact ⟨us, us', hs.trans (hG ha).next.suffix, hr⟩

theorem Separated.plain (h : Separated (Plain G) σ ts as σ' rest) :
    σ' = σ ∧ ∀ τ, Separated (Plain G) τ ts as τ rest := by
  induction h with
  | last ha ht => exact ⟨ha.1, fun τ => .last ⟨rfl, ha.2⟩ ht⟩
  | cons ha ht _ ih => exact ⟨ih.1.trans ha.1, fun τ => .cons ⟨rfl, ha.2⟩ ht (ih.2 τ)⟩

def ListOf (close : Token.Kind) (G : List Token → α → List Token → Prop) (ts : List Token)
    (as : List α) (rest : List Token) : Prop :=
  Listed close (Plain G) [] ts as [] rest

def CommaList (G : List Token → α → List Token → Prop) (ts : List Token) (as : List α)
    (rest : List Token) : Prop :=
  Separated (Plain G) [] ts as [] rest

theorem denotes_listOf {close : Token.Kind} {item : Parser α} (hcomma : close ≠ .comma)
    (hi : Denotes item (Plain G)) (hG : Consumes (Plain G))
    (hopen : ∀ {t ts a rest}, G (t :: ts) a rest → t.kind ≠ close) :
    Denotes (listUntil close item) (Plain (ListOf close G)) :=
  (denotes_listUntil hcomma hi hG fun h => hopen h.2).of_iff fun σ _ _ _ _ =>
    ⟨fun h => ⟨h.plain.1, h.plain.2 []⟩, fun ⟨h, hl⟩ => h ▸ hl.plain.2 σ⟩

theorem denotes_commaList {item : Parser α} (hi : Denotes item (Plain G))
    (hG : Consumes (Plain G)) : Denotes (commaSeparated item) (Plain (CommaList G)) :=
  (denotes_commaSeparated hi hG).of_iff fun σ _ _ _ _ =>
    ⟨fun h => ⟨h.plain.1, h.plain.2 []⟩, fun ⟨h, hl⟩ => h ▸ hl.plain.2 σ⟩

/-! Marks, words, and parts that may be missing. -/

def Mark (kind : Token.Kind) (ts rest : List Token) : Prop :=
  ∃ t, ts = t :: rest ∧ t.kind = kind

def Word (kind : Token.Kind) (ts : List Token) (w : String) (rest : List Token) : Prop :=
  ∃ t, ts = t :: rest ∧ t.kind = kind ∧ t.lexeme = w

def IfNext (kind : Token.Kind) (G : List Token → α → List Token → Prop) (absent : α)
    (ts : List Token) (a : α) (rest : List Token) : Prop :=
  (StartsWith kind ts ∧ G ts a rest) ∨ (¬ StartsWith kind ts ∧ a = absent ∧ rest = ts)

theorem denotes_mark {kind : Token.Kind} :
    Denotes (discard (expect kind)) (Plain fun ts _ rest => Mark kind ts rest) := by
  refine denotes_expect.discard.of_iff fun σ ts _ σ' rest => ?_
  constructor
  · rintro ⟨t, rfl, h, hk⟩
    exact ⟨rfl, t, h, hk⟩
  · rintro ⟨rfl, t, h, hk⟩
    exact ⟨t, rfl, h, hk⟩

theorem denotes_ifNext_plain {kind : Token.Kind} {part : Parser α} {a : α}
    (h : Denotes part (Plain G)) : Denotes (ifNext kind part a) (Plain (IfNext kind G a)) := by
  refine (denotes_ifNext h).of_iff fun σ ts b σ' rest => ?_
  constructor
  · rintro (⟨hs, rfl, hg⟩ | ⟨hs, rfl, rfl, rfl⟩)
    · exact ⟨rfl, .inl ⟨hs, hg⟩⟩
    · exact ⟨rfl, .inr ⟨hs, rfl, rfl⟩⟩
  · rintro ⟨rfl, ⟨hs, hg⟩ | ⟨hs, rfl, rfl⟩⟩
    · exact .inl ⟨hs, rfl, hg⟩
    · exact .inr ⟨hs, rfl, rfl, rfl⟩

theorem Mark.startsWith {kind : Token.Kind} (h : Mark kind ts rest) : StartsWith kind ts := by
  obtain ⟨t, e, hk⟩ := h
  exact ⟨t, rest, e, hk⟩

theorem Word.startsWith {kind : Token.Kind} {w : String} (h : Word kind ts w rest) :
    StartsWith kind ts := by
  obtain ⟨t, e, hk, -⟩ := h
  exact ⟨t, rest, e, hk⟩

theorem Separated.startsWith {kind : Token.Kind}
    (hG : ∀ {ts a rest}, G ts a rest → StartsWith kind ts)
    (h : Separated (Plain G) σ ts as σ' rest) : StartsWith kind ts := by
  cases h with
  | last ha _ => exact hG ha.2
  | cons ha _ _ => exact hG ha.2

theorem Mark.beyond {kind : Token.Kind} (h : Mark kind ts rest) : Beyond ts rest := by
  obtain ⟨t, e, -⟩ := h
  exact .of_eq e

theorem Word.beyond {kind : Token.Kind} {w : String} (h : Word kind ts w rest) :
    Beyond ts rest := by
  obtain ⟨t, e, -⟩ := h
  exact .of_eq e

theorem IfNext.suffix {kind : Token.Kind} {a b : α}
    (hG : ∀ {ts a rest}, G ts a rest → Beyond ts rest)
    (h : IfNext kind G a ts b rest) : rest <:+ ts := by
  rcases h with ⟨-, h⟩ | ⟨-, -, rfl⟩
  · exact (hG h).suffix
  · exact List.suffix_refl _

theorem Listed.beyond {R : Reading α} {close : Token.Kind} (hR : Consumes R)
    (h : Listed close R σ ts as σ' rest) : Beyond ts rest := by
  induction h with
  | nil _ => exact .of_eq rfl
  | last ha _ => exact (hR ha).next
  | cons ha _ _ ih => exact (hR ha).next.trans ih

theorem Listed.forall {close : Token.Kind} {P : α → Prop} (hP : ∀ {ts a rest}, G ts a rest → P a)
    (h : Listed close (Plain G) σ ts as σ' rest) : ∀ a ∈ as, P a := by
  induction h with
  | nil _ => simp
  | last ha _ => simpa using hP ha.2
  | cons ha _ _ ih => exact List.forall_mem_cons.2 ⟨hP ha.2, ih⟩

theorem Separated.beyond {R : Reading α} (hR : Consumes R) (h : Separated R σ ts as σ' rest) :
    Beyond ts rest := by
  induction h with
  | last ha _ => exact hR ha
  | cons ha _ _ ih => exact (hR ha).next.trans ih

/-! Sequences whose first part has nothing to do with scopes. -/

namespace Denotes

variable {p : Parser α} {f : α → Parser β} {F : α → Reading β} {q : Parser β} {Q : Reading β}

theorem plain_bind (hp : Denotes p (Plain G)) (hf : ∀ a, Denotes (f a) (F a)) :
    Denotes (p >>= f) fun σ ts b σ' rest => ∃ a mid, G ts a mid ∧ F a σ mid b σ' rest := by
  refine (hp.bind hf).of_iff fun σ ts b σ' rest => ?_
  constructor
  · rintro ⟨a, _, mid, ⟨rfl, hg⟩, h⟩
    exact ⟨a, mid, hg, h⟩
  · rintro ⟨a, mid, hg, h⟩
    exact ⟨a, σ, mid, ⟨rfl, hg⟩, h⟩

theorem mark_bind {kind : Token.Kind} (hq : Denotes q Q) :
    Denotes (discard (expect kind) >>= fun _ => q) fun σ ts b σ' rest =>
      ∃ mid, Mark kind ts mid ∧ Q σ mid b σ' rest := by
  refine (denotes_mark.plain_bind fun _ => hq).of_iff fun σ ts b σ' rest => ?_
  constructor
  · rintro ⟨_, mid, hm, h⟩
    exact ⟨mid, hm, h⟩
  · rintro ⟨mid, hm, h⟩
    exact ⟨(), mid, hm, h⟩

theorem plain_seq {K : α → List Token → β → List Token → Prop} (hp : Denotes p (Plain G))
    (hf : ∀ a, Denotes (f a) (Plain (K a))) :
    Denotes (p >>= f) (Plain fun ts b rest => ∃ a mid, G ts a mid ∧ K a mid b rest) := by
  refine (hp.plain_bind hf).of_iff fun σ ts b σ' rest => ?_
  constructor
  · rintro ⟨a, mid, hg, rfl, hk⟩
    exact ⟨rfl, a, mid, hg, hk⟩
  · rintro ⟨rfl, a, mid, hg, hk⟩
    exact ⟨a, mid, hg, rfl, hk⟩

theorem mark_seq {kind : Token.Kind} {K : List Token → β → List Token → Prop}
    (hq : Denotes q (Plain K)) : Denotes (discard (expect kind) >>= fun _ => q)
      (Plain fun ts b rest => ∃ mid, Mark kind ts mid ∧ K mid b rest) :=
  (denotes_mark.plain_seq fun _ => hq).of_iff fun _ _ _ _ _ =>
    ⟨fun ⟨h, _, hk⟩ => ⟨h, hk⟩, fun ⟨h, hk⟩ => ⟨h, (), hk⟩⟩

theorem plain_pure (hp : Denotes p (Plain G)) (g : α → β) :
    Denotes (p >>= fun a => pure (g a)) (Plain fun ts b rest => ∃ a, G ts a rest ∧ b = g a) := by
  refine (hp.plain_seq fun a => .pure (g a)).of_iff fun σ ts b σ' rest => ?_
  constructor
  · rintro ⟨h, a, _, hg, rfl, rfl⟩
    exact ⟨h, a, hg, rfl⟩
  · rintro ⟨h, a, hg, rfl⟩
    exact ⟨h, a, rest, hg, rfl, rfl⟩

theorem require_bind {c : Prop} {_ : Decidable c} {t : Token} {cause : ParseError.Cause}
    (hq : Denotes q Q) :
    Denotes (require c t cause >>= fun _ => q) fun σ ts b σ' rest => c ∧ Q σ ts b σ' rest := by
  refine (denotes_require.bind fun _ => hq).of_iff fun σ ts b σ' rest => ?_
  constructor
  · rintro ⟨_, _, _, ⟨hc, rfl, rfl⟩, h⟩
    exact ⟨hc, h⟩
  · rintro ⟨hc, h⟩
    exact ⟨(), σ, ts, ⟨hc, rfl, rfl⟩, h⟩

theorem begun_bind {name : String} (hq : Denotes q Q) :
    Denotes ((modify fun s => { s with begun := name :: s.begun }) >>= fun _ => q) Q :=
  fun s b σ rest => hq { s with begun := name :: s.begun } b σ rest

theorem bind_pure {P : Reading α} (hp : Denotes p P) {g : α → β} :
    Denotes (p >>= fun a => pure (g a)) fun σ ts b σ' rest => ∃ a, P σ ts a σ' rest ∧ b = g a := by
  rw [← map_eq_pure_bind]
  exact hp.map g

end Denotes

variable {H : List Token → β → List Token → Prop} {f : α → β} {bs : List β}

theorem Separated.map (hf : ∀ {ts a rest}, G ts a rest → H ts (f a) rest)
    (h : Separated (Plain G) σ ts as σ' rest) : Separated (Plain H) σ ts (as.map f) σ' rest := by
  induction h with
  | last ha hn => exact .last ⟨ha.1, hf ha.2⟩ hn
  | cons ha ht _ ih => exact .cons ⟨ha.1, hf ha.2⟩ ht ih

theorem Separated.exists_map (hf : ∀ {ts b rest}, H ts b rest → ∃ a, G ts a rest ∧ b = f a)
    (h : Separated (Plain H) σ ts bs σ' rest) :
    ∃ as, Separated (Plain G) σ ts as σ' rest ∧ bs = as.map f := by
  induction h with
  | last hb hn =>
    obtain ⟨a, ha, rfl⟩ := hf hb.2
    exact ⟨[a], .last ⟨hb.1, ha⟩ hn, rfl⟩
  | cons hb ht _ ih =>
    obtain ⟨a, ha, rfl⟩ := hf hb.2
    obtain ⟨as, has, rfl⟩ := ih
    exact ⟨a :: as, .cons ⟨hb.1, ha⟩ ht has, rfl⟩

theorem commaList_word_iff {kind : Token.Kind} {ws : List String} :
    CommaList (Word kind) ts ws rest ↔
      ∃ us, CommaList (fun ts t rest => ts = t :: rest ∧ t.kind = kind) ts us rest ∧
        ws = us.map (·.lexeme) := by
  constructor
  · refine Separated.exists_map ?_
    rintro ts w rest ⟨t, e, hk, rfl⟩
    exact ⟨t, ⟨e, hk⟩, rfl⟩
  · rintro ⟨us, h, rfl⟩
    exact h.map fun ⟨e, hk⟩ => ⟨_, e, hk, rfl⟩

end BrilIR.Parser
