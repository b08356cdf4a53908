import BrilIR.Proofs.Parser.Denotation
import BrilIR.Ty.Parser

/-! The grammar of types: what tokens are a type, and that the parser of types reads just these. -/

namespace BrilIR.Ty

open BrilIR.Parser

def Reads (ts : List Token) : Ty → List Token → Prop
  | int width, rest =>
    ∃ t, ts = t :: rest ∧ t.kind = .intType ∧ intOfText t.lexeme = .ok (int width)
  | float format, rest =>
    ∃ t, ts = t :: rest ∧ t.kind = .floatType ∧ floatOfText t.lexeme = .ok (float format)
  | ptr pointee, rest =>
    ∃ bang name less mid greater, ts = bang :: name :: less :: mid ∧ bang.kind = .exclamation ∧
      name.kind = .bareIdentifier ∧ name.lexeme = "bril.ptr" ∧ less.kind = .less ∧
      Reads mid pointee (greater :: rest) ∧ greater.kind = .greater

def depth : Ty → Nat
  | int _ => 0
  | float _ => 0
  | ptr pointee => pointee.depth + 1

theorem Reads.depth_lt {ts rest : List Token} {t : Ty} (h : t.Reads ts rest) :
    rest.length + t.depth < ts.length := by
  induction t generalizing ts rest with
  | int _ =>
    obtain ⟨t, rfl, -⟩ := h
    simp [depth]
  | float _ =>
    obtain ⟨t, rfl, -⟩ := h
    simp [depth]
  | ptr p ih =>
    obtain ⟨_, _, _, mid, _, rfl, -, -, -, -, hp, -⟩ := h
    have := ih hp
    simp only [depth, List.length_cons] at this ⊢
    omega

theorem intOfText_ok {s : String} {t : Ty} (h : intOfText s = .ok t) : ∃ width, t = int width := by
  unfold intOfText at h
  split at h
  · split at h
    · cases h
    · cases h
    · cases h
      exact ⟨_, rfl⟩
  · cases h

theorem floatOfText_ok {s : String} {t : Ty} (h : floatOfText s = .ok t) :
    ∃ format, t = float format := by
  unfold floatOfText at h
  split at h
  · cases h
    exact ⟨_, rfl⟩
  · cases h

theorem denotes_ofToken {r : Except TyTextError Ty} :
    Denotes (ofToken r) (Plain fun ts t rest => r = .ok t ∧ rest = ts) := by
  cases r with
  | error e => exact (Denotes.fail fun s => ⟨_, s, rfl⟩).of_iff fun _ _ _ _ _ => by simp [Plain]
  | ok t => exact (Denotes.pure t).of_iff fun _ _ _ _ _ => by simp [Plain, eq_comm]

theorem denotes_pointerRest {p : Parser Ty} {G : List Token → Ty → List Token → Prop}
    (hp : Denotes p (Plain G)) :
    Denotes (pointerRest p) (Plain fun ts t rest => ∃ less mid pointee greater,
      ts = less :: mid ∧ less.kind = .less ∧ G mid pointee (greater :: rest) ∧
        greater.kind = .greater ∧ t = ptr pointee) := by
  refine (denotes_expect.discard.bind fun _ => hp.bind fun t =>
    denotes_expect.discard.bind fun _ => .pure (ptr t)).of_iff fun σ ts t σ' rest => ?_
  constructor
  · rintro ⟨_, _, mid, ⟨less, rfl, rfl, hl⟩, p, _, _, ⟨rfl, hp⟩, _, _, _, ⟨gt, rfl, rfl, hg⟩, rfl,
      rfl, rfl⟩
    exact ⟨rfl, less, mid, p, gt, rfl, hl, hp, hg, rfl⟩
  · rintro ⟨rfl, less, mid, p, gt, rfl, hl, hp, hg, rfl⟩
    exact ⟨(), _, mid, ⟨less, rfl, rfl, hl⟩, p, _, _, ⟨rfl, hp⟩, (), _, rest, ⟨gt, rfl, rfl, hg⟩,
      rfl, rfl, rfl⟩

theorem denotes_tokenType {kind : Token.Kind} {read : String → Except TyTextError Ty} :
    Denotes (do ofToken (read (← expect kind).lexeme)) (Plain fun ts t rest =>
      ∃ u, ts = u :: rest ∧ u.kind = kind ∧ read u.lexeme = .ok t) := by
  refine (denotes_expect.plain_seq fun _ => denotes_ofToken).of_iff fun σ ts t σ' rest => ?_
  constructor
  · rintro ⟨rfl, u, mid, ⟨rfl, hk⟩, hr, rfl⟩
    exact ⟨rfl, u, rfl, hk, hr⟩
  · rintro ⟨rfl, u, rfl, hk, hr⟩
    exact ⟨rfl, u, rest, ⟨rfl, hk⟩, hr, rfl⟩

/-- A type behind an exclamation mark, given what types its pointers may point to. -/
def MarkedReads (G : List Token → Ty → List Token → Prop) (ts : List Token) (t : Ty)
    (rest : List Token) : Prop :=
  ∃ bang name less mid pointee greater, ts = bang :: name :: less :: mid ∧
    bang.kind = .exclamation ∧ name.kind = .bareIdentifier ∧ name.lexeme = "bril.ptr" ∧
    less.kind = .less ∧ G mid pointee (greater :: rest) ∧ greater.kind = .greater ∧ t = ptr pointee

theorem denotes_markedType {p : Parser Ty} {G : List Token → Ty → List Token → Prop}
    (hp : Denotes p (Plain G)) :
    Denotes (discard (expect .exclamation) >>= fun _ => expect .bareIdentifier >>= fun name =>
        if name.lexeme = "bril.ptr" then pointerRest p
        else failAt name (.unknownType name.lexeme)) (Plain (MarkedReads G)) := by
  refine (denotes_expect.discard.bind fun _ => denotes_expect.bind fun name =>
    (denotes_pointerRest hp).ite denotes_failAt).of_iff fun σ ts t σ' rest => ?_
  constructor
  · rintro ⟨_, _, _, ⟨bang, rfl, rfl, hb⟩, name, _, _, ⟨rfl, rfl, hk⟩, h⟩
    rcases h with ⟨hn, rfl, less, mid, p, gt, rfl, hl, h⟩ | ⟨-, h⟩
    · exact ⟨rfl, bang, name, less, mid, p, gt, rfl, hb, hk, hn, hl, h⟩
    · exact h.elim
  · rintro ⟨rfl, bang, name, less, mid, p, gt, rfl, hb, hk, hn, hl, h⟩
    exact ⟨(), _, _, ⟨bang, rfl, rfl, hb⟩, name, _, _, ⟨rfl, rfl, hk⟩,
      .inl ⟨hn, rfl, less, mid, p, gt, rfl, hl, h⟩⟩

theorem denotes_parseWithin (n : Nat) :
    Denotes (parseWithin n) (Plain fun ts t rest => t.Reads ts rest ∧ t.depth < n) := by
  -- each pointer takes one turn of the bound
  induction n with
  | zero =>
    refine (Denotes.fail fun s => ⟨_, s, rfl⟩).of_iff fun _ _ _ _ _ => ?_
    simp [Plain]
  | succ n ih =>
    refine (Denotes.peek_bind (F := fun t σ ts a σ' rest =>
      (t.kind = .intType ∧ Plain (fun ts a rest => ∃ u, ts = u :: rest ∧ u.kind = .intType ∧
        intOfText u.lexeme = .ok a) σ ts a σ' rest) ∨
      (t.kind = .floatType ∧ Plain (fun ts a rest => ∃ u, ts = u :: rest ∧ u.kind = .floatType ∧
        floatOfText u.lexeme = .ok a) σ ts a σ' rest) ∨
      (t.kind = .exclamation ∧ Plain (MarkedReads fun ts t rest => t.Reads ts rest ∧ t.depth < n)
        σ ts a σ' rest)) (fun t => ?_) ?_).of_iff fun σ ts t σ' rest => ?_
    · split
      · next h => exact denotes_tokenType.of_iff fun _ _ _ _ _ => by simp [h]
      · next h => exact denotes_tokenType.of_iff fun _ _ _ _ _ => by simp [h]
      · next h => exact (denotes_markedType ih).of_iff fun _ _ _ _ _ => by simp [h]
      · next h₁ h₂ h₃ =>
        refine denotes_failAt.of_iff fun _ _ _ _ _ => ⟨False.elim, ?_⟩
        rintro (⟨h, -⟩ | ⟨h, -⟩ | ⟨h, -⟩)
        · exact h₁ h
        · exact h₂ h
        · exact h₃ h
    · intro t ht σ a σ' rest
      simp [ht]
    · constructor
      · rintro ⟨u, mid, rfl, ⟨-, rfl, v, e, hk, ht⟩ | ⟨-, rfl, v, e, hk, ht⟩ | ⟨-, rfl, h⟩⟩
        · obtain ⟨width, rfl⟩ := intOfText_ok ht
          exact ⟨rfl, ⟨v, e, hk, ht⟩, Nat.succ_pos n⟩
        · obtain ⟨format, rfl⟩ := floatOfText_ok ht
          exact ⟨rfl, ⟨v, e, hk, ht⟩, Nat.succ_pos n⟩
        · obtain ⟨bang, name, less, mid, p, gt, e, hb, hn, hp, hl, ⟨hr, hd⟩, hg, rfl⟩ := h
          exact ⟨rfl, ⟨bang, name, less, mid, gt, e, hb, hn, hp, hl, hr, hg⟩, Nat.succ_lt_succ hd⟩
      · rintro ⟨rfl, hr, hd⟩
        cases t with
        | int width =>
          obtain ⟨u, rfl, hk, ht⟩ := hr
          exact ⟨u, rest, rfl, .inl ⟨hk, rfl, u, rfl, hk, ht⟩⟩
        | float format =>
          obtain ⟨u, rfl, hk, ht⟩ := hr
          exact ⟨u, rest, rfl, .inr (.inl ⟨hk, rfl, u, rfl, hk, ht⟩)⟩
        | ptr p =>
          obtain ⟨bang, name, less, mid, gt, rfl, hb, hn, hp, hl, hr, hg⟩ := hr
          exact ⟨bang, _, rfl, .inr (.inr ⟨hb, rfl, bang, name, less, mid, p, gt, rfl, hb, hn, hp,
            hl, ⟨hr, Nat.lt_of_succ_lt_succ hd⟩, hg, rfl⟩)⟩

theorem denotes_parse : Denotes parse (Plain Reads) := by
  intro s t σ rest
  refine (denotes_parseWithin s.ahead.length s t σ rest).trans ?_
  constructor
  · rintro ⟨hσ, hr, -⟩
    exact ⟨hσ, hr⟩
  · rintro ⟨hσ, hr⟩
    have := hr.depth_lt
    exact ⟨hσ, hr, by omega⟩

theorem Reads.beyond {ts rest : List Token} {t : Ty} (h : t.Reads ts rest) : Beyond ts rest := by
  induction t generalizing ts rest with
  | int _ =>
    obtain ⟨t, e, -⟩ := h
    exact .of_eq e
  | float _ =>
    obtain ⟨t, e, -⟩ := h
    exact .of_eq e
  | ptr p ih =>
    obtain ⟨_, _, _, mid, _, rfl, -, -, -, -, hp, -⟩ := h
    exact .suffix_trans ⟨[_, _, _], rfl⟩ (ih hp).next

theorem Reads.consumes : Consumes (Plain Reads) := fun h => h.2.beyond

/-- No type begins with a closing mark or a mark between things. -/
theorem Reads.head_kind {t : Token} {ts rest : List Token} {a : Ty} (h : a.Reads (t :: ts) rest) :
    t.kind = .intType ∨ t.kind = .floatType ∨ t.kind = .exclamation := by
  cases a with
  | int _ =>
    obtain ⟨u, e, hk, -⟩ := h
    cases e
    exact .inl hk
  | float _ =>
    obtain ⟨u, e, hk, -⟩ := h
    cases e
    exact .inr (.inl hk)
  | ptr _ =>
    obtain ⟨u, _, _, _, _, e, hk, -⟩ := h
    cases e
    exact .inr (.inr hk)

def ReadsList (ts : List Token) (types : List Ty) (rest : List Token) : Prop :=
  ∃ mid, Mark .lparen ts mid ∧ ListOf .rparen Reads mid types rest

def ReadsResults (ts : List Token) (types : List Ty) (rest : List Token) : Prop :=
  ReadsList ts types rest ∨ ∃ t, types = [t] ∧ t.Reads ts rest

theorem ReadsList.beyond {ts rest : List Token} {types : List Ty} (h : ReadsList ts types rest) :
    Beyond ts rest := by
  obtain ⟨mid, hm, hl⟩ := h
  exact hm.beyond.trans (Listed.beyond Reads.consumes hl)

theorem ReadsResults.beyond {ts rest : List Token} {types : List Ty}
    (h : ReadsResults ts types rest) : Beyond ts rest := by
  rcases h with h | ⟨t, -, h⟩
  · exact h.beyond
  · exact h.beyond

theorem denotes_parseList : Denotes parseList (Plain ReadsList) := by
  refine .mark_seq (denotes_listOf (by decide) denotes_parse Reads.consumes ?_)
  intro t ts a rest h
  rcases h.head_kind with h | h | h <;> simp [h]

theorem denotes_parseResults : Denotes parseResults (Plain ReadsResults) := by
  refine (denotes_check_ite denotes_parseList (denotes_parse.plain_pure fun t => [t])).of_iff
    fun σ ts types σ' rest => ?_
  constructor
  · rintro (⟨-, rfl, h⟩ | ⟨-, rfl, t, h, rfl⟩)
    · exact ⟨rfl, .inl h⟩
    · exact ⟨rfl, .inr ⟨t, rfl, h⟩⟩
  · rintro ⟨rfl, h | ⟨t, rfl, h⟩⟩
    · obtain ⟨mid, hm, hl⟩ := h
      exact .inl ⟨hm.startsWith, rfl, mid, hm, hl⟩
    · refine .inr ⟨?_, rfl, t, h, rfl⟩
      rintro ⟨u, us, rfl, hu⟩
      rcases h.head_kind with h | h | h <;> simp [h] at hu

end BrilIR.Ty
