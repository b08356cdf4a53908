import BrilIR.Proofs.Lexical.Scan
import BrilIR.Proofs.Parser.Denotation

/-!
What a text is read as. A text writes a reading if its tokens, in front of any other tokens, are
read so; texts that do not run into each other write one reading after the other.
-/

namespace BrilIR

open Token BrilIR.Parser

open TokenStream

/-- In front of any text that `P` holds of, the characters are cut into tokens that are read as `R`
says. -/
def Writes (P : List Char → Prop) (cs : List Char) (R : List Token → List Token → Prop) : Prop :=
  ∀ l rest, P rest → ∃ ts l', scanFrom 0 l (cs ++ rest) = (scanFrom 0 l' rest).map (prepend ts) ∧
    ∀ more, R (ts ++ more) more

def Blanks (cs : List Char) : Prop := ∀ c ∈ cs, isBlank c = true

instance (cs : List Char) : Decidable (Blanks cs) :=
  decidable_of_iff (cs.all isBlank = true) List.all_eq_true

def Anything (_ : List Char) : Prop := True

def Then (R S : List Token → List Token → Prop) (ts rest : List Token) : Prop :=
  ∃ mid, R ts mid ∧ S mid rest

namespace Writes

variable {P Q : List Char → Prop} {cs ds : List Char} {R S : List Token → List Token → Prop}

theorem imp (h : Writes P cs R) (hR : ∀ ts rest, R ts rest → S ts rest) : Writes P cs S := by
  intro l rest hp
  obtain ⟨ts, l', e, hr⟩ := h l rest hp
  exact ⟨ts, l', e, fun more => hR _ _ (hr more)⟩

theorem strengthen (h : Writes P cs R) (hP : ∀ rest, Q rest → P rest) : Writes Q cs R :=
  fun l rest hq => h l rest (hP rest hq)

theorem append (h : Writes P cs R) (h' : Writes Q ds S) (hP : ∀ rest, Q rest → P (ds ++ rest)) :
    Writes Q (cs ++ ds) (Then R S) := by
  intro l rest hq
  obtain ⟨ts, l₁, e, hr⟩ := h l (ds ++ rest) (hP rest hq)
  obtain ⟨us, l₂, e', hs⟩ := h' l₁ rest hq
  refine ⟨ts ++ us, l₂, ?_, fun more => ⟨us ++ more, ?_, hs more⟩⟩
  · rw [List.append_assoc, e, e']
    cases scanFrom 0 l₂ rest <;> simp [Except.map, prepend]
  · rw [List.append_assoc]
    exact hr _

theorem nil : Writes P [] fun ts rest => rest = ts := by
  intro l rest _
  refine ⟨[], l, ?_, fun more => rfl⟩
  show scanFrom 0 l rest = _
  cases scanFrom 0 l rest <;> rfl

theorem blank (h : Blanks cs) : Writes P cs fun ts rest => rest = ts := by
  induction cs with
  | nil => exact nil
  | cons c cs ih =>
    intro l rest hp
    obtain ⟨hc, hcs⟩ := List.forall_mem_cons.1 h
    obtain ⟨ts, l', e, hr⟩ := ih hcs (if c = '\n' then l.nextLine else l.right 1) rest hp
    refine ⟨ts, l', ?_, hr⟩
    rw [List.cons_append, scanFrom, front_of_isBlank hc]
    exact e

theorem lexeme {kind : Kind} {w : String} (h : Lexeme kind w.toList) :
    Writes (Apart kind) w.toList fun ts rest => Word kind ts w rest := by
  intro l rest hr
  obtain ⟨l', e⟩ := scanFrom_lexeme l h hr
  exact ⟨[⟨kind, w, l⟩], l', e, fun more => ⟨_, rfl, rfl, rfl⟩⟩

theorem spaced {kind : Kind} {w : String} (before after : List Char) (h : Lexeme kind w.toList)
    (hb : Blanks before) (ha : Blanks after)
    (hP : ∀ rest, P rest → Apart kind (after ++ rest)) :
    Writes P (before ++ (w.toList ++ after)) fun ts rest => Word kind ts w rest := by
  refine ((blank (P := Anything) hb).append ((lexeme h).append (blank ha) hP)
    fun _ _ => trivial).imp ?_
  rintro ts rest ⟨_, rfl, _, hw, rfl⟩
  exact hw

theorem mark {kind : Kind} (before : List Char) (c : Char) (after : List Char)
    (h : markKind? c = some kind) (hb : Blanks before) (ha : Blanks after) :
    Writes P (before ++ c :: after) (Mark kind) := by
  have hl : Lexeme kind (String.singleton c).toList := by
    rw [String.toList_singleton]
    exact lexeme_mark h
  have hw := spaced (P := P) before after hl hb ha fun _ _ => apart_of_markKind? h
  rw [String.toList_singleton] at hw
  refine hw.imp ?_
  rintro ts rest ⟨t, e, hk, -⟩
  exact ⟨t, e, hk⟩

theorem exists_scan {source : String} (h : Writes P source.toList R) (hP : P []) :
    ∃ s, scan source = .ok s ∧ R s.tokens [] := by
  obtain ⟨ts, l, e, hr⟩ := h .origin [] hP
  have hts := hr []
  rw [List.append_nil] at e hts
  refine ⟨⟨ts, l⟩, ?_, hts⟩
  rw [scan, e]
  simp [scanFrom, Except.map, prepend]

end Writes

/-! Lists with commas between their items. -/

variable {α : Type} {G : List Token → α → List Token → Prop} {close : Kind}

theorem listed_of_separated {σ σ' : List Scope} {ts mid rest : List Token} {as : List α} {t : Token}
    (h : Separated (Plain G) σ ts as σ' mid) (e : mid = t :: rest) (hk : t.kind = close) :
    Listed close (Plain G) σ ts as σ' rest := by
  induction h with
  | last ha _ =>
    subst e
    exact .last ha hk
  | cons ha ht _ ih => exact .cons ha ht (ih e)

namespace Writes

theorem separated {f : α → String} (as : List α) (hne : as ≠ [])
    (h : ∀ a ∈ as, Writes Boundary (f a).toList fun ts rest => G ts a rest) :
    Writes Boundary (", ".intercalate (as.map f)).toList fun ts rest =>
      ¬ StartsWith .comma rest → CommaList G ts as rest := by
  induction as with
  | nil => exact absurd rfl hne
  | cons a as ih =>
    obtain ⟨ha, has⟩ := List.forall_mem_cons.1 h
    cases as with
    | nil =>
      rw [List.map_cons, List.map_nil, String.intercalate_singleton]
      exact ha.imp fun _ _ ha hc => .last ⟨rfl, ha⟩ hc
    | cons b bs =>
      have comma : Writes Anything ", ".toList (Mark .comma) :=
        mark [] ',' [' '] rfl (by decide) (by decide)
      rw [List.map_cons, List.map_cons, String.intercalate_cons_cons, String.toList_append,
        String.toList_append, List.append_assoc]
      refine (ha.append (comma.append (ih (by simp) has) fun _ _ => trivial) ?_).imp ?_
      · intro rest _
        exact boundary_cons.2 (by decide)
      · rintro ts rest ⟨_, ha, mid, ⟨t, rfl, hk⟩, hs⟩ hc
        exact .cons ⟨rfl, ha⟩ hk (hs hc)

theorem closed (close : Kind) {f : α → String} {c : Char} (as : List α)
    (hc : markKind? c = some close)
    (hclose : close ≠ .comma)
    (h : ∀ a ∈ as, Writes Boundary (f a).toList fun ts rest => G ts a rest) :
    Writes Anything ((", ".intercalate (as.map f)).toList ++ [c]) fun ts rest =>
      ListOf close G ts as rest := by
  have mark : Writes Anything [c] (Mark close) := .mark [] c [] hc (by decide) (by decide)
  by_cases hne : as = []
  · subst hne
    refine mark.imp ?_
    rintro ts rest ⟨t, rfl, hk⟩
    exact .nil hk
  · refine ((separated as hne h).append mark fun _ _ => boundary_of_markKind? hc).imp ?_
    rintro ts rest ⟨mid, hs, hm⟩
    obtain ⟨t, e, hk⟩ := id hm
    exact listed_of_separated (hs (hm.startsWith.not hclose)) e hk

end Writes

end BrilIR
