import BrilIR.Attribute.Parser
import BrilIR.Proofs.Grammar.Ty

/-! The grammar of attributes and attribute dictionaries. -/

namespace BrilIR

open BrilIR.Parser

def ReadsSign (ts : List Token) (negative : Bool) (rest : List Token) : Prop :=
  if negative then ∃ t, ts = t :: rest ∧ t.kind = .minus else rest = ts

def signedLexeme (negative : Bool) (t : Token) : List Char :=
  ((if negative then "-" else "") ++ t.lexeme).toList

namespace Attribute

/-- The tokens before `rest` are the attribute. -/
def Reads (ts : List Token) (a : Attribute) (rest : List Token) : Prop :=
  match a with
  | .int value u => ∃ negative t colon mid, ReadsSign ts negative (t :: colon :: mid) ∧
      t.kind = .integer ∧ int64? negative t.lexeme.toList = some value ∧ colon.kind = .colon ∧
      u.Reads mid rest
  | .float value u => ∃ negative t colon mid, ReadsSign ts negative (t :: colon :: mid) ∧
      t.kind = .floatLiteral ∧ Binary64.read? (signedLexeme negative t) = some value ∧
      colon.kind = .colon ∧ u.Reads mid rest
  | .bool b => ∃ t, ts = t :: rest ∧ t.kind = if b then .kwTrue else .kwFalse
  | .string s => ∃ t, ts = t :: rest ∧ t.kind = .string ∧ trimQuotes t.lexeme = s
  | .symbol s => ∃ t, ts = t :: rest ∧ t.kind = .atIdentifier ∧ trimAt t.lexeme = s
  | .type u => u.Reads ts rest

def ReadsBehind (negative : Bool) (t : Token) (ts : List Token) (a : Attribute)
    (rest : List Token) : Prop :=
  ∃ colon mid type, ts = colon :: mid ∧ colon.kind = .colon ∧ type.Reads mid rest ∧
    ((t.kind = .integer ∧ ∃ value, int64? negative t.lexeme.toList = some value ∧
        a = .int value type) ∨
      (t.kind = .floatLiteral ∧ ∃ value, Binary64.read? (signedLexeme negative t) = some value ∧
        a = .float value type))

theorem denotes_parseTyped {number : Ty → Attribute} :
    Denotes (parseTyped number) (Plain fun ts a rest => ∃ colon mid type, ts = colon :: mid ∧
      colon.kind = .colon ∧ type.Reads mid rest ∧ a = number type) := by
  refine (Denotes.mark_seq (Ty.denotes_parse.plain_pure number)).of_iff fun σ ts a σ' rest => ?_
  constructor
  · rintro ⟨rfl, mid, ⟨colon, rfl, hk⟩, type, ht, rfl⟩
    exact ⟨rfl, colon, mid, type, rfl, hk, ht, rfl⟩
  · rintro ⟨rfl, colon, mid, type, rfl, hk, ht, rfl⟩
    exact ⟨rfl, mid, ⟨colon, rfl, hk⟩, type, ht, rfl⟩

theorem denotes_parseNumber {negative : Bool} {t : Token} :
    Denotes (parseNumber negative t) (Plain (ReadsBehind negative t)) := by
  unfold parseNumber
  simp only
  split
  · next hk =>
    split
    · next h => exact denotes_failAt.of_iff fun _ _ _ _ _ => by simp [Plain, ReadsBehind, hk, h]
    · next value h =>
      refine denotes_parseTyped.of_iff fun _ _ _ _ _ => ?_
      simp [Plain, ReadsBehind, hk, h]
  · next hk =>
    split
    · next h =>
      have h : Binary64.read? (signedLexeme negative t) = none := h
      refine (Denotes.fail fun s => ⟨_, s, rfl⟩).of_iff fun _ _ _ _ _ => ?_
      simp [Plain, ReadsBehind, hk, h]
    · next value h =>
      have h : Binary64.read? (signedLexeme negative t) = some value := h
      refine denotes_parseTyped.of_iff fun _ _ _ _ _ => ?_
      simp [Plain, ReadsBehind, hk, h]
  · next h₁ h₂ =>
    refine denotes_failAt.of_iff fun _ _ _ _ _ => ⟨False.elim, ?_⟩
    rintro ⟨-, _, _, _, -, -, -, ⟨h, -⟩ | ⟨h, -⟩⟩
    · exact h₁ h
    · exact h₂ h

/-- At the end of the source the sign itself is taken for the number, which it is not. -/
theorem denotes_parseNegative : Denotes parseNegative (Plain fun ts a rest =>
    ∃ m t mid, ts = m :: t :: mid ∧ m.kind = .minus ∧ ReadsBehind true t mid a rest) := by
  intro s a σ rest
  constructor
  · rintro ⟨s', h, rfl, rfl⟩
    obtain ⟨_, s₁, hm, ht⟩ := bind_ok.1 h
    obtain ⟨m, hm⟩ := discard_ok.1 hm
    obtain ⟨ts, e, hk, rfl⟩ := expect_ok_iff.1 hm
    obtain ⟨t, s₂, ht, hn⟩ := bind_ok.1 ht
    have hn := denotes_parseNumber.apply_ok hn
    cases ts with
    | nil =>
      cases ht
      obtain ⟨-, _, _, _, e, -⟩ := hn
      cases e
    | cons u us =>
      cases ht
      exact ⟨hn.1, m, t, us, e, hk, hn.2⟩
  · rintro ⟨rfl, m, t, mid, e, hk, hn⟩
    obtain ⟨s', h, hσ, hr⟩ :=
      denotes_parseNumber.exists_ok (s := ⟨t, mid, s.stop, s.scopes, s.begun⟩)
      (σ := s.scopes) ⟨rfl, hn⟩
    refine ⟨s', bind_ok.2 ⟨(), ⟨m, t :: mid, s.stop, s.scopes, s.begun⟩, ?_,
      bind_ok.2 ⟨t, _, rfl, h⟩⟩, hσ, hr⟩
    exact discard_ok.2 ⟨m, expect_ok_iff.2 ⟨_, e, hk, rfl⟩⟩

theorem denotes_tokenAttribute {kind : Token.Kind} {value : Token → Attribute} :
    Denotes (do return value (← expect kind)) (Plain fun ts a rest =>
      ∃ t, ts = t :: rest ∧ t.kind = kind ∧ a = value t) := by
  refine (denotes_expect.plain_pure value).of_iff fun σ ts a σ' rest => ?_
  simp only [Plain, and_assoc]

theorem denotes_parsePositive {kind : Token.Kind} :
    Denotes (do parseNumber false (← expect kind)) (Plain fun ts a rest =>
      ∃ t mid, ts = t :: mid ∧ t.kind = kind ∧ ReadsBehind false t mid a rest) := by
  refine (denotes_expect.plain_seq fun t => denotes_parseNumber).of_iff fun σ ts a σ' rest => ?_
  simp only [Plain, and_assoc]

def ReadsAs (kind : Token.Kind) (ts : List Token) (a : Attribute) (rest : List Token) : Prop :=
  match kind with
  | .minus => ∃ m t mid, ts = m :: t :: mid ∧ m.kind = .minus ∧ ReadsBehind true t mid a rest
  | .integer | .floatLiteral =>
    ∃ t mid, ts = t :: mid ∧ t.kind = kind ∧ ReadsBehind false t mid a rest
  | .kwTrue => ∃ t, ts = t :: rest ∧ t.kind = .kwTrue ∧ a = .bool true
  | .kwFalse => ∃ t, ts = t :: rest ∧ t.kind = .kwFalse ∧ a = .bool false
  | .string => ∃ t, ts = t :: rest ∧ t.kind = .string ∧ a = .string (trimQuotes t.lexeme)
  | .atIdentifier => ∃ t, ts = t :: rest ∧ t.kind = .atIdentifier ∧ a = .symbol (trimAt t.lexeme)
  | .intType | .floatType | .exclamation => ∃ u, Ty.Reads ts u rest ∧ a = .type u
  | _ => False

theorem denotes_wordAttribute (kind : Token.Kind) (a : Attribute) :
    Denotes (discard (expect kind) >>= fun _ => pure a) (Plain fun ts b rest =>
      ∃ t, ts = t :: rest ∧ t.kind = kind ∧ b = a) := by
  refine (denotes_mark.plain_pure fun _ => a).of_iff fun σ ts b σ' rest => ?_
  simp only [Plain, Mark, exists_const, ← exists_and_right, and_assoc]

theorem not_readsAs {kind : Token.Kind} {ts rest : List Token} {a : Attribute}
    (h : kind ∉ [.minus, .integer, .floatLiteral, .kwTrue, .kwFalse, .string, .atIdentifier,
      .intType, .floatType, .exclamation]) : ¬ ReadsAs kind ts a rest := by
  intro hr
  cases kind with
  | minus | integer | floatLiteral | kwTrue | kwFalse | string | atIdentifier | intType
  | floatType | exclamation => exact h (by decide)
  | eof | bareIdentifier | percentIdentifier | caretIdentifier | arrow | colon | comma | equal
  | lparen | rparen | lbrace | rbrace | lbracket | rbracket | greater | less => exact hr

theorem Reads.of_behind {negative : Bool} {t : Token} {ts mid rest : List Token} {a : Attribute}
    (hs : ReadsSign ts negative (t :: mid)) (h : ReadsBehind negative t mid a rest) :
    a.Reads ts rest := by
  obtain ⟨colon, tail, type, rfl, hc, ht, ⟨hk, v, hv, rfl⟩ | ⟨hk, v, hv, rfl⟩⟩ := h
  · exact ⟨negative, t, colon, tail, hs, hk, hv, hc, ht⟩
  · exact ⟨negative, t, colon, tail, hs, hk, hv, hc, ht⟩

theorem ReadsBehind.readsAs {negative : Bool} {t : Token} {ts mid rest : List Token} {a : Attribute}
    (hs : ReadsSign ts negative (t :: mid)) (h : ReadsBehind negative t mid a rest) :
    ∃ u us, ts = u :: us ∧ ReadsAs u.kind ts a rest := by
  cases negative with
  | true =>
    obtain ⟨m, rfl, hm⟩ := hs
    exact ⟨m, _, rfl, by rw [hm]; exact ⟨m, t, mid, rfl, hm, h⟩⟩
  | false =>
    cases hs
    refine ⟨t, mid, rfl, ?_⟩
    obtain ⟨_, _, _, -, -, -, ⟨hk, -⟩ | ⟨hk, -⟩⟩ := id h
    · rw [hk]
      exact ⟨t, mid, rfl, hk, h⟩
    · rw [hk]
      exact ⟨t, mid, rfl, hk, h⟩

theorem Reads.of_readsAs {t : Token} {mid rest : List Token} {a : Attribute}
    (h : ReadsAs t.kind (t :: mid) a rest) : a.Reads (t :: mid) rest := by
  unfold ReadsAs at h
  split at h
  · obtain ⟨m, u, us, e, hm, hb⟩ := h
    exact Reads.of_behind (show ReadsSign _ true _ from ⟨m, e, hm⟩) hb
  · obtain ⟨u, us, e, -, hb⟩ := h
    exact Reads.of_behind (show ReadsSign _ false _ from e.symm) hb
  · obtain ⟨u, us, e, -, hb⟩ := h
    exact Reads.of_behind (show ReadsSign _ false _ from e.symm) hb
  · obtain ⟨u, e, hk, rfl⟩ := h
    exact ⟨u, e, hk⟩
  · obtain ⟨u, e, hk, rfl⟩ := h
    exact ⟨u, e, hk⟩
  · obtain ⟨u, e, hk, rfl⟩ := h
    exact ⟨u, e, hk, rfl⟩
  · obtain ⟨u, e, hk, rfl⟩ := h
    exact ⟨u, e, hk, rfl⟩
  · obtain ⟨u, hu, rfl⟩ := h
    exact hu
  · obtain ⟨u, hu, rfl⟩ := h
    exact hu
  · obtain ⟨u, hu, rfl⟩ := h
    exact hu
  · exact h.elim

theorem Reads.readsAs {ts rest : List Token} {a : Attribute} (h : a.Reads ts rest) :
    ∃ t mid, ts = t :: mid ∧ ReadsAs t.kind ts a rest := by
  cases a with
  | int value u =>
    obtain ⟨negative, t, colon, mid, hs, hk, hv, hc, hu⟩ := h
    exact ReadsBehind.readsAs hs ⟨colon, mid, u, rfl, hc, hu, .inl ⟨hk, value, hv, rfl⟩⟩
  | float value u =>
    obtain ⟨negative, t, colon, mid, hs, hk, hv, hc, hu⟩ := h
    exact ReadsBehind.readsAs hs ⟨colon, mid, u, rfl, hc, hu, .inr ⟨hk, value, hv, rfl⟩⟩
  | bool b =>
    obtain ⟨t, rfl, hk⟩ := h
    cases b with
    | true => exact ⟨t, _, rfl, by rw [hk]; exact ⟨t, rfl, hk, rfl⟩⟩
    | false => exact ⟨t, _, rfl, by rw [hk]; exact ⟨t, rfl, hk, rfl⟩⟩
  | string s =>
    obtain ⟨t, rfl, hk, rfl⟩ := h
    exact ⟨t, _, rfl, by rw [hk]; exact ⟨t, rfl, hk, rfl⟩⟩
  | symbol s =>
    obtain ⟨t, rfl, hk, rfl⟩ := h
    exact ⟨t, _, rfl, by rw [hk]; exact ⟨t, rfl, hk, rfl⟩⟩
  | type u =>
    have hlen := Ty.Reads.depth_lt h
    cases ts with
    | nil => simp at hlen
    | cons t mid =>
      refine ⟨t, mid, rfl, ?_⟩
      rcases Ty.Reads.head_kind h with hk | hk | hk <;> rw [hk] <;> exact ⟨u, h, rfl⟩

/-- The parser of attributes reads exactly the attributes. -/
theorem denotes_parse : Denotes parse (Plain Reads) := by
  refine (Denotes.peek_bind (F := fun t => Plain (ReadsAs t.kind)) (fun t => ?_) ?_).of_iff
    fun σ ts a σ' rest => ?_
  · split
    · next h => rw [h]; exact denotes_parseNegative
    · next h => rw [h]; exact denotes_parsePositive
    · next h => rw [h]; exact denotes_parsePositive
    · next h => rw [h]; exact denotes_wordAttribute .kwTrue (.bool true)
    · next h => rw [h]; exact denotes_wordAttribute .kwFalse (.bool false)
    · next h => rw [h]; exact denotes_tokenAttribute
    · next h => rw [h]; exact denotes_tokenAttribute
    · next h => rw [h]; exact Ty.denotes_parse.plain_pure type
    · next h => rw [h]; exact Ty.denotes_parse.plain_pure type
    · next h => rw [h]; exact Ty.denotes_parse.plain_pure type
    · next h =>
      refine denotes_failAt.of_iff fun _ _ _ _ _ => iff_of_false id ?_
      rintro ⟨-, hr⟩
      refine not_readsAs ?_ hr
      simp_all
  · intro t ht σ a σ' rest
    simp [ht, Plain, ReadsAs]
  · constructor
    · rintro ⟨t, mid, rfl, rfl, h⟩
      exact ⟨rfl, .of_readsAs h⟩
    · rintro ⟨rfl, h⟩
      obtain ⟨t, mid, e, hr⟩ := h.readsAs
      exact ⟨t, mid, e, rfl, hr⟩

theorem Reads.beyond {ts rest : List Token} {a : Attribute} (h : a.Reads ts rest) :
    Beyond ts rest := by
  have number {negative : Bool} {t colon : Token} {mid : List Token} {u : Ty}
      (hs : ReadsSign ts negative (t :: colon :: mid)) (hu : u.Reads mid rest) :
      Beyond ts rest := by
    cases negative with
    | true =>
      obtain ⟨m, rfl, -⟩ := hs
      exact .suffix_trans ⟨[m, t, colon], rfl⟩ hu.beyond
    | false =>
      cases hs
      exact .suffix_trans ⟨[t, colon], rfl⟩ hu.beyond
  cases a with
  | int _ u =>
    obtain ⟨negative, t, colon, mid, hs, -, -, -, hu⟩ := h
    exact number hs hu
  | float _ u =>
    obtain ⟨negative, t, colon, mid, hs, -, -, -, hu⟩ := h
    exact number hs hu
  | bool _ =>
    obtain ⟨t, e, -⟩ := h
    exact .of_eq e
  | string _ =>
    obtain ⟨t, e, -⟩ := h
    exact .of_eq e
  | symbol _ =>
    obtain ⟨t, e, -⟩ := h
    exact .of_eq e
  | type u => exact Ty.Reads.beyond h

end Attribute

namespace Attributes

def ReadsEntry (ts : List Token) (e : String × Attribute) (rest : List Token) : Prop :=
  ∃ key eq mid, ts = key :: eq :: mid ∧ key.kind = .bareIdentifier ∧ key.lexeme = e.1 ∧
    eq.kind = .equal ∧ e.2.Reads mid rest

def ReadsEntries (ts : List Token) (es : List (String × Attribute)) (rest : List Token) : Prop :=
  ∃ mid, Mark .lbrace ts mid ∧ ListOf .rbrace ReadsEntry mid es rest

/-- A dictionary in braces: entries in any order, whose keys differ. -/
def Reads (ts : List Token) (d : Attributes) (rest : List Token) : Prop :=
  ∃ es, ReadsEntries ts es rest ∧ (es.map (·.1)).Nodup ∧ d = ofList es

theorem ReadsEntry.beyond {ts rest : List Token} {e : String × Attribute}
    (h : ReadsEntry ts e rest) : Beyond ts rest := by
  obtain ⟨key, eq, mid, rfl, -, -, -, ha⟩ := h
  exact .suffix_trans ⟨[key, eq], rfl⟩ ha.beyond

theorem Reads.beyond {ts rest : List Token} {d : Attributes} (h : d.Reads ts rest) :
    Beyond ts rest := by
  obtain ⟨es, ⟨mid, hm, hl⟩, -⟩ := h
  exact hm.beyond.trans (Listed.beyond (fun h => h.2.beyond) hl)

theorem any_insertEntry {key k : String} {a : Attribute} {es : List (String × Attribute)} :
    (insertEntry key a es).any (·.1 == k) = (key == k || es.any (·.1 == k)) := by
  induction es with
  | nil => rfl
  | cons e es ih =>
    simp only [insertEntry]
    split
    · rfl
    · split
      · simp only [List.any_cons, ih]
        exact Bool.or_left_comm ..
      · next hlt hgt =>
        have he : e.1 = key := String.le_antisymm (String.not_lt.1 hlt) (String.not_lt.1 hgt)
        simp [he]

theorem contains_insert {d : Attributes} {key k : String} {a : Attribute} :
    (d.insert key a).contains k = (key == k || d.contains k) :=
  any_insertEntry

theorem denotes_parseEntry (d : Attributes) :
    Denotes (parseEntry d) fun σ ts d' σ' rest => σ' = σ ∧ ∃ e, ReadsEntry ts e rest ∧
      d.contains e.1 = false ∧ d' = d.insert e.1 e.2 := by
  refine (denotes_expect.plain_bind fun key => .require_bind (.mark_seq
    (Attribute.denotes_parse.plain_pure (d.insert key.lexeme)))).of_iff fun σ ts d' σ' rest => ?_
  constructor
  · rintro ⟨key, _, ⟨rfl, hk⟩, hd, rfl, mid, ⟨eq, rfl, he⟩, a, ha, rfl⟩
    exact ⟨rfl, (key.lexeme, a), ⟨key, eq, mid, rfl, hk, rfl, he, ha⟩, hd, rfl⟩
  · rintro ⟨rfl, ⟨k, a⟩, ⟨key, eq, mid, rfl, hk, rfl, he, ha⟩, hd, rfl⟩
    exact ⟨key, _, ⟨rfl, hk⟩, hd, rfl, mid, ⟨eq, rfl, he⟩, a, ha, rfl⟩

theorem listedFrom_insert_iff {d d' : Attributes} {σ σ' : List Scope} {ts rest : List Token} :
    ListedFrom .rbrace (fun d σ ts d' σ' rest => σ' = σ ∧ ∃ e, ReadsEntry ts e rest ∧
        d.contains e.1 = false ∧ d' = d.insert e.1 e.2) d σ ts d' σ' rest ↔
      ∃ es, Listed .rbrace (Plain ReadsEntry) σ ts es σ' rest ∧ (es.map (·.1)).Nodup ∧
        (∀ e ∈ es, d.contains e.1 = false) ∧ d' = es.foldl (fun d e => d.insert e.1 e.2) d := by
  constructor
  · intro h
    induction h with
    | nil ht => exact ⟨[], .nil ht, by simp, by simp, rfl⟩
    | last he ht =>
      obtain ⟨rfl, e, he, hd, rfl⟩ := he
      exact ⟨[e], .last ⟨rfl, he⟩ ht, by simp, by simpa using hd, rfl⟩
    | cons he ht _ ih =>
      obtain ⟨rfl, e, he, hd, rfl⟩ := he
      obtain ⟨es, hes, hnodup, hnew, rfl⟩ := ih
      simp only [contains_insert, Bool.or_eq_false_iff, beq_eq_false_iff_ne] at hnew
      refine ⟨e :: es, .cons ⟨rfl, he⟩ ht hes, ?_, ?_, rfl⟩
      · rw [List.map_cons, List.nodup_cons]
        refine ⟨?_, hnodup⟩
        rw [List.mem_map]
        rintro ⟨e', he', h⟩
        exact (hnew e' he').1 h.symm
      · rintro e' (_ | ⟨_, he'⟩)
        · exact hd
        · exact (hnew e' he').2
  · rintro ⟨es, hes, hnodup, hnew, rfl⟩
    induction hes generalizing d with
    | nil ht => exact .nil ht
    | @last e _ _ _ _ _ he ht =>
      exact .last ⟨he.1, e, he.2, hnew e (by simp), rfl⟩ ht
    | @cons e es _ _ _ _ _ _ _ he ht _ ih =>
      rw [List.map_cons, List.nodup_cons] at hnodup
      refine .cons ⟨he.1, e, he.2, hnew e (by simp), rfl⟩ ht (ih hnodup.2 fun e' he' => ?_)
      rw [contains_insert, Bool.or_eq_false_iff, beq_eq_false_iff_ne]
      refine ⟨fun h => hnodup.1 ?_, hnew e' (by simp [he'])⟩
      rw [h]
      exact List.mem_map_of_mem he'

theorem denotes_parse : Denotes parse (Plain Reads) := by
  refine (Denotes.mark_bind (denotes_entriesUntil (by decide) denotes_parseEntry ?_ ?_ ∅)).of_iff
    fun σ ts d σ' rest => ?_
  · rintro d σ ts d' σ' rest ⟨-, e, he, -⟩
    exact he.beyond
  · rintro d σ t ts d' σ' rest ⟨-, e, ⟨key, eq, mid, h, hk, -⟩, -⟩
    cases h
    simp [hk]
  · have hempty (k : String) : (∅ : Attributes).contains k = false := rfl
    simp only [listedFrom_insert_iff, hempty, implies_true, true_and]
    constructor
    · rintro ⟨mid, hm, es, hes, hnodup, rfl⟩
      exact ⟨hes.plain.1, es, ⟨mid, hm, hes.plain.2 []⟩, hnodup, rfl⟩
    · rintro ⟨rfl, es, ⟨mid, hm, hes⟩, hnodup, rfl⟩
      exact ⟨mid, hm, es, hes.plain.2 σ', hnodup, rfl⟩

end Attributes

end BrilIR
