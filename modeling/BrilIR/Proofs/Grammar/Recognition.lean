import BrilIR.Proofs.Grammar.Production
import BrilIR.Proofs.Lexical.Munch
import BrilIR.Proofs.Printing.Accepted

/-!
What is read is what the productions say. A reading looks ahead and a production does not, so the
converse needs tokens behind the text that do not continue it.
-/

namespace BrilIR

open Token BrilIR.Parser Production

def Before (l : Language Token) (ts rest : List Token) : Prop := ∃ us ∈ l, ts = us ++ rest

def Lexical (ts : List Token) : Prop := ∀ t ∈ ts, Lexeme t.kind t.lexeme.toList

section

variable {l m : Language Token} {ts rest : List Token}

theorem before_nil : Before l ts [] ↔ ts ∈ l := by
  simp [Before]

theorem before_empty : Before 1 ts rest ↔ rest = ts := by
  simp [Before, eq_comm]

theorem before_mul : Before (l * m) ts rest ↔ ∃ mid, Before l ts mid ∧ Before m mid rest := by
  constructor
  · intro h
    obtain ⟨us, hus, e⟩ := h
    obtain ⟨as, ha, bs, hb, rfl⟩ := Language.mem_mul.1 hus
    exact ⟨bs ++ rest, ⟨as, ha, by rw [e, List.append_assoc]⟩, bs, hb, rfl⟩
  · intro h
    obtain ⟨mid, ⟨as, ha, rfl⟩, bs, hb, rfl⟩ := h
    exact ⟨as ++ bs, Language.append_mem_mul ha hb, by rw [List.append_assoc]⟩

theorem Before.mul {mid : List Token} (h : Before l ts mid) (h' : Before m mid rest) :
    Before (l * m) ts rest :=
  before_mul.2 ⟨mid, h, h'⟩

theorem before_add : Before (l + m) ts rest ↔ Before l ts rest ∨ Before m ts rest := by
  simp [Before, Language.mem_add, or_and_right, exists_or]

theorem before_one {p : Token → Prop} : Before (one p) ts rest ↔ ∃ t, ts = t :: rest ∧ p t := by
  constructor
  · intro h
    obtain ⟨us, ⟨t, rfl, hp⟩, e⟩ := h
    exact ⟨t, e, hp⟩
  · intro h
    obtain ⟨t, e, hp⟩ := h
    exact ⟨[t], ⟨t, rfl, hp⟩, e⟩

theorem before_mark {kind : Kind} : Before (mark kind) ts rest ↔ Mark kind ts rest :=
  before_one

theorem before_word {kind : Kind} {w : String} :
    Before (word kind w) ts rest ↔ Word kind ts w rest :=
  before_one

theorem before_optional {absent : Prop} :
    Before (optional absent l) ts rest ↔ (absent ∧ rest = ts) ∨ Before l ts rest := by
  constructor
  · intro h
    obtain ⟨us, ⟨ha, rfl⟩ | hl, e⟩ := h
    · exact .inl ⟨ha, e.symm⟩
    · exact .inr ⟨us, hl, e⟩
  · intro h
    obtain ⟨ha, e⟩ | ⟨us, hl, e⟩ := h
    · exact ⟨[], .inl ⟨ha, rfl⟩, e.symm⟩
    · exact ⟨us, .inr hl, e⟩

theorem Before.suffix (h : Before l ts rest) : rest <:+ ts := by
  obtain ⟨us, -, e⟩ := h
  exact ⟨us, e.symm⟩

theorem Lexical.mono (h : Lexical ts) (hs : rest <:+ ts) : Lexical rest :=
  fun t ht => h t (hs.subset ht)

end

/-- What the relation reads is in the languages of its results, and what is in one of them is
read. -/
structure Recognizes {α : Type} (G : List Token → α → List Token → Prop)
    (l : α → Language Token) : Prop where
  sound : ∀ {ts a rest}, Lexical ts → G ts a rest → Before (l a) ts rest
  complete : ∀ {ts a rest}, Before (l a) ts rest → G ts a rest

theorem recognizes_word (kind : Kind) : Recognizes (Word kind) (word kind) :=
  ⟨fun _ h => before_word.2 h, before_word.1⟩

/-! Lists. -/

theorem listed_cons_cons (l m : Language Token) (ls : List (Language Token)) :
    listed (l :: m :: ls) = l * (mark .comma * listed (m :: ls)) := by
  simp only [listed, separated, mul_assoc]

/-- Behind an item stands the closing token or a comma with more of the list, if only nothing. -/
theorem before_listed_cons {l : Language Token} {ls : List (Language Token)} {close : Kind}
    {ts rest : List Token} : Before (listed (l :: ls) * mark close) ts rest ↔
      ∃ mid, Before l ts mid ∧ ((ls = [] ∧ Mark close mid rest) ∨
        ∃ mid', Mark .comma mid mid' ∧ Before (listed ls * mark close) mid' rest) := by
  cases ls with
  | nil => simp [listed, separated, mul_assoc, before_mul, before_add, before_empty, before_mark]
  | cons m ls =>
    simp [listed_cons_cons, mul_assoc, before_mul, before_mark]

section

variable {α : Type} {G : List Token → α → List Token → Prop} {l : α → Language Token}
  {σ σ' : List Scope} {ts rest : List Token} {as : List α} {close : Kind}

theorem Listed.before (hG : ∀ {ts a rest}, Lexical ts → G ts a rest → Before (l a) ts rest)
    (h : Listed close (Plain G) σ ts as σ' rest) (hl : Lexical ts) :
    Before (listed (as.map l) * mark close) ts rest := by
  induction h with
  | @nil _ t rest ht =>
    exact before_mul.2 ⟨t :: rest, before_empty.2 rfl, before_mark.2 ⟨t, rfl, ht⟩⟩
  | @last a _ _ ts t rest ha ht =>
    have hb := hG hl ha.2
    exact before_listed_cons.2 ⟨_, hb, .inl ⟨rfl, t, rfl, ht⟩⟩
  | @cons a as _ _ _ ts t mid rest ha ht _ ih =>
    have hb := hG hl ha.2
    have hmid : Lexical mid := hl.mono ((List.suffix_cons t mid).trans hb.suffix)
    exact before_listed_cons.2 ⟨_, hb, .inr ⟨mid, ⟨t, rfl, ht⟩, ih hmid⟩⟩

theorem listed_of_before (hG : ∀ a ∈ as, ∀ {ts rest}, Before (l a) ts rest → G ts a rest)
    (h : Before (listed (as.map l) * mark close) ts rest) : ListOf close G ts as rest := by
  induction as generalizing ts with
  | nil =>
    obtain ⟨mid, he, hm⟩ := before_mul.1 h
    obtain ⟨t, rfl, ht⟩ := before_mark.1 hm
    cases before_empty.1 he
    exact .nil ht
  | cons a as ih =>
    obtain ⟨ha, has⟩ := List.forall_mem_cons.1 hG
    obtain ⟨mid, hb, ⟨hnil, t, rfl, ht⟩ | ⟨mid', ⟨t, rfl, ht⟩, hrest⟩⟩ := before_listed_cons.1 h
    · cases List.map_eq_nil_iff.1 hnil
      exact .last ⟨rfl, ha hb⟩ ht
    · exact .cons ⟨rfl, ha hb⟩ ht (ih has hrest)

theorem Recognizes.listOf (h : Recognizes G l) (close : Kind) :
    Recognizes (ListOf close G) fun as => listed (as.map l) * mark close :=
  ⟨fun hl hr => Listed.before h.sound hr hl, fun hb => listed_of_before (fun _ _ => h.complete) hb⟩

theorem before_separated_cons {l m : Language Token} {ls : List (Language Token)} :
    Before (separated (l :: m :: ls)) ts rest ↔ ∃ t mid, Before l ts (t :: mid) ∧
      t.kind = .comma ∧ Before (separated (m :: ls)) mid rest := by
  constructor
  · intro h
    obtain ⟨mid, hb, htail⟩ := before_mul.1 h
    obtain ⟨mid', hm, hs⟩ := before_mul.1 htail
    obtain ⟨t, rfl, ht⟩ := before_mark.1 hm
    exact ⟨t, mid', hb, ht, hs⟩
  · intro h
    obtain ⟨t, mid, hb, ht, hs⟩ := h
    exact before_mul.2 ⟨_, hb, before_mul.2 ⟨mid, before_mark.2 ⟨t, rfl, ht⟩, hs⟩⟩

theorem Separated.before (hG : ∀ {ts a rest}, Lexical ts → G ts a rest → Before (l a) ts rest)
    (h : Separated (Plain G) σ ts as σ' rest) (hl : Lexical ts) :
    Before (separated (as.map l)) ts rest := by
  induction h with
  | last ha _ => exact hG hl ha.2
  | @cons a as _ _ _ ts t mid rest ha ht h ih =>
    have hb := hG hl ha.2
    have hmid : Lexical mid := hl.mono ((List.suffix_cons t mid).trans hb.suffix)
    cases as with
    | nil => cases h
    | cons b as => exact before_separated_cons.2 ⟨t, mid, hb, ht, ih hmid⟩

theorem commaList_of_before (hG : ∀ {ts a rest}, Before (l a) ts rest → G ts a rest)
    (h : Before (separated (as.map l)) ts rest) (hc : ¬ StartsWith .comma rest) :
    CommaList G ts as rest := by
  induction as generalizing ts with
  | nil =>
    obtain ⟨us, hu, -⟩ := h
    exact absurd hu (Language.notMem_zero us)
  | cons a as ih =>
    cases as with
    | nil => exact .last ⟨rfl, hG h⟩ hc
    | cons b as =>
      obtain ⟨t, mid, hb, ht, hs⟩ := before_separated_cons.1 h
      exact .cons ⟨rfl, hG hb⟩ ht (ih hs)

end

/-! Types. -/

theorem readNumeral_ok_iff {bound n : Nat} {ds : List Char} (h : Digits ds) :
    readNumeral bound ds = .ok n ↔ numeralValue ds = n ∧ n ≤ bound := by
  obtain ⟨hne, hd⟩ := h
  have hplus : readNumeral bound ds = readDigits bound 0 ds := by
    unfold readNumeral
    split
    · contradiction
    · exact absurd (hd '+' (by simp)) (by decide)
    · exact absurd (hd '+' (by simp)) (by decide)
    · rfl
  constructor
  · intro hr
    have hle := le_bound_of_readNumeral hr
    rw [hplus] at hr
    exact ⟨(eq_of_readDigits hr).symm, hle⟩
  · intro hn
    obtain ⟨rfl, hle⟩ := hn
    rw [hplus]
    exact readDigits_ok hd hle

theorem intOfText_ok_iff {s : String} {ds : List Char} {width : UInt32}
    (hs : s.toList = 'i' :: ds) (hd : Digits ds) :
    Ty.intOfText s = .ok (.int width) ↔ width ≠ 0 ∧ numeralValue ds = width.toNat := by
  have hlt := width.toNat_lt
  constructor
  · intro h
    unfold Ty.intOfText at h
    simp only [hs] at h
    split at h
    · cases h
    · cases h
    · next n hz hn =>
      obtain ⟨hv, hle⟩ := (readNumeral_ok_iff hd).1 hn
      cases h
      have hsize : UInt32.size = 2 ^ 32 := rfl
      have hnat : (UInt32.ofNat n).toNat = n := by
        rw [UInt32.toNat_ofNat']
        omega
      refine ⟨?_, hv.trans hnat.symm⟩
      intro e
      rw [e] at hnat
      exact hz hnat.symm
  · intro h
    obtain ⟨hz, hv⟩ := h
    have hn : readNumeral (UInt32.size - 1) ds = .ok width.toNat := by
      refine (readNumeral_ok_iff hd).2 ⟨hv, ?_⟩
      have hsize : UInt32.size = 2 ^ 32 := rfl
      omega
    have hne : width.toNat ≠ 0 := fun h0 => hz (UInt32.toNat_inj.1 h0)
    unfold Ty.intOfText
    simp only [hs, hn, UInt32.ofNat_toNat]

theorem floatOfText_ok_iff {s : String} {format : FloatTy} :
    Ty.floatOfText s = .ok (.float format) ↔ s = format.text := by
  constructor
  · intro h
    unfold Ty.floatOfText at h
    split at h
    · next hf =>
      cases h
      have hb := List.find?_some hf
      exact (beq_iff_eq.1 hb).symm
    · cases h
  · intro h
    subst h
    exact Ty.floatOfText_text format

theorem Ty.recognizes_tokens : Recognizes Ty.Reads Ty.tokens := by
  constructor
  · intro ts t rest hl h
    induction t generalizing ts rest with
    | int width =>
      obtain ⟨t, rfl, hk, ht⟩ := h
      have hw : Lexeme .intType t.lexeme.toList := hk ▸ hl t (by simp)
      obtain ⟨ds, hs, hd⟩ := lexeme_intType_iff.1 hw
      obtain ⟨hz, hv⟩ := (intOfText_ok_iff hs hd).1 ht
      exact before_one.2 ⟨t, rfl, hk, hz, ds, hs, hd, hv⟩
    | float format =>
      obtain ⟨t, rfl, hk, ht⟩ := h
      exact before_word.2 ⟨t, rfl, hk, floatOfText_ok_iff.1 ht⟩
    | ptr pointee ih =>
      obtain ⟨bang, name, less, mid, greater, rfl, hb, hn, hp, hls, hr, hg⟩ := h
      have hmid : Lexical mid := hl.mono ⟨[bang, name, less], rfl⟩
      exact before_mul.2 ⟨_, before_mark.2 ⟨bang, rfl, hb⟩, before_mul.2
        ⟨_, before_word.2 ⟨name, rfl, hn, hp⟩, before_mul.2 ⟨_, before_mark.2 ⟨less, rfl, hls⟩,
          before_mul.2 ⟨_, ih hmid hr, before_mark.2 ⟨greater, rfl, hg⟩⟩⟩⟩⟩
  · intro ts t rest h
    induction t generalizing ts rest with
    | int width =>
      obtain ⟨t, rfl, hk, hz, ds, hs, hd, hv⟩ := before_one.1 h
      exact ⟨t, rfl, hk, (intOfText_ok_iff hs hd).2 ⟨hz, hv⟩⟩
    | float format =>
      obtain ⟨t, rfl, hk, ht⟩ := before_word.1 h
      exact ⟨t, rfl, hk, floatOfText_ok_iff.2 ht⟩
    | ptr pointee ih =>
      simp only [tokens, before_mul, before_mark, before_word] at h
      obtain ⟨_, ⟨bang, rfl, hb⟩, _, ⟨name, rfl, hn, hp⟩, mid, ⟨less, rfl, hls⟩, _, hr, greater,
        rfl, hg⟩ := h
      exact ⟨bang, name, less, mid, greater, rfl, hb, hn, hp, hls, ih hr, hg⟩

theorem Ty.recognizes_listTokens : Recognizes Ty.ReadsList Ty.listTokens := by
  have list := Ty.recognizes_tokens.listOf .rparen
  constructor
  · intro ts types rest hl h
    obtain ⟨mid, hm, h⟩ := h
    exact before_mul.2 ⟨mid, before_mark.2 hm, list.sound (hl.mono hm.beyond.suffix) h⟩
  · intro ts types rest h
    obtain ⟨mid, hm, h⟩ := before_mul.1 h
    exact ⟨mid, before_mark.1 hm, list.complete h⟩

theorem before_resultTokens {types : List Ty} {ts rest : List Token} :
    Before (Ty.resultTokens types) ts rest ↔
      Before (Ty.listTokens types) ts rest ∨ ∃ t, types = [t] ∧ Before t.tokens ts rest := by
  unfold Ty.resultTokens
  split
  · next t =>
    rw [before_add, or_comm]
    simp
  · next hne =>
    have hno : ¬ ∃ t, types = [t] ∧ Before t.tokens ts rest := by
      intro h
      obtain ⟨t, e, -⟩ := h
      exact hne t e
    rw [or_iff_left hno]

theorem Ty.recognizes_resultTokens : Recognizes Ty.ReadsResults Ty.resultTokens := by
  constructor
  · intro ts types rest hl h
    cases h with
    | inl h => exact before_resultTokens.2 (.inl (recognizes_listTokens.sound hl h))
    | inr h =>
      obtain ⟨t, e, h⟩ := h
      exact before_resultTokens.2 (.inr ⟨t, e, recognizes_tokens.sound hl h⟩)
  · intro ts types rest h
    cases before_resultTokens.1 h with
    | inl h => exact .inl (recognizes_listTokens.complete h)
    | inr h =>
      obtain ⟨t, e, h⟩ := h
      exact .inr ⟨t, e, recognizes_tokens.complete h⟩

/-! Attributes. -/

theorem int64?_eq_some_iff {negative : Bool} {ds : List Char} {value : Int64} :
    int64? negative ds = some value ↔ value.toInt =
      if negative then -(numeralValue ds : Int) else numeralValue ds := by
  have hlo := value.le_toInt
  have hhi := value.toInt_lt
  have hhalf : UInt64.size / 2 = 2 ^ 63 := rfl
  have inside {i : Int} (h₁ : -2 ^ 63 ≤ i) (h₂ : i < 2 ^ 63) :
      some (Int64.ofInt i) = some value ↔ value.toInt = i := by
    rw [Option.some.injEq, ← Int64.toInt_inj, Int64.toInt_ofInt_of_le h₁ h₂, eq_comm]
  unfold int64?
  rw [hhalf]
  cases negative with
  | true =>
    by_cases hn : numeralValue ds ≤ 2 ^ 63
    · simp only [if_true, if_pos hn]
      exact inside (by omega) (by omega)
    · simp only [if_true, if_neg hn]
      constructor
      · intro h
        cases h
      · intro h
        omega
  | false =>
    by_cases hn : numeralValue ds < 2 ^ 63
    · simp only [Bool.false_eq_true, if_false, if_pos hn]
      exact inside (by omega) (by omega)
    · simp only [Bool.false_eq_true, if_false, if_neg hn]
      constructor
      · intro h
        cases h
      · intro h
        omega

theorem before_number {kind : Kind} {stands : Bool → String → Prop} {ts rest : List Token} :
    Before (number kind stands) ts rest ↔ ∃ negative t, ReadsSign ts negative (t :: rest) ∧
      t.kind = kind ∧ stands negative t.lexeme := by
  simp only [number, before_add, before_mul, before_mark, before_one]
  constructor
  · intro h
    cases h with
    | inl h =>
      obtain ⟨_, hm, t, rfl, ht⟩ := h
      exact ⟨true, t, hm, ht⟩
    | inr h =>
      obtain ⟨t, rfl, ht⟩ := h
      exact ⟨false, t, rfl, ht⟩
  · intro h
    obtain ⟨negative, t, hs, ht⟩ := h
    cases negative with
    | true => exact .inl ⟨_, hs, t, rfl, ht⟩
    | false => exact .inr ⟨t, hs.symm, ht⟩

theorem before_typed {kind : Kind} {stands : Bool → String → Prop} {u : Ty}
    {ts rest : List Token} :
    Before (number kind stands * (mark .colon * u.tokens)) ts rest ↔
      ∃ negative t colon mid, ReadsSign ts negative (t :: colon :: mid) ∧ t.kind = kind ∧
        stands negative t.lexeme ∧ colon.kind = .colon ∧ Before u.tokens mid rest := by
  simp only [before_mul, before_number, before_mark]
  constructor
  · intro h
    obtain ⟨_, ⟨negative, t, hs, hk, hv⟩, mid, ⟨colon, rfl, hc⟩, hu⟩ := h
    exact ⟨negative, t, colon, mid, hs, hk, hv, hc, hu⟩
  · intro h
    obtain ⟨negative, t, colon, mid, hs, hk, hv, hc, hu⟩ := h
    exact ⟨_, ⟨negative, t, hs, hk, hv⟩, mid, ⟨colon, rfl, hc⟩, hu⟩

theorem Attribute.recognizes_tokens : Recognizes Attribute.Reads Attribute.tokens := by
  have lexical {negative : Bool} {t colon : Token} {ts mid : List Token} (hl : Lexical ts)
      (hs : ReadsSign ts negative (t :: colon :: mid)) : Lexical mid := by
    cases negative with
    | true =>
      obtain ⟨m, rfl, -⟩ := hs
      exact hl.mono ⟨[m, t, colon], rfl⟩
    | false =>
      cases hs
      exact hl.mono ⟨[t, colon], rfl⟩
  constructor
  · intro ts a rest hl h
    cases a with
    | int value u =>
      obtain ⟨negative, t, colon, mid, hs, hk, hv, hc, hu⟩ := h
      exact before_typed.2 ⟨negative, t, colon, mid, hs, hk, int64?_eq_some_iff.1 hv, hc,
        Ty.recognizes_tokens.sound (lexical hl hs) hu⟩
    | float value u =>
      obtain ⟨negative, t, colon, mid, hs, hk, hv, hc, hu⟩ := h
      exact before_typed.2 ⟨negative, t, colon, mid, hs, hk, hv, hc,
        Ty.recognizes_tokens.sound (lexical hl hs) hu⟩
    | bool b => exact before_mark.2 h
    | string s => exact before_one.2 h
    | symbol s => exact before_one.2 h
    | type u => exact Ty.recognizes_tokens.sound hl h
  · intro ts a rest h
    cases a with
    | int value u =>
      obtain ⟨negative, t, colon, mid, hs, hk, hv, hc, hu⟩ := before_typed.1 h
      exact ⟨negative, t, colon, mid, hs, hk, int64?_eq_some_iff.2 hv, hc,
        Ty.recognizes_tokens.complete hu⟩
    | float value u =>
      obtain ⟨negative, t, colon, mid, hs, hk, hv, hc, hu⟩ := before_typed.1 h
      exact ⟨negative, t, colon, mid, hs, hk, hv, hc, Ty.recognizes_tokens.complete hu⟩
    | bool b => exact before_mark.1 h
    | string s => exact before_one.1 h
    | symbol s => exact before_one.1 h
    | type u => exact Ty.recognizes_tokens.complete h

theorem Attributes.recognizes_entryTokens : Recognizes ReadsEntry entryTokens := by
  constructor
  · intro ts e rest hl h
    obtain ⟨key, eq, mid, rfl, hk, hw, he, ha⟩ := h
    exact before_mul.2 ⟨_, before_word.2 ⟨key, rfl, hk, hw⟩, before_mul.2
      ⟨mid, before_mark.2 ⟨eq, rfl, he⟩,
        Attribute.recognizes_tokens.sound (hl.mono ⟨[key, eq], rfl⟩) ha⟩⟩
  · intro ts e rest h
    simp only [entryTokens, before_mul, before_word, before_mark] at h
    obtain ⟨_, ⟨key, rfl, hk, hw⟩, mid, ⟨eq, rfl, he⟩, ha⟩ := h
    exact ⟨key, eq, mid, rfl, hk, hw, he, Attribute.recognizes_tokens.complete ha⟩

theorem Attributes.recognizes_tokens : Recognizes Reads tokens := by
  have list := recognizes_entryTokens.listOf .rbrace
  constructor
  · intro ts d rest hl h
    obtain ⟨es, ⟨mid, hm, h⟩, hn, hd⟩ := h
    have hb := before_mul.2 ⟨mid, before_mark.2 hm, list.sound (hl.mono hm.beyond.suffix) h⟩
    obtain ⟨us, hu, e⟩ := hb
    exact ⟨us, ⟨es, hn, hd, hu⟩, e⟩
  · intro ts d rest h
    obtain ⟨us, ⟨es, hn, hd, hu⟩, e⟩ := h
    obtain ⟨mid, hm, h⟩ := before_mul.1 ⟨us, hu, e⟩
    exact ⟨es, ⟨mid, before_mark.1 hm, list.complete h⟩, hn, hd⟩

end BrilIR
