import BrilIR.Op.Printer
import BrilIR.Proofs.Decimal.Numeral
import BrilIR.Proofs.Grammar.Ty
import BrilIR.Proofs.Lexical.Layout
import BrilIR.Proofs.Lexical.Writing

/-! The text of a type is cut into the words that it is written with, and read as the type. -/

namespace BrilIR.Ty

open Token BrilIR.Parser

/-- Types that a source can name: integers have a width. -/
def Regular : Ty → Prop
  | int width => width ≠ 0
  | float _ => True
  | ptr pointee => pointee.Regular

theorem Reads.regular {ts rest : List Token} {t : Ty} (h : t.Reads ts rest) : t.Regular := by
  induction t generalizing ts rest with
  | int width =>
    obtain ⟨u, -, -, h⟩ := h
    unfold intOfText at h
    split at h
    · next ds _ =>
      split at h
      · cases h
      · cases h
      · next n hz hn =>
        cases h
        intro e
        have hb := le_bound_of_readNumeral hn
        have hm := congrArg UInt32.toNat e
        simp only [UInt32.toNat_ofNat', UInt32.toNat_zero] at hm
        simp only [UInt32.size] at hb
        exact hz (by omega)
    · cases h
  | float _ => trivial
  | ptr p ih =>
    obtain ⟨_, _, _, mid, _, -, -, -, -, -, hp, -⟩ := h
    exact ih hp

theorem lexeme_int (width : UInt32) : Lexeme .intType (int width).text.toList := by
  have hd := @isDigit_of_mem_toDigits width.toNat
  have e : (int width).text.toList = 'i' :: Nat.toDigits 10 width.toNat := by simp [text]
  rw [e]
  refine ⟨'i', _, rfl, by decide, fun c hc => isIdentifierChar_of_isDigit (hd c hc), ?_⟩
  simp [wordKind, isIntTypeWord, Nat.toDigits_ne_nil, List.all_eq_true.2 hd]

theorem lexeme_float (format : FloatTy) : Lexeme .floatType (float format).text.toList := by
  cases format <;> refine ⟨'f', _, rfl, ?_, List.all_eq_true.1 ?_, ?_⟩ <;> decide

theorem intOfText_text {width : UInt32} (h : width ≠ 0) :
    intOfText (int width).text = .ok (int width) := by
  have e : (int width).text.toList = 'i' :: Nat.toDigits 10 width.toNat := by simp [text]
  have hr : readNumeral (UInt32.size - 1) (Nat.toDigits 10 width.toNat) = .ok width.toNat :=
    readNumeral_toDigits (by have := width.toNat_lt; simp only [UInt32.size]; omega)
  have hne : width.toNat ≠ 0 := fun h0 => h (UInt32.toNat_inj.1 h0)
  unfold intOfText
  simp only [e, hr, UInt32.ofNat_toNat]

theorem floatOfText_text (format : FloatTy) :
    floatOfText (float format).text = .ok (float format) := by
  cases format <;> rfl

def words : Ty → List (Kind × String)
  | int width => [(.intType, (int width).text)]
  | float format => [(.floatType, format.text)]
  | ptr pointee =>
    (.exclamation, "!") :: (.bareIdentifier, "bril.ptr") :: (.less, "<") ::
      (pointee.words ++ [(.greater, ">")])

def Spelled (ws : List (Kind × String)) (ts rest : List Token) : Prop :=
  ∃ us, ts = us ++ rest ∧ us.map Token.content = ws

theorem spelled_one {kind : Kind} {w : String} {ts rest : List Token} :
    Spelled [(kind, w)] ts rest ↔ Word kind ts w rest := by
  constructor
  · intro given
    obtain ⟨us, rfl, h⟩ := given
    obtain ⟨u, rfl, hu⟩ := List.map_eq_singleton_iff.1 h
    cases hu
    exact ⟨u, rfl, rfl, rfl⟩
  · intro given
    obtain ⟨u, rfl, rfl, rfl⟩ := given
    exact ⟨[u], rfl, rfl⟩

theorem spelled_ptr {p : Ty} {ts rest : List Token} : Spelled (ptr p).words ts rest ↔
    ∃ bang name less mid greater, ts = bang :: name :: less :: mid ∧
      bang.content = (.exclamation, "!") ∧ name.content = (.bareIdentifier, "bril.ptr") ∧
      less.content = (.less, "<") ∧ Spelled p.words mid (greater :: rest) ∧
      greater.content = (.greater, ">") := by
  constructor
  · intro given
    obtain ⟨us, rfl, h⟩ := given
    simp only [words, List.map_eq_cons_iff, List.map_eq_append_iff, List.map_eq_nil_iff] at h
    obtain ⟨bang, _, rfl, hb, name, _, rfl, hn, less, _, rfl, hl, mid, _, rfl, hp, greater, _, rfl,
      hg, rfl⟩ := h
    exact ⟨bang, name, less, _, greater, rfl, hb, hn, hl, ⟨mid, by simp, hp⟩, hg⟩
  · intro given
    obtain ⟨bang, name, less, _, greater, rfl, hb, hn, hl, ⟨mid, rfl, hp⟩, hg⟩ := given
    exact ⟨bang :: name :: less :: (mid ++ [greater]), by simp, by simp [words, hb, hn, hl, hp, hg]⟩

/-- Every type is written with its words, also one that no source can name. -/
theorem writes_spelled (t : Ty) : Writes Boundary t.text.toList (Spelled t.words) := by
  induction t with
  | int width => exact (Writes.lexeme (lexeme_int width)).imp fun _ _ => spelled_one.2
  | float format => exact (Writes.lexeme (lexeme_float format)).imp fun _ _ => spelled_one.2
  | ptr p ih =>
    have e : (ptr p).text.toList =
        "!".toList ++ ("bril.ptr".toList ++ ("<".toList ++ (p.text.toList ++ ">".toList))) := by
      simp [text]
    have name : Lexeme .bareIdentifier "bril.ptr".toList := by
      refine ⟨'b', _, rfl, ?_, List.all_eq_true.1 ?_, ?_⟩ <;> decide
    have bang : Writes Anything "!".toList fun ts rest => Word .exclamation ts "!" rest :=
      (Writes.lexeme (lexeme_mark rfl)).strengthen fun _ _ => trivial
    have less : Writes Anything "<".toList fun ts rest => Word .less ts "<" rest :=
      (Writes.lexeme (lexeme_mark rfl)).strengthen fun _ _ => trivial
    have greater : Writes Boundary ">".toList fun ts rest => Word .greater ts ">" rest :=
      (Writes.lexeme (lexeme_mark rfl)).strengthen fun _ _ => trivial
    rw [e]
    refine (bang.append ((Writes.lexeme name).append (less.append (ih.append greater
      fun _ _ => ?_) fun _ _ => trivial) fun _ _ => ?_) fun _ _ => trivial).imp ?_
    · exact boundary_cons.2 (by decide)
    · exact boundary_cons.2 (by decide)
    · rintro ts rest ⟨_, ⟨bang, rfl, hb, hb'⟩, _, ⟨name, rfl, hn, hn'⟩, mid,
        ⟨less, rfl, hl, hl'⟩, _, hp, ⟨greater, rfl, hg, hg'⟩⟩
      exact spelled_ptr.2 ⟨bang, name, less, mid, greater, rfl, Prod.ext hb hb', Prod.ext hn hn',
        Prod.ext hl hl', hp, Prod.ext hg hg'⟩

theorem Spelled.reads {t : Ty} {ts rest : List Token} (h : t.Regular)
    (hs : Spelled t.words ts rest) : t.Reads ts rest := by
  induction t generalizing ts rest with
  | int width =>
    obtain ⟨u, rfl, hk, hw⟩ := spelled_one.1 hs
    exact ⟨u, rfl, hk, hw ▸ intOfText_text h⟩
  | float format =>
    obtain ⟨u, rfl, hk, hw⟩ := spelled_one.1 hs
    exact ⟨u, rfl, hk, hw ▸ floatOfText_text format⟩
  | ptr p ih =>
    obtain ⟨bang, name, less, mid, greater, rfl, hb, hn, hl, hp, hg⟩ := spelled_ptr.1 hs
    exact ⟨bang, name, less, mid, greater, rfl, congrArg Prod.fst hb, congrArg Prod.fst hn,
      congrArg Prod.snd hn, congrArg Prod.fst hl, ih h hp, congrArg Prod.fst hg⟩

/-- The text of a type is read as the type. -/
theorem writes_text {t : Ty} (h : t.Regular) :
    Writes Boundary t.text.toList fun ts rest => t.Reads ts rest :=
  (writes_spelled t).imp fun _ _ hs => hs.reads h

theorem writes_listText {ts : List Ty} (hne : ts ≠ []) (h : ∀ t ∈ ts, t.Regular) :
    Writes Boundary (listText ts).toList fun us rest =>
      ¬ StartsWith .comma rest → CommaList Reads us ts rest :=
  Writes.separated ts hne fun t ht => writes_text (h t ht)

theorem writes_list {ts : List Ty} (h : ∀ t ∈ ts, t.Regular) :
    Writes Anything ("(" ++ listText ts ++ ")").toList fun us rest => ReadsList us ts rest := by
  have e : ("(" ++ listText ts ++ ")").toList = ['('] ++ ((listText ts).toList ++ [')']) := by simp
  have lparen : Writes Anything ['('] (Mark .lparen) := .mark [] '(' [] rfl (by decide) (by decide)
  rw [e]
  refine (lparen.append (Writes.closed .rparen ts rfl (by decide)
    fun t ht => writes_text (h t ht)) fun _ _ => trivial).imp ?_
  rintro us rest ⟨mid, hm, hl⟩
  exact ⟨mid, hm, hl⟩

theorem writes_resultsText {ts : List Ty} (h : ∀ t ∈ ts, t.Regular) :
    Writes Boundary (resultsText ts).toList fun us rest => ReadsResults us ts rest := by
  unfold resultsText
  split
  · next t =>
    refine (writes_text (h t (by simp))).imp fun us rest ht => .inr ⟨t, rfl, ht⟩
  · exact ((writes_list h).strengthen fun _ _ => trivial).imp fun us rest hl => .inl hl

end BrilIR.Ty
