import BrilIR.Proofs.Decimal.Text
import BrilIR.Proofs.Grammar.Attribute
import BrilIR.Proofs.Printing.Ty

/-! The text of an attribute is read as the attribute. -/

namespace BrilIR

open Token BrilIR.Parser

def IsName (s : String) : Prop := s.toList ≠ [] ∧ ∀ c ∈ s.toList, isIdentifierChar c = true

/-- Text that can stand between quotes and is not taken for more quotes there. -/
def IsContent (s : String) : Prop := isStringBody s.toList = true ∧ s.toList.getLast? ≠ some '"'

theorem lexeme_at {s : String} (h : IsName s) : Lexeme .atIdentifier ("@" ++ s).toList := by
  refine ⟨'@', s.toList, by simp, rfl, h.1, h.2⟩

theorem trimAt_at {s : String} (h : IsName s) : trimAt ("@" ++ s) = s := by
  have e : ("@" ++ s).toList = '@' :: s.toList := by simp
  rw [trimAt, e]
  cases hs : s.toList with
  | nil => exact absurd hs h.1
  | cons c cs =>
    have hc : c ≠ '@' := by
      rintro rfl
      exact absurd (h.2 '@' (by simp [hs])) (by decide)
    rw [List.dropWhile_cons_of_pos (by simp), List.dropWhile_cons_of_neg (by simpa using hc), ← hs,
      String.ofList_toList]

theorem IsContent.lexeme {s : String} (h : IsContent s) :
    Lexeme .string ("\"" ++ s ++ "\"").toList :=
  ⟨s.toList, by simp, h.1⟩

theorem IsContent.trimQuotes {s : String} (h : IsContent s) :
    trimQuotes ("\"" ++ s ++ "\"") = s := by
  have e : ("\"" ++ s ++ "\"").toList = '"' :: (s.toList ++ ['"']) := by simp
  rw [BrilIR.trimQuotes, e]
  cases hs : s.toList with
  | nil => rw [← String.ofList_toList (s := s), hs]; rfl
  | cons c cs =>
    have hc : c ≠ '"' := (isStringBody_head (hs ▸ h.1)).1
    have hl : (c :: cs).reverse.head? ≠ some '"' := by
      rw [List.head?_reverse, ← hs]
      exact h.2
    rw [List.dropWhile_cons_of_pos (by simp), List.cons_append,
      List.dropWhile_cons_of_neg (by simpa using hc), ← List.cons_append, List.reverse_append,
      List.reverse_singleton, List.singleton_append, List.dropWhile_cons_of_pos (by simp)]
    cases hr : (c :: cs).reverse with
    | nil => simp at hr
    | cons d ds =>
      rw [hr] at hl
      rw [List.dropWhile_cons_of_neg (by simpa using hl), ← hr, List.reverse_reverse, ← hs,
        String.ofList_toList]

theorem isStringBody_of_identifierChars {cs : List Char}
    (h : ∀ c ∈ cs, isIdentifierChar c = true) : isStringBody cs = true := by
  induction cs with
  | nil => rfl
  | cons c cs ih =>
    obtain ⟨hc, hcs⟩ := List.forall_mem_cons.1 h
    have hne {d : Char} (hd : isIdentifierChar d = false) : c ≠ d := by
      rintro rfl
      simp [hc] at hd
    rw [isStringBody_plain (hne (by decide)) (hne (by decide)) (hne (by decide)), ih hcs]

theorem isContent_of_identifierChars {s : String}
    (h : ∀ c ∈ s.toList, isIdentifierChar c = true) : IsContent s := by
  refine ⟨isStringBody_of_identifierChars h, fun e => ?_⟩
  exact absurd (h '"' (List.mem_of_getLast? e)) (by decide)

theorem digits_toDigits (n : Nat) : Digits (Nat.toDigits 10 n) :=
  ⟨Nat.toDigits_ne_nil, isDigit_of_mem_toDigits⟩

theorem int64?_natAbs (value : Int64) : int64? (decide (value.toInt < 0))
    (toString value.toInt.natAbs).toList = some value := by
  have hlo := value.le_toInt
  have hhi := value.toInt_lt
  have hhalf : UInt64.size / 2 = 2 ^ 63 := rfl
  have e : (toString value.toInt.natAbs).toList = Nat.toDigits 10 value.toInt.natAbs := by simp
  rw [e, int64?, numeralValue_toDigits, hhalf]
  by_cases h : value.toInt < 0
  · have hn : -((value.toInt.natAbs : Nat) : Int) = value.toInt := by omega
    rw [if_pos (by simpa using h), if_pos (by omega), hn, Int64.ofInt_toInt]
  · have hn : ((value.toInt.natAbs : Nat) : Int) = value.toInt := by omega
    rw [if_neg (by simpa using h), if_pos (by omega), hn, Int64.ofInt_toInt]

theorem writes_sign (negative : Bool) :
    Writes (fun cs => cs.head? ≠ some '>') (if negative then "-" else "").toList fun ts rest =>
      ReadsSign ts negative rest := by
  cases negative with
  | false => exact Writes.nil
  | true =>
    have hl : Lexeme .minus "-".toList := rfl
    refine (Writes.lexeme hl).imp ?_
    rintro ts rest ⟨t, e, hk, -⟩
    exact ⟨t, e, hk⟩

namespace Attribute

/-- Attributes that a source can name. -/
def Regular : Attribute → Prop
  | int _ t => t.Regular
  | float x t => x.Finite ∧ t.Regular
  | bool _ => True
  | string s => IsContent s
  | symbol s => IsName s
  | type t => t.Regular

theorem head_isDigit {kind : Kind} {w rest : List Char} {c : Char} (hl : Lexeme kind w)
    (hkind : kind = .integer ∨ kind = .floatLiteral) (hc : (w ++ rest).head? = some c) :
    c.isDigit = true := by
  rcases hkind with rfl | rfl
  · exact Digits.head hl c hc
  · obtain ⟨whole, fraction, exponent, rfl, hw, -⟩ := hl
    rw [List.append_assoc] at hc
    exact hw.head c hc

theorem writes_number (kind : Kind) {negative : Bool} {w : String} {t : Ty} (h : t.Regular)
    (hl : Lexeme kind w.toList) (hkind : kind = .integer ∨ kind = .floatLiteral) :
    Writes Boundary ((if negative then "-" else "") ++ w ++ " : " ++ t.text).toList fun ts rest =>
      ∃ u colon mid, ReadsSign ts negative (u :: colon :: mid) ∧ u.kind = kind ∧ u.lexeme = w ∧
        colon.kind = .colon ∧ t.Reads mid rest := by
  have e : ((if negative then "-" else "") ++ w ++ " : " ++ t.text).toList =
      (if negative then "-" else "").toList ++
        (w.toList ++ ([' ', ':', ' '] ++ t.text.toList)) := by
    simp
  have colon : Writes Anything [' ', ':', ' '] (Mark .colon) :=
    .mark [' '] ':' [' '] rfl (by decide) (by decide)
  rw [e]
  refine ((writes_sign negative).append ((Writes.lexeme hl).append
    (colon.append (Ty.writes_text h) fun _ _ => trivial) fun rest _ => ?_) fun rest _ => ?_).imp ?_
  · have hb : Boundary ([' ', ':', ' '] ++ t.text.toList ++ rest) := boundary_cons.2 (by decide)
    rcases hkind with rfl | rfl <;> exact hb
  · rw [List.append_assoc]
    intro hd
    have := head_isDigit hl hkind hd
    exact absurd this (by decide)
  · rintro ts rest ⟨_, hs, _, ⟨u, rfl, hk, hw⟩, mid, ⟨colon, rfl, hc⟩, ht⟩
    exact ⟨u, colon, mid, hs, hk, hw, hc, ht⟩

theorem writes_text {a : Attribute} (h : a.Regular) :
    Writes Boundary a.text.toList fun ts rest => a.Reads ts rest := by
  cases a with
  | int value t =>
    have e : (int value t).text = (if decide (value.toInt < 0) then "-" else "") ++
        toString value.toInt.natAbs ++ " : " ++ t.text := by
      rw [text, toString_int]
      simp
    have hl : Digits (toString value.toInt.natAbs).toList := by
      simpa using digits_toDigits value.toInt.natAbs
    rw [e]
    refine (writes_number .integer h hl (.inl rfl)).imp ?_
    rintro ts rest ⟨u, colon, mid, hs, hk, hw, hc, ht⟩
    exact ⟨_, u, colon, mid, hs, hk, by rw [hw, int64?_natAbs], hc, ht⟩
  | float x t =>
    obtain ⟨w, e, hl, hr⟩ := Binary64.exists_text h.1
    have e' : (float x t).text = (if x.negative then "-" else "") ++ w ++ " : " ++ t.text := by
      rw [text, e]
    rw [e']
    refine (writes_number .floatLiteral h.2 hl (.inr rfl)).imp ?_
    rintro ts rest ⟨u, colon, mid, hs, hk, hw, hc, ht⟩
    exact ⟨_, u, colon, mid, hs, hk, by rw [signedLexeme, hw, ← e, hr], hc, ht⟩
  | bool b =>
    have hl : Lexeme (if b then .kwTrue else .kwFalse) (bool b).text.toList := by
      cases b
      · refine ⟨'f', _, rfl, ?_, List.all_eq_true.1 ?_, ?_⟩ <;> decide
      · refine ⟨'t', _, rfl, ?_, List.all_eq_true.1 ?_, ?_⟩ <;> decide
    refine ((Writes.lexeme hl).strengthen fun _ hb => ?_).imp ?_
    · cases b <;> exact hb
    · rintro ts rest ⟨t, e, hk, -⟩
      exact ⟨t, e, hk⟩
  | string s =>
    refine ((Writes.lexeme (IsContent.lexeme h)).strengthen fun _ _ => trivial).imp ?_
    rintro ts rest ⟨t, e, hk, hw⟩
    exact ⟨t, e, hk, hw ▸ IsContent.trimQuotes h⟩
  | symbol s =>
    refine (Writes.lexeme (lexeme_at h)).imp ?_
    rintro ts rest ⟨t, e, hk, hw⟩
    exact ⟨t, e, hk, hw ▸ trimAt_at h⟩
  | type t => exact Ty.writes_text h

end Attribute

namespace Attributes

def Regular (d : Attributes) : Prop :=
  ∀ e ∈ d.entries, Lexeme .bareIdentifier e.1.toList ∧ e.2.Regular

theorem regular_empty : (∅ : Attributes).Regular :=
  List.forall_mem_nil _

theorem insertEntry_of_forall_lt {key : String} {a : Attribute} {es : List (String × Attribute)}
    (h : ∀ e ∈ es, e.1 < key) : insertEntry key a es = es ++ [(key, a)] := by
  induction es with
  | nil => rfl
  | cons e es ih =>
    obtain ⟨he, hes⟩ := List.forall_mem_cons.1 h
    have hlt : ¬ key < e.1 := fun hlt => String.lt_irrefl _ (String.lt_trans hlt he)
    rw [insertEntry, if_neg hlt, if_pos he, ih hes]
    rfl

theorem entries_foldl_insert {d : Attributes} {es : List (String × Attribute)}
    (h : (d.entries ++ es).Pairwise fun a b => a.1 < b.1) :
    (es.foldl (fun d e => d.insert e.1 e.2) d).entries = d.entries ++ es := by
  induction es generalizing d with
  | nil => simp
  | cons e es ih =>
    have hlt : ∀ a ∈ d.entries, a.1 < e.1 := fun a ha =>
      (List.pairwise_append.1 h).2.2 a ha e (by simp)
    have he : (d.insert e.1 e.2).entries = d.entries ++ [e] := insertEntry_of_forall_lt hlt
    have h' : ((d.insert e.1 e.2).entries ++ es).Pairwise fun a b => a.1 < b.1 := by
      rw [he]
      simpa using h
    rw [List.foldl_cons, ih h', he]
    simp

theorem eq_of_entries {d e : Attributes} (h : d.entries = e.entries) : d = e := by
  cases d
  cases e
  cases h
  rfl

theorem ofList_entries (d : Attributes) : ofList d.entries = d :=
  eq_of_entries (entries_foldl_insert (d := ∅) d.sorted)

theorem nodup_keys (d : Attributes) : (d.entries.map (·.1)).Nodup := by
  rw [List.Nodup, List.pairwise_map]
  refine d.sorted.imp fun {a b} h e => ?_
  rw [e] at h
  exact String.lt_irrefl _ h

theorem writes_entryText {e : String × Attribute} (hk : Lexeme .bareIdentifier e.1.toList)
    (ha : e.2.Regular) :
    Writes Boundary (entryText e).toList fun ts rest => ReadsEntry ts e rest := by
  have h : (entryText e).toList = e.1.toList ++ ([' ', '=', ' '] ++ e.2.text.toList) := by
    simp [entryText]
  have equal : Writes Anything [' ', '=', ' '] (Mark .equal) :=
    .mark [' '] '=' [' '] rfl (by decide) (by decide)
  rw [h]
  refine ((Writes.lexeme hk).append (equal.append (Attribute.writes_text ha) fun _ _ => trivial)
    fun rest _ => ?_).imp ?_
  · exact boundary_cons.2 (by decide)
  · rintro ts rest ⟨_, ⟨key, rfl, hk, hn⟩, mid, ⟨eq, rfl, he⟩, hr⟩
    exact ⟨key, eq, mid, rfl, hk, hn, he, hr⟩

/-- The text of a dictionary is read as the dictionary, but nothing is written of an empty one. -/
theorem writes_text {d : Attributes} (h : d.Regular) : Writes Anything d.text.toList fun ts rest =>
    ¬ StartsWith .lbrace rest → IfNext .lbrace Reads ∅ ts d rest := by
  unfold text
  by_cases he : d.isEmpty = true
  · have hd : d = ∅ := eq_of_entries (List.isEmpty_iff.1 he)
    rw [if_pos he]
    refine Writes.nil.imp ?_
    rintro ts rest rfl hs
    exact .inr ⟨hs, hd, rfl⟩
  · have e : (" \x7b" ++ ", ".intercalate (d.entries.map entryText) ++ "\x7d").toList =
        [' ', '\x7b'] ++ ((", ".intercalate (d.entries.map entryText)).toList ++ ['\x7d']) := by
      simp
    have lbrace : Writes Anything [' ', '\x7b'] (Mark .lbrace) :=
      .mark [' '] '\x7b' [] rfl (by decide) (by decide)
    rw [if_neg he, e]
    refine (lbrace.append (Writes.closed .rbrace d.entries rfl (by decide) fun e he =>
      writes_entryText (h e he).1 (h e he).2) fun _ _ => trivial).imp ?_
    rintro ts rest ⟨mid, hm, hl⟩ -
    exact .inl ⟨hm.startsWith, d.entries, ⟨mid, hm, hl⟩, d.nodup_keys, d.ofList_entries.symm⟩

end Attributes

end BrilIR
