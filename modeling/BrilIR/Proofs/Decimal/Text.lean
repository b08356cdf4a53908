import BrilIR.Proofs.Decimal.Rounding
import BrilIR.Proofs.Lexical.Lexeme

/-! The text of a finite double is a numeral that reads back to the double. -/

namespace BrilIR

open Token

def pointed (fraction : List Char) : List Char :=
  if fraction.isEmpty then [] else '.' :: fraction

theorem pointed_nil : pointed [] = [] := rfl

theorem pointed_of_ne_nil {fraction : List Char} (h : fraction ≠ []) :
    pointed fraction = '.' :: fraction := by
  simp [pointed, h]

namespace Binary64

def Finite (x : Binary64) : Prop := x.code < infinityCode

theorem Exponent.head_not_digit {exponent : List Char} (h : Exponent exponent) :
    ∀ c ∈ exponent.head?, c.isDigit = false ∧ c ≠ '.' := by
  rcases h with rfl | ⟨c, sign, ds, rfl, rfl | rfl, -⟩
  · simp
  · simp
  · simp

theorem dropWhile_digits {ds rest : List Char} (hd : ∀ c ∈ ds, c.isDigit = true)
    (hr : ∀ c ∈ rest.head?, c.isDigit = false) : (ds ++ rest).dropWhile Char.isDigit = rest := by
  rw [List.dropWhile_append_of_pos hd]
  cases rest with
  | nil => rfl
  | cons c rest => rw [List.dropWhile_cons_of_neg (by simp [hr c rfl])]

theorem readDecimal?_pointed {whole fraction exponent : List Char} {e : Int} (hw : Digits whole)
    (hf : ∀ c ∈ fraction, c.isDigit = true) (hx : Exponent exponent)
    (he : readExponent? exponent = some e) :
    readDecimal? (whole ++ (pointed fraction ++ exponent)) =
      some ⟨numeralValue (whole ++ fraction), e - fraction.length⟩ := by
  have hhead := Exponent.head_not_digit hx
  have hexp : ∀ c ∈ exponent.head?, c.isDigit = false := fun c hc => (hhead c hc).1
  have hwhole : whole.isEmpty = false := by simp [hw.1]
  by_cases hn : fraction = []
  · subst hn
    have hpoint : exponent.head? ≠ some '.' := fun h => (hhead '.' h).2 rfl
    simp only [readDecimal?, pointed_nil, List.nil_append, takeWhile_append hw.2 hexp,
      dropWhile_digits hw.2 hexp, if_neg hpoint, he]
    simp [hwhole]
  · have htake : (whole ++ '.' :: (fraction ++ exponent)).takeWhile Char.isDigit = whole :=
      takeWhile_append hw.2 (by simp)
    have hdrop : (whole ++ '.' :: (fraction ++ exponent)).dropWhile Char.isDigit =
        '.' :: (fraction ++ exponent) := dropWhile_digits hw.2 (by simp)
    simp only [readDecimal?, pointed_of_ne_nil hn, List.cons_append, htake, hdrop, List.head?_cons,
      if_true, List.tail_cons, takeWhile_append hf hexp, dropWhile_digits hf hexp, he]
    simp [hwhole]

theorem readExponent?_toString (e : Int) :
    Exponent ('e' :: (toString e).toList) ∧
      readExponent? ('e' :: (toString e).toList) = some e := by
  have hd : Digits (Nat.toDigits 10 e.natAbs) := ⟨Nat.toDigits_ne_nil, isDigit_of_mem_toDigits⟩
  have hall : (Nat.toDigits 10 e.natAbs).all Char.isDigit = true := List.all_eq_true.2 hd.2
  by_cases hneg : e < 0
  · have hs : (toString e).toList = '-' :: Nat.toDigits 10 e.natAbs := by
      rw [toString_int, if_pos hneg]
      simp
    rw [hs]
    refine ⟨.inr ⟨'e', ['-'], _, rfl, .inl rfl, .inr (.inr rfl), hd⟩, ?_⟩
    have hr : readExponent? ('e' :: '-' :: Nat.toDigits 10 e.natAbs) =
        some (-(e.natAbs : Int)) := by
      simp [readExponent?, hd.1, hall, numeralValue_toDigits]
    exact hr.trans (congrArg some (by omega))
  · have hs : (toString e).toList = Nat.toDigits 10 e.natAbs := by
      rw [toString_int, if_neg hneg]
      simp
    rw [hs]
    refine ⟨.inr ⟨'e', [], _, rfl, .inl rfl, .inl rfl, hd⟩, ?_⟩
    have hh : ∀ c ∈ (Nat.toDigits 10 e.natAbs).head?, c.isDigit = true := by
      rw [← List.append_nil (Nat.toDigits 10 e.natAbs)]
      exact hd.head
    have h₁ : (Nat.toDigits 10 e.natAbs).head? ≠ some '-' := fun h => absurd (hh '-' h) (by decide)
    have h₂ : (Nat.toDigits 10 e.natAbs).head? ≠ some '+' := fun h => absurd (hh '+' h) (by decide)
    have hr : readExponent? ('e' :: Nat.toDigits 10 e.natAbs) = some (e.natAbs : Int) := by
      simp [readExponent?, hd.1, hall, numeralValue_toDigits, h₁, h₂]
    exact hr.trans (congrArg some (by omega))

end Binary64

namespace Decimal

/-- Taking zeros off the end leaves digits that differ from all digits in zeros only. -/
theorem exists_zeros (cs : List Char) : ∃ n,
    cs = (cs.reverse.dropWhile (· = '0')).reverse ++ List.replicate n '0' := by
  have hz : cs.reverse.takeWhile (· = '0') =
      List.replicate (cs.reverse.takeWhile (· = '0')).length '0' :=
    List.eq_replicate_of_mem fun c hc => by
      simpa using List.all_eq_true.1 List.all_takeWhile c hc
  refine ⟨(cs.reverse.takeWhile (· = '0')).length, ?_⟩
  calc cs = (cs.reverse.takeWhile (· = '0') ++ cs.reverse.dropWhile (· = '0')).reverse := by
        rw [List.takeWhile_append_dropWhile, List.reverse_reverse]
    _ = _ := by
        rw [List.reverse_append, hz]
        simp

def trimmed (d : Decimal) : Decimal :=
  ⟨numeralValue d.significant.1, d.significant.2 + 1 - d.significant.1.length⟩

theorem significant_spec {d : Decimal} (h : d.digits ≠ 0) :
    Digits d.significant.1 ∧ ∃ n, d = d.trimmed.pad n := by
  obtain ⟨n, hn⟩ := exists_zeros (Nat.toDigits 10 d.digits)
  have hs : d.significant = (((Nat.toDigits 10 d.digits).reverse.dropWhile (· = '0')).reverse,
      d.exponent + (Nat.toDigits 10 d.digits).length - 1) := by
    simp [significant]
  have hvalue := numeralValue_toDigits d.digits
  have hdigit := @isDigit_of_mem_toDigits d.digits
  have hlen := congrArg List.length hn
  rw [trimmed, hs]
  generalize ((Nat.toDigits 10 d.digits).reverse.dropWhile (· = '0')).reverse = ds at hn hlen ⊢
  rw [hn] at hvalue hdigit
  rw [numeralValue_append, numeralValue_replicate_zero, List.length_replicate,
    Nat.add_zero] at hvalue
  rw [List.length_append, List.length_replicate] at hlen
  refine ⟨⟨fun hnil => ?_, fun c hc => hdigit c (List.mem_append_left _ hc)⟩, n, ?_⟩
  · simp only at hnil
    rw [hnil] at hvalue
    exact h (by rw [← hvalue]; exact Nat.zero_mul _)
  · obtain ⟨m, e⟩ := d
    simp only [pad, Decimal.mk.injEq] at hvalue hlen ⊢
    exact ⟨hvalue.symm, by omega⟩

/-- The characters are digits with a point, an exponent or both, and stand for the number, possibly
with zeros at its end. -/
def Spells (cs : List Char) (d : Decimal) : Prop :=
  ∃ whole fraction exponent e k, cs = whole ++ (pointed fraction ++ exponent) ∧ Digits whole ∧
    (∀ c ∈ fraction, c.isDigit = true) ∧ Exponent exponent ∧ (fraction ≠ [] ∨ exponent ≠ []) ∧
    Binary64.readExponent? exponent = some e ∧
    (⟨numeralValue (whole ++ fraction), e - fraction.length⟩ : Decimal) = d.pad k

variable {ds : List Char} {e : Int}

theorem isDigit_replicate_zero (n : Nat) : ∀ c ∈ List.replicate n '0', c.isDigit = true := by
  intro c hc
  rw [List.eq_of_mem_replicate hc]
  rfl

theorem spells_fraction (hd : Digits ds) (he : e < 0) :
    Spells ('0' :: '.' :: (List.replicate (-e - 1).toNat '0' ++ ds))
      ⟨numeralValue ds, e + 1 - ds.length⟩ := by
  have hne : List.replicate (-e - 1).toNat '0' ++ ds ≠ [] := by simp [hd.1]
  refine ⟨['0'], List.replicate (-e - 1).toNat '0' ++ ds, [], 0, 0, ?_, ⟨by simp, by simp⟩, ?_,
    .inl rfl, .inl hne, rfl, ?_⟩
  · rw [pointed_of_ne_nil hne]
    simp
  · intro c hc
    rcases List.mem_append.1 hc with hc | hc
    · exact isDigit_replicate_zero _ c hc
    · exact hd.2 c hc
  · have hzero : numeralValue ['0'] = 0 := rfl
    simp only [pad_zero, numeralValue_append, hzero, numeralValue_replicate_zero, Nat.zero_mul,
      Nat.zero_add, List.length_append, List.length_replicate, Decimal.mk.injEq, true_and]
    omega

theorem spells_positional (hd : Digits ds) (he : 0 ≤ e) :
    Spells (ds.take (e.toNat + 1) ++ List.replicate (e.toNat + 1 - ds.length) '0' ++
      '.' :: (if (ds.drop (e.toNat + 1)).isEmpty then ['0'] else ds.drop (e.toNat + 1)))
      ⟨numeralValue ds, e + 1 - ds.length⟩ := by
  have hlen := hd.length_pos
  by_cases hs : ds.length ≤ e.toNat + 1
  · have htake : ds.take (e.toNat + 1) = ds := List.take_of_length_le hs
    have hdrop : ds.drop (e.toNat + 1) = [] := List.drop_of_length_le hs
    rw [htake, hdrop]
    refine ⟨ds ++ List.replicate (e.toNat + 1 - ds.length) '0', ['0'], [], 0,
      e.toNat + 1 - ds.length + 1, by simp [pointed], ⟨by simp [hd.1], ?_⟩, by simp, .inl rfl,
      .inl (by simp), rfl, ?_⟩
    · intro c hc
      rcases List.mem_append.1 hc with hc | hc
      · exact hd.2 c hc
      · exact isDigit_replicate_zero _ c hc
    · rw [List.append_assoc, ← List.replicate_succ', numeralValue_append,
        numeralValue_replicate_zero]
      simp only [pad, List.length_replicate, Nat.add_zero, List.length_singleton, Decimal.mk.injEq,
        true_and]
      omega
  · have hne : ds.drop (e.toNat + 1) ≠ [] := by simpa using hs
    have hpad : e.toNat + 1 - ds.length = 0 := by omega
    refine ⟨ds.take (e.toNat + 1), ds.drop (e.toNat + 1), [], 0, 0, ?_, ⟨?_, ?_⟩, ?_, .inl rfl,
      .inl hne, rfl, ?_⟩
    · rw [hpad, pointed_of_ne_nil hne]
      simp [hne]
    · simpa using hd.1
    · exact fun c hc => hd.2 c (List.mem_of_mem_take hc)
    · exact fun c hc => hd.2 c (List.mem_of_mem_drop hc)
    · rw [List.take_append_drop]
      simp only [pad_zero, List.length_drop, Decimal.mk.injEq, true_and]
      omega

theorem spells_scientific (hd : Digits ds) :
    Spells (ds.take 1 ++ (if ds.length ≤ 1 then [] else '.' :: ds.drop 1) ++
      'e' :: (toString e).toList)
      ⟨numeralValue ds, e + 1 - ds.length⟩ := by
  obtain ⟨hx, hr⟩ := Binary64.readExponent?_toString e
  have hlen := hd.length_pos
  have hpoint : (if ds.length ≤ 1 then [] else '.' :: ds.drop 1) = pointed (ds.drop 1) := by
    by_cases h : ds.length ≤ 1
    · rw [if_pos h, List.drop_of_length_le h, pointed_nil]
    · rw [if_neg h, pointed_of_ne_nil fun hn => h (List.drop_eq_nil_iff.1 hn)]
  rw [hpoint]
  refine ⟨ds.take 1, ds.drop 1, _, e, 0, by simp, ⟨by simpa using hd.1, ?_⟩, ?_, hx,
    .inr (by simp), hr, ?_⟩
  · exact fun c hc => hd.2 c (List.mem_of_mem_take hc)
  · exact fun c hc => hd.2 c (List.mem_of_mem_drop hc)
  · rw [List.take_append_drop]
    simp only [pad_zero, List.length_drop, Decimal.mk.injEq, true_and]
    omega

theorem spells_layOut (style : Layout) {d : Decimal} (h : d.digits ≠ 0) :
    Spells (d.layOut style) d.trimmed := by
  obtain ⟨hd, -⟩ := significant_spec h
  unfold layOut trimmed
  generalize d.significant = p at hd ⊢
  obtain ⟨ds, e⟩ := p
  simp only at hd ⊢
  split
  · split
    · next he => exact spells_fraction hd he
    · next he => exact spells_positional hd (by omega)
  · exact spells_scientific hd

theorem Spells.floatText {cs : List Char} {d : Decimal} (h : Spells cs d) : FloatText cs := by
  obtain ⟨whole, fraction, exponent, _, _, rfl, hw, hf, hx, hne, -, -⟩ := h
  by_cases hn : fraction = []
  · subst hn
    exact ⟨whole, [], exponent, rfl, hw, .inl rfl, hx, hne⟩
  · rw [pointed_of_ne_nil hn]
    exact ⟨whole, _, exponent, rfl, hw, .inr ⟨fraction, rfl, hn, hf⟩, hx, .inl (by simp)⟩

theorem Spells.codeOfDecimal {cs : List Char} {d : Decimal} (h : Spells cs d) :
    ∃ d', Binary64.readDecimal? cs = some d' ∧
      Binary64.codeOfDecimal d' = Binary64.codeOfDecimal d := by
  obtain ⟨whole, fraction, exponent, e, k, rfl, hw, hf, hx, -, hr, hd⟩ := h
  exact ⟨_, Binary64.readDecimal?_pointed hw hf hx hr, by rw [hd, codeOfDecimal_pad]⟩

end Decimal

namespace Binary64

theorem FloatText.exists_cons {cs : List Char} (h : FloatText cs) :
    ∃ c ds, cs = c :: ds ∧ c.isDigit = true := by
  obtain ⟨whole, fraction, exponent, rfl, hw, -⟩ := h
  cases whole with
  | nil => exact absurd rfl hw.1
  | cons c ds => exact ⟨c, _, rfl, hw.2 c (by simp)⟩

theorem toLower_of_isDigit {c : Char} (h : c.isDigit = true) : c.toLower = c := by
  have hc := toNat_of_isDigit h
  unfold Char.toLower
  rw [dif_neg]
  rintro ⟨hA, -⟩
  have : 65 ≤ c.toNat := hA
  omega

theorem readUnsigned?_eq {negative : Bool} {cs : List Char} (h : FloatText cs) :
    readUnsigned? negative cs = (readDecimal? cs).map (ofDecimal negative) := by
  obtain ⟨c, cs, rfl, hc⟩ := FloatText.exists_cons h
  have hname (d : Char) (ds : List Char) (e : String.ofList ((c :: cs).map Char.toLower) =
      String.ofList (d :: ds)) (hd : d.isDigit = false) : False := by
    rw [String.ofList_inj, List.map_cons, toLower_of_isDigit hc] at e
    rw [(List.cons.inj e).1, hd] at hc
    cases hc
  unfold readUnsigned?
  split
  · next e => exact (hname 'i' ['n', 'f'] e rfl).elim
  · next e => exact (hname 'i' ['n', 'f', 'i', 'n', 'i', 't', 'y'] e rfl).elim
  · next e => exact (hname 'n' ['a', 'n'] e rfl).elim
  · rfl

theorem read?_signed {negative : Bool} {w : String} (h : FloatText w.toList) :
    read? ((if negative then "-" else "") ++ w).toList =
      (readDecimal? w.toList).map (ofDecimal negative) := by
  rw [← readUnsigned?_eq h]
  cases negative with
  | true => simp [read?]
  | false =>
    obtain ⟨c, cs, e, hc⟩ := FloatText.exists_cons h
    have hminus : c ≠ '-' := by
      rintro rfl
      cases hc
    have hplus : c ≠ '+' := by
      rintro rfl
      cases hc
    simp only [Bool.false_eq_true, if_false, String.empty_append, e]
    unfold read?
    split
    · next e => exact absurd (List.cons.inj e).1 hminus
    · next e => exact absurd (List.cons.inj e).1 hplus
    · rfl

theorem exists_readExponent? {cs : List Char} (h : Exponent cs) :
    ∃ e, readExponent? cs = some e := by
  obtain rfl | ⟨c, sign, ds, rfl, hc, hs, hne, hd⟩ := h
  · exact ⟨0, rfl⟩
  · have hall : ds.all Char.isDigit = true := List.all_eq_true.2 hd
    cases ds with
    | nil => contradiction
    | cons d ds =>
      have hdigit : d.isDigit = true := hd d (by simp)
      have hplus : d ≠ '+' := by
        intro e
        simp [e] at hdigit
      have hminus : d ≠ '-' := by
        intro e
        simp [e] at hdigit
      obtain rfl | rfl | rfl := hs
      · simp [readExponent?, hc, hall, hplus, hminus]
      · simp [readExponent?, hc, hall]
      · simp [readExponent?, hc, hall]

theorem exists_read? (negative : Bool) {w : String} (h : FloatText w.toList) :
    ∃ x, read? ((if negative then "-" else "") ++ w).toList = some x := by
  obtain ⟨whole, fraction, exponent, hw, hwhole, hf, he, -⟩ := id h
  obtain ⟨e, hexp⟩ := exists_readExponent? he
  have hread : ∃ d, readDecimal? w.toList = some d := by
    rw [hw]
    obtain rfl | ⟨ds, rfl, hne, hds⟩ := hf
    · have hnone : ∀ c ∈ ([] : List Char), c.isDigit = true := by simp
      exact ⟨_, readDecimal?_pointed hwhole hnone he hexp⟩
    · have hpoint := readDecimal?_pointed hwhole hds he hexp
      rw [pointed_of_ne_nil hne] at hpoint
      exact ⟨_, hpoint⟩
  obtain ⟨d, hd⟩ := hread
  exact ⟨_, by rw [read?_signed h, hd]; rfl⟩

/-- The text of a finite double is a numeral behind its sign, and reads back to the double. -/
theorem exists_text {x : Binary64} (h : x.Finite) : ∃ w : String,
    x.text = (if x.negative then "-" else "") ++ w ∧ FloatText w.toList ∧
      read? x.text.toList = some x := by
  have hnan : x.isNaN = false := by
    have : ¬ infinityCode < x.code := Nat.not_lt.2 (Nat.le_of_lt h)
    simpa [isNaN] using this
  have hinf : x.isInfinite = false := by
    have : x.code ≠ infinityCode := Nat.ne_of_lt h
    simpa [isInfinite] using this
  obtain ⟨w, ht, hw, d, hd, hcode⟩ : ∃ w : String, x.text = (if x.negative then "-" else "") ++ w ∧
      FloatText w.toList ∧ ∃ d, readDecimal? w.toList = some d ∧ codeOfDecimal d = x.code := by
    by_cases hz : x.code = 0
    · refine ⟨"0.0", by simp [text, hnan, hinf, hz],
        ⟨['0'], ['.', '0'], [], rfl, ⟨by simp, by simp⟩, .inr ⟨['0'], rfl, by simp, by simp⟩,
          .inl rfl, .inl (by simp)⟩, ⟨0, -1⟩, rfl, hz.symm⟩
    · have hshort := Decimal.codeOfDecimal_shortest hz h
      have hdigits : (Decimal.shortest x.code).digits ≠ 0 := by
        intro hd
        rw [codeOfDecimal, if_pos hd] at hshort
        exact hz hshort.symm
      have hs := Decimal.spells_layOut layout hdigits
      obtain ⟨n, hn⟩ := (Decimal.significant_spec hdigits).2
      obtain ⟨d, hr, hc⟩ := hs.codeOfDecimal
      refine ⟨String.ofList ((Decimal.shortest x.code).layOut layout),
        by simp [text, hnan, hinf, hz], ?_, d, ?_, ?_⟩
      · rw [String.toList_ofList]
        exact hs.floatText
      · rw [String.toList_ofList, hr]
      · rw [hc, ← Decimal.codeOfDecimal_pad _ n, ← hn, hshort]
  refine ⟨w, ht, hw, ?_⟩
  rw [ht, read?_signed hw, hd]
  obtain ⟨negative, code, hlt⟩ := x
  simp only [Option.map_some, ofDecimal, Option.some.injEq, Binary64.mk.injEq, true_and]
  exact hcode

theorem finite_of_read? {negative : Bool} {w : String} {x : Binary64} (h : FloatText w.toList)
    (hr : read? ((if negative then "-" else "") ++ w).toList = some x)
    (hx : x.isInfinite = false) : x.Finite := by
  rw [read?_signed h, Option.map_eq_some_iff] at hr
  obtain ⟨d, -, rfl⟩ := hr
  have hne : codeOfDecimal d ≠ infinityCode := by simpa [isInfinite, ofDecimal] using hx
  exact Nat.lt_of_le_of_ne (codeOfDecimal_le d) hne

end Binary64

end BrilIR
