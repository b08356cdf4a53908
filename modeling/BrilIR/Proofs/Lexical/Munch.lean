import BrilIR.Proofs.Lexical.Lexeme

/-!
Longest match. Whatever lexeme the front of a text begins with, a lexeme at least as long is cut
off there, and the kind of what is cut off depends on its characters only.
-/

namespace BrilIR.Token

theorem length_le_takeWhile {p : Char → Bool} {cs rest : List Char} (h : ∀ c ∈ cs, p c = true) :
    cs.length ≤ ((cs ++ rest).takeWhile p).length := by
  rw [List.takeWhile_append_of_pos h, List.length_append]
  exact Nat.le_add_right _ _

/-! Numbers. A part that could be longer has a digit behind it, so the parts after it are empty. -/

theorem digitsLength_append_eq {ds rest : List Char} (h : ∀ c ∈ ds, c.isDigit = true) :
    digitsLength (ds ++ rest) = ds.length + digitsLength rest := by
  rw [digitsLength, List.takeWhile_append_of_pos h, List.length_append, digitsLength]

theorem Exponent.eq_nil {exponent rest : List Char} (h : Exponent exponent)
    (hd : digitsLength (exponent ++ rest) ≠ 0) : exponent = [] := by
  cases h with
  | inl h => exact h
  | inr h =>
    obtain ⟨c, sign, ds, e, hc, -⟩ := h
    subst e
    cases hc with
    | inl hc => simp [hc, digitsLength] at hd
    | inr hc => simp [hc, digitsLength] at hd

theorem Exponent.length_le {exponent rest : List Char} (h : Exponent exponent) :
    exponent.length ≤ exponentLength (exponent ++ rest) := by
  cases h with
  | inl h => simp [h]
  | inr h =>
    obtain ⟨c, sign, ds, e, hc, hs, hds⟩ := h
    subst e
    have hsign : signLength (sign ++ (ds ++ rest)) = sign.length := signLength_append hs hds.head
    have hdigits : digitsLength (ds ++ rest) = ds.length + digitsLength rest :=
      digitsLength_append_eq hds.2
    have hpos := hds.length_pos
    simp only [List.cons_append, List.append_assoc, exponentLength, hsign, List.drop_left, hdigits]
    rw [if_pos ⟨hc, by omega⟩, List.length_cons, List.length_append]
    omega

theorem fraction_exponent_length_le {fraction exponent rest : List Char} (hf : Fraction fraction)
    (he : Exponent exponent) :
    fraction.length + exponent.length ≤ fractionLength (fraction ++ (exponent ++ rest)) +
      exponentLength ((fraction ++ (exponent ++ rest)).drop
        (fractionLength (fraction ++ (exponent ++ rest)))) := by
  have hexp : exponent.length ≤ exponentLength (exponent ++ rest) := he.length_le
  cases hf with
  | inl hf =>
    subst hf
    cases he with
    | inl he => simp [he]
    | inr he =>
      -- The letter of an exponent is no point.
      obtain ⟨c, sign, ds, e, hc, -⟩ := he
      have hpoint : c ≠ '.' := by
        intro h
        subst h
        cases hc <;> contradiction
      have hz : fractionLength (exponent ++ rest) = 0 := by
        simp [e, fractionLength, hpoint]
      rw [List.nil_append, hz, List.drop_zero, List.length_nil]
      omega
  | inr hf =>
    obtain ⟨ds, e, hds⟩ := hf
    have hdigits : digitsLength (ds ++ (exponent ++ rest)) =
        ds.length + digitsLength (exponent ++ rest) := digitsLength_append_eq hds.2
    have hpos := hds.length_pos
    have hlen : fractionLength (fraction ++ (exponent ++ rest)) =
        fraction.length + digitsLength (exponent ++ rest) := by
      rw [e, List.cons_append, fractionLength, hdigits, if_pos ⟨rfl, by omega⟩, List.length_cons]
      omega
    by_cases hz : digitsLength (exponent ++ rest) = 0
    · rw [hlen, hz, Nat.add_zero, List.drop_left]
      omega
    · have hnil : exponent.length = 0 := by rw [he.eq_nil hz, List.length_nil]
      omega

theorem numberFront_covers {c : Char} {cs whole fraction exponent rest : List Char}
    (h : c :: cs = whole ++ (fraction ++ (exponent ++ rest))) (hw : Digits whole)
    (hf : Fraction fraction) (he : Exponent exponent) :
    ∃ kind n, numberFront cs = .lexeme kind n ∧
      whole.length + fraction.length + exponent.length ≤ n + 1 := by
  refine ⟨_, _, rfl, ?_⟩
  obtain ⟨hne, hds⟩ := hw
  cases whole with
  | nil => contradiction
  | cons d ds =>
    rw [List.cons_append, List.cons.injEq] at h
    obtain ⟨-, htext⟩ := h
    subst htext
    have hdigits : digitsLength (ds ++ (fraction ++ (exponent ++ rest))) =
        ds.length + digitsLength (fraction ++ (exponent ++ rest)) :=
      digitsLength_append_eq fun c hc => hds c (List.mem_cons_of_mem d hc)
    by_cases hz : digitsLength (fraction ++ (exponent ++ rest)) = 0
    · have hparts := @fraction_exponent_length_le fraction exponent rest hf he
      rw [hz, Nat.add_zero] at hdigits
      rw [hdigits, List.drop_left, List.drop_length_add_append, List.length_cons]
      omega
    · -- more digits than those of `whole`, so there is nothing behind `whole`
      have hfraction : fraction = [] := by
        cases hf with
        | inl hf => exact hf
        | inr hf =>
          obtain ⟨_, e, -⟩ := hf
          simp [e, digitsLength] at hz
      subst hfraction
      have hexponent : exponent = [] := he.eq_nil hz
      subst hexponent
      rw [hdigits, List.length_cons, List.length_nil]
      omega

/-! The front of a text. -/

/-- If a lexeme stands at the front, then a lexeme that is no shorter is cut off. -/
theorem front_covers {c : Char} {cs w : List Char} {kind : Kind} (h : Lexeme kind w)
    (hp : w <+: c :: cs) : ∃ k n, front c cs = .lexeme k n ∧ w.length ≤ n + 1 := by
  obtain ⟨rest, e⟩ := hp
  cases h.shape with
  | mark hm =>
    cases e
    exact ⟨kind, 0, front_mark hm _, Nat.le_refl 1⟩
  | @sigil _ d body hs hne hb =>
    cases e
    have hlen : body.length ≤ identifierLength (body ++ rest) := length_le_takeWhile hb
    have hpos : body.length ≠ 0 := by simpa using hne
    cases hn : identifierLength (body ++ rest) with
    | zero => omega
    | succ n =>
      refine ⟨kind, n + 1, ?_, by rw [List.length_cons]; omega⟩
      rw [front_sigil hs, sigilFront, List.append_eq, hn]
  | @word d ds hd hds =>
    cases e
    have hlen : ds.length ≤ identifierLength (ds ++ rest) := length_le_takeWhile hds
    refine ⟨_, _, front_of_isIdentifierStart hd _, ?_⟩
    rw [List.length_cons]
    exact Nat.succ_le_succ hlen
  | integer hw =>
    rw [front_of_isDigit (hw.isDigit_of_cons e.symm)]
    have hcover : ∃ k n, numberFront cs = .lexeme k n ∧ w.length + 0 + 0 ≤ n + 1 :=
      numberFront_covers e.symm hw (.inl rfl) (.inl rfl)
    exact hcover
  | float hw =>
    obtain ⟨whole, fraction, exponent, hparts, hwhole, hf, he, -⟩ := hw
    have htext : c :: cs = whole ++ (fraction ++ (exponent ++ rest)) := by
      rw [← e, hparts, List.append_assoc, List.append_assoc]
    rw [front_of_isDigit (hwhole.isDigit_of_cons htext), hparts, List.length_append,
      List.length_append, ← Nat.add_assoc]
    exact numberFront_covers htext hwhole hf he
  | @string body hb =>
    rw [List.cons_append, List.append_assoc] at e
    cases e
    refine ⟨.string, _, (front_quote _).trans (stringFront_append hb), ?_⟩
    simp
  | minus =>
    cases e
    rw [front_dash]
    split
    · exact ⟨.arrow, 1, rfl, by simp⟩
    · exact ⟨.minus, 0, rfl, by simp⟩
  | arrow =>
    cases e
    exact ⟨.arrow, 1, front_dash _, Nat.le_refl 2⟩

structure Longest (kind : Kind) (w cs : List Char) : Prop where
  front : w <+: cs
  lexeme : Lexeme kind w
  longest : ∀ k v, v <+: cs → Lexeme k v → v.length ≤ w.length

theorem longest_of_front {c : Char} {cs : List Char} {kind : Kind} {n : Nat}
    (h : front c cs = .lexeme kind n) : Longest kind (c :: cs.take n) (c :: cs) := by
  obtain ⟨hle, hlex⟩ := lexeme_of_front h
  refine ⟨?_, hlex, ?_⟩
  · rw [List.cons_prefix_cons]
    exact ⟨rfl, List.take_prefix n cs⟩
  · intro k v hv hk
    obtain ⟨k', m, hf, hlen⟩ := front_covers hk hv
    rw [h] at hf
    cases hf
    rw [List.length_cons, List.length_take]
    omega

/-! The kind of a lexeme. -/

theorem Apart.nil (kind : Kind) : Apart kind [] := by
  cases kind <;> simp [Apart, Boundary]

theorem Lexeme.unique {k k' : Kind} {w : List Char} (h : Lexeme k w) (h' : Lexeme k' w) :
    k = k' := by
  cases w with
  | nil => exact absurd rfl h.ne_nil
  | cons c cs =>
    have hk := front_of_lexeme h (.nil k)
    rw [front_of_lexeme h' (.nil k')] at hk
    cases hk
    rfl

theorem front_of_longest {c : Char} {cs w : List Char} {kind : Kind}
    (h : Longest kind w (c :: cs)) :
    ∃ n, front c cs = .lexeme kind n ∧ w = c :: cs.take n ∧ n ≤ cs.length := by
  obtain ⟨k, n, hf, hlen⟩ := front_covers h.lexeme h.front
  have hcut := longest_of_front hf
  have hw : w = c :: cs.take n := by
    have hle := h.longest k _ hcut.front hcut.lexeme
    have hge := hcut.longest kind w h.front h.lexeme
    obtain ⟨rest, e⟩ := h.front
    obtain ⟨rest', e'⟩ := hcut.front
    exact (List.append_inj (e.trans e'.symm) (Nat.le_antisymm hge hle)).1
  have hk : kind = k := (hw ▸ h.lexeme).unique hcut.lexeme
  subst hk
  exact ⟨n, hf, hw, (lexeme_of_front hf).1⟩

theorem isIntTypeWord_iff {w : List Char} :
    isIntTypeWord w = true ↔ ∃ ds, w = 'i' :: ds ∧ Digits ds := by
  unfold isIntTypeWord
  split
  · next ds => simp [Digits]
  · next hne =>
    constructor
    · intro h
      cases h
    · intro h
      obtain ⟨ds, e, -⟩ := h
      exact absurd e (hne ds)

theorem wordKind_eq_kwTrue {w : List Char} : wordKind w = .kwTrue ↔ w = "true".toList := by
  unfold wordKind
  grind

theorem wordKind_eq_kwFalse {w : List Char} : wordKind w = .kwFalse ↔ w = "false".toList := by
  unfold wordKind
  grind

theorem wordKind_eq_intType {w : List Char} : wordKind w = .intType ↔ isIntTypeWord w = true := by
  unfold wordKind
  grind [isIntTypeWord]

theorem wordKind_eq_floatType {w : List Char} :
    wordKind w = .floatType ↔ w = "f16".toList ∨ w = "f32".toList ∨ w = "f64".toList := by
  unfold wordKind
  grind [isIntTypeWord]

theorem lexeme_kwTrue_iff {w : List Char} : Lexeme .kwTrue w ↔ w = "true".toList := by
  constructor
  · intro h
    obtain ⟨c, cs, -, -, -, hk⟩ := h
    exact wordKind_eq_kwTrue.1 hk
  · intro h
    subst h
    exact ⟨'t', "rue".toList, rfl, by decide, List.all_eq_true.1 (by decide), rfl⟩

theorem lexeme_kwFalse_iff {w : List Char} : Lexeme .kwFalse w ↔ w = "false".toList := by
  constructor
  · intro h
    obtain ⟨c, cs, -, -, -, hk⟩ := h
    exact wordKind_eq_kwFalse.1 hk
  · intro h
    subst h
    exact ⟨'f', "alse".toList, rfl, by decide, List.all_eq_true.1 (by decide), rfl⟩

theorem lexeme_intType_iff {w : List Char} :
    Lexeme .intType w ↔ ∃ ds, w = 'i' :: ds ∧ Digits ds := by
  constructor
  · intro h
    obtain ⟨c, cs, -, -, -, hk⟩ := h
    exact isIntTypeWord_iff.1 (wordKind_eq_intType.1 hk)
  · intro h
    have hk := wordKind_eq_intType.2 (isIntTypeWord_iff.2 h)
    obtain ⟨ds, e, hds⟩ := h
    exact ⟨'i', ds, e, by decide, fun d hd => isIdentifierChar_of_isDigit (hds.2 d hd), hk⟩

theorem lexeme_floatType_iff {w : List Char} :
    Lexeme .floatType w ↔ w = "f16".toList ∨ w = "f32".toList ∨ w = "f64".toList := by
  constructor
  · intro h
    obtain ⟨c, cs, -, -, -, hk⟩ := h
    exact wordKind_eq_floatType.1 hk
  · intro h
    have hk := wordKind_eq_floatType.2 h
    rcases h with e | e | e
    · exact ⟨'f', "16".toList, e, by decide, List.all_eq_true.1 (by decide), hk⟩
    · exact ⟨'f', "32".toList, e, by decide, List.all_eq_true.1 (by decide), hk⟩
    · exact ⟨'f', "64".toList, e, by decide, List.all_eq_true.1 (by decide), hk⟩

/-- What the characters of a lexeme say about its kind, where classes share a first character. -/
structure Determined (kind : Kind) (w : List Char) : Prop where
  unique : ∀ k, Lexeme k w → k = kind
  kwTrue : kind = .kwTrue ↔ w = "true".toList
  kwFalse : kind = .kwFalse ↔ w = "false".toList
  intType : kind = .intType ↔ ∃ ds, w = 'i' :: ds ∧ Digits ds
  floatType : kind = .floatType ↔ w = "f16".toList ∨ w = "f32".toList ∨ w = "f64".toList
  integer : kind = .integer ↔ Digits w
  floatLiteral : kind = .floatLiteral ↔ FloatText w

theorem Lexeme.kind_eq_iff {kind k : Kind} {w : List Char} (h : Lexeme kind w) :
    kind = k ↔ Lexeme k w := by
  constructor
  · intro e
    rw [← e]
    exact h
  · exact h.unique

theorem Lexeme.determined {kind : Kind} {w : List Char} (h : Lexeme kind w) :
    Determined kind w where
  unique _ hk := hk.unique h
  kwTrue := h.kind_eq_iff.trans lexeme_kwTrue_iff
  kwFalse := h.kind_eq_iff.trans lexeme_kwFalse_iff
  intType := h.kind_eq_iff.trans lexeme_intType_iff
  floatType := h.kind_eq_iff.trans lexeme_floatType_iff
  integer := h.kind_eq_iff
  floatLiteral := h.kind_eq_iff

end BrilIR.Token
