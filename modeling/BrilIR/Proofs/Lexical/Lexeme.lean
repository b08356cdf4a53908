import BrilIR.Token.Lexer

/-!
The lexical classes, and that the front of a text is a lexeme exactly as its class says: what is
cut off belongs to its class, and a member of a class is cut off whole if the text behind it cannot
make it longer.
-/

namespace BrilIR.Token

def Digits (cs : List Char) : Prop := cs ≠ [] ∧ ∀ c ∈ cs, c.isDigit = true

def Fraction (cs : List Char) : Prop := cs = [] ∨ ∃ ds, cs = '.' :: ds ∧ Digits ds

def Exponent (cs : List Char) : Prop :=
  cs = [] ∨ ∃ c sign ds, cs = c :: (sign ++ ds) ∧ (c = 'e' ∨ c = 'E') ∧
    (sign = [] ∨ sign = ['+'] ∨ sign = ['-']) ∧ Digits ds

def FloatText (cs : List Char) : Prop :=
  ∃ whole fraction exponent, cs = whole ++ (fraction ++ exponent) ∧ Digits whole ∧
    Fraction fraction ∧ Exponent exponent ∧ (fraction ≠ [] ∨ exponent ≠ [])

def isStringBody : List Char → Bool
  | [] => true
  | c :: cs =>
    if c = '"' ∨ c = '\n' then false
    else if c = '\\' then
      match cs with
      | [] => false
      | _ :: cs => isStringBody cs
    else isStringBody cs

def Lexeme (kind : Kind) (w : List Char) : Prop :=
  match kind with
  | .eof => False
  | .percentIdentifier | .atIdentifier | .caretIdentifier => ∃ c body, w = c :: body ∧
      sigilKind? c = some kind ∧ body ≠ [] ∧ ∀ d ∈ body, isIdentifierChar d = true
  | .integer => Digits w
  | .floatLiteral => FloatText w
  | .string => ∃ body, w = '"' :: (body ++ ['"']) ∧ isStringBody body = true
  | .minus => w = ['-']
  | .arrow => w = ['-', '>']
  | .bareIdentifier | .intType | .floatType | .kwTrue | .kwFalse => ∃ c cs, w = c :: cs ∧
      isIdentifierStart c = true ∧ (∀ d ∈ cs, isIdentifierChar d = true) ∧ wordKind w = kind
  | _ => ∃ c, w = [c] ∧ markKind? c = some kind

def Boundary (cs : List Char) : Prop := ∀ c ∈ cs.head?, isIdentifierChar c = false

/-- Text that can follow a lexeme of the kind without becoming a part of it. -/
def Apart : Kind → List Char → Prop
  | .lparen, _ | .rparen, _ | .lbrace, _ | .rbrace, _ | .lbracket, _ | .rbracket, _ | .colon, _
  | .comma, _ | .equal, _ | .exclamation, _ | .greater, _ | .less, _ | .string, _
  | .arrow, _ => True
  | .minus, cs => cs.head? ≠ some '>'
  | _, cs => Boundary cs

/-- The shapes of lexemes, by their first character. -/
inductive Shape : Kind → List Char → Prop
  | mark {kind : Kind} {c : Char} (h : markKind? c = some kind) : Shape kind [c]
  | sigil {kind : Kind} {c : Char} {body : List Char} (h : sigilKind? c = some kind)
      (hne : body ≠ []) (hb : ∀ d ∈ body, isIdentifierChar d = true) : Shape kind (c :: body)
  | word {c : Char} {cs : List Char} (hc : isIdentifierStart c = true)
      (hcs : ∀ d ∈ cs, isIdentifierChar d = true) : Shape (wordKind (c :: cs)) (c :: cs)
  | integer {w : List Char} (h : Digits w) : Shape .integer w
  | float {w : List Char} (h : FloatText w) : Shape .floatLiteral w
  | string {body : List Char} (h : isStringBody body = true) :
      Shape .string ('"' :: (body ++ ['"']))
  | minus : Shape .minus ['-']
  | arrow : Shape .arrow ['-', '>']

theorem Lexeme.shape {kind : Kind} {w : List Char} (h : Lexeme kind w) : Shape kind w := by
  have mark (h : ∃ c, w = [c] ∧ markKind? c = some kind) : Shape kind w := by
    obtain ⟨c, e, hm⟩ := h
    subst e
    exact .mark hm
  have sigil (h : ∃ c body, w = c :: body ∧ sigilKind? c = some kind ∧ body ≠ [] ∧
      ∀ d ∈ body, isIdentifierChar d = true) : Shape kind w := by
    obtain ⟨c, body, e, hs, hne, hb⟩ := h
    subst e
    exact .sigil hs hne hb
  have word (h : ∃ c cs, w = c :: cs ∧ isIdentifierStart c = true ∧
      (∀ d ∈ cs, isIdentifierChar d = true) ∧ wordKind w = kind) : Shape kind w := by
    obtain ⟨c, cs, e, hc, hcs, hk⟩ := h
    subst e hk
    exact .word hc hcs
  cases kind with
  | eof => exact h.elim
  | bareIdentifier | intType | floatType | kwTrue | kwFalse => exact word h
  | atIdentifier | percentIdentifier | caretIdentifier => exact sigil h
  | integer => exact .integer h
  | floatLiteral => exact .float h
  | string =>
    obtain ⟨body, e, hb⟩ := h
    subst e
    exact .string hb
  | minus =>
    cases h
    exact .minus
  | arrow =>
    cases h
    exact .arrow
  | _ => exact mark h

theorem takeWhile_append {p : Char → Bool} {cs rest : List Char} (h : ∀ c ∈ cs, p c = true)
    (hr : ∀ c ∈ rest.head?, p c = false) : (cs ++ rest).takeWhile p = cs := by
  rw [List.takeWhile_append_of_pos h]
  cases rest with
  | nil => simp
  | cons c rest => simp [hr c (by simp)]

theorem take_length_takeWhile {p : Char → Bool} {cs : List Char} :
    cs.take (cs.takeWhile p).length = cs.takeWhile p :=
  List.prefix_iff_eq_take.1 (List.takeWhile_prefix p) |>.symm

theorem toNat_of_isDigit {c : Char} (h : c.isDigit = true) : 48 ≤ c.toNat ∧ c.toNat ≤ 57 := by
  simp only [Char.isDigit, Bool.and_eq_true, decide_eq_true_eq, ge_iff_le,
    UInt32.le_iff_toNat_le] at h
  exact h

theorem isNumeric_of_isDigit {c : Char} (h : c.isDigit = true) : Unicode.isNumeric c = true := by
  have hc : c.toNat < 128 := by
    have := toNat_of_isDigit h
    omega
  rw [Unicode.isNumeric, if_pos hc, h]

theorem not_isIdentifierStart_of_isDigit {c : Char} (h : c.isDigit = true) :
    isIdentifierStart c = false := by
  have hc := toNat_of_isDigit h
  have hu : c ≠ '_' := by
    rintro rfl
    exact absurd h (by decide)
  have hupper : c.isUpper = false := decide_eq_false fun hA => by
    have : 65 ≤ c.toNat := hA.1
    omega
  have hlower : c.isLower = false := by
    have hlt : ¬ c.val ≥ 'a'.val := fun hA => by
      have : 97 ≤ c.toNat := hA
      omega
    show (decide (c.val ≥ 'a'.val) && decide (c.val ≤ 'z'.val)) = false
    rw [decide_eq_false hlt, Bool.false_and]
  have ha : c.isAlpha = false := by
    show (c.isUpper || c.isLower) = false
    rw [hupper, hlower, Bool.false_or]
  have hlt : c.toNat < 128 := by omega
  simp [isIdentifierStart, Unicode.isAlphabetic, hlt, ha, hu]

theorem isIdentifierChar_of_isDigit {c : Char} (h : c.isDigit = true) :
    isIdentifierChar c = true := by
  simp [isIdentifierChar, isNumeric_of_isDigit h]

theorem Boundary.not_digit {cs : List Char} (h : Boundary cs) :
    ∀ c ∈ cs.head?, c.isDigit = false := by
  intro c hc
  have := h c hc
  cases hd : c.isDigit with
  | false => rfl
  | true => simp [isIdentifierChar_of_isDigit hd] at this

theorem Boundary.head_ne {cs : List Char} {c : Char} (h : Boundary cs)
    (hc : isIdentifierChar c = true) : cs.head? ≠ some c := by
  intro e
  rw [h c e] at hc
  cases hc

theorem boundary_cons {c : Char} {cs : List Char} :
    Boundary (c :: cs) ↔ isIdentifierChar c = false := by
  simp [Boundary]

/-! Numbers. -/

theorem digitsLength_append {ds rest : List Char} (h : ∀ c ∈ ds, c.isDigit = true)
    (hr : ∀ c ∈ rest.head?, c.isDigit = false) : digitsLength (ds ++ rest) = ds.length := by
  rw [digitsLength, takeWhile_append h hr]

theorem take_digitsLength (cs : List Char) : ∀ c ∈ cs.take (digitsLength cs), c.isDigit = true := by
  rw [digitsLength, take_length_takeWhile]
  exact List.all_eq_true.1 List.all_takeWhile

theorem digitsLength_le (cs : List Char) : digitsLength cs ≤ cs.length :=
  (List.takeWhile_prefix _).length_le

theorem digits_take {cs : List Char} (h : digitsLength cs ≠ 0) :
    Digits (cs.take (digitsLength cs)) := by
  refine ⟨?_, take_digitsLength cs⟩
  have := digitsLength_le cs
  intro e
  have := congrArg List.length e
  simp only [List.length_take, List.length_nil] at this
  omega

theorem Digits.length_pos {cs : List Char} (h : Digits cs) : cs.length ≠ 0 := by
  simpa using h.1

theorem fractionLength_le (cs : List Char) : fractionLength cs ≤ cs.length := by
  cases cs with
  | nil => exact Nat.le_refl 0
  | cons c cs =>
    have := digitsLength_le cs
    simp only [fractionLength, List.length_cons]
    split <;> omega

theorem fraction_take (cs : List Char) : Fraction (cs.take (fractionLength cs)) := by
  cases cs with
  | nil => exact .inl rfl
  | cons c cs =>
    simp only [fractionLength]
    split
    · next h =>
      refine .inr ⟨cs.take (digitsLength cs), ?_, digits_take h.2⟩
      rw [Nat.add_comm, List.take_succ_cons, h.1]
    · exact .inl rfl

theorem fractionLength_append {fraction rest : List Char} (h : Fraction fraction)
    (hr : ∀ c ∈ rest.head?, c.isDigit = false) (hd : fraction = [] → rest.head? ≠ some '.') :
    fractionLength (fraction ++ rest) = fraction.length := by
  rcases h with rfl | ⟨ds, rfl, hds⟩
  · cases rest with
    | nil => rfl
    | cons c rest =>
      have : c ≠ '.' := by simpa using hd rfl
      simp [fractionLength, this]
  · simp only [List.cons_append, fractionLength, digitsLength_append hds.2 hr]
    rw [if_pos ⟨trivial, hds.length_pos⟩, List.length_cons, Nat.add_comm]

theorem signLength_append {sign rest : List Char} (h : sign = [] ∨ sign = ['+'] ∨ sign = ['-'])
    (hr : ∀ c ∈ rest.head?, c.isDigit = true) : signLength (sign ++ rest) = sign.length := by
  rcases h with rfl | rfl | rfl
  · cases rest with
    | nil => rfl
    | cons c rest =>
      have hc := hr c (by simp)
      have : ¬ (c = '+' ∨ c = '-') := by
        rintro (rfl | rfl)
        · exact absurd hc (by decide)
        · exact absurd hc (by decide)
      simp [signLength, this]
  · rfl
  · rfl

theorem Digits.head {ds rest : List Char} (h : Digits ds) :
    ∀ c ∈ (ds ++ rest).head?, c.isDigit = true := by
  obtain ⟨hne, h⟩ := h
  cases ds with
  | nil => exact absurd rfl hne
  | cons d ds => simpa using h d (by simp)

theorem Digits.isDigit_of_cons {c : Char} {cs ds rest : List Char} (h : Digits ds)
    (e : c :: cs = ds ++ rest) : c.isDigit = true := by
  have hhead : ∀ d ∈ (ds ++ rest).head?, d.isDigit = true := h.head
  rw [← e] at hhead
  exact hhead c rfl

theorem exponentLength_append {exponent rest : List Char} (h : Exponent exponent)
    (hr : Boundary rest) : exponentLength (exponent ++ rest) = exponent.length := by
  rcases h with rfl | ⟨c, sign, ds, rfl, hc, hs, hds⟩
  · cases rest with
    | nil => rfl
    | cons c rest =>
      have : ¬ (c = 'e' ∨ c = 'E') := by
        rintro (rfl | rfl)
        · exact hr.head_ne (c := 'e') (by decide) rfl
        · exact hr.head_ne (c := 'E') (by decide) rfl
      simp [exponentLength, this]
  · have hsign : signLength (sign ++ (ds ++ rest)) = sign.length := signLength_append hs hds.head
    have hdigits : digitsLength (ds ++ rest) = ds.length :=
      digitsLength_append hds.2 hr.not_digit
    simp only [List.cons_append, List.append_assoc, exponentLength, hsign, List.drop_left, hdigits]
    rw [if_pos ⟨hc, hds.length_pos⟩, List.length_cons, List.length_append]
    omega

theorem signLength_le (cs : List Char) : signLength cs ≤ cs.length := by
  cases cs with
  | nil => exact Nat.le_refl 0
  | cons c cs =>
    simp only [signLength]
    split <;> simp

theorem sign_take (cs : List Char) : cs.take (signLength cs) = [] ∨
    cs.take (signLength cs) = ['+'] ∨ cs.take (signLength cs) = ['-'] := by
  cases cs with
  | nil => exact .inl rfl
  | cons c cs =>
    simp only [signLength]
    split
    · next h => rcases h with rfl | rfl <;> simp
    · exact .inl rfl

theorem exponentLength_le (cs : List Char) : exponentLength cs ≤ cs.length := by
  cases cs with
  | nil => exact Nat.le_refl 0
  | cons c cs =>
    have h := digitsLength_le (cs.drop (signLength cs))
    have := signLength_le cs
    rw [List.length_drop] at h
    simp only [exponentLength, List.length_cons]
    split <;> omega

theorem exponent_take (cs : List Char) : Exponent (cs.take (exponentLength cs)) := by
  cases cs with
  | nil => exact .inl rfl
  | cons c cs =>
    simp only [exponentLength]
    split
    · next h =>
      refine .inr ⟨c, cs.take (signLength cs), _, ?_, h.1, sign_take cs, digits_take h.2⟩
      rw [Nat.add_assoc, Nat.add_comm, List.take_succ_cons, List.take_add]
    · exact .inl rfl

theorem numberFront_take {c : Char} {cs : List Char} {kind : Kind} {n : Nat}
    (hc : c.isDigit = true) (h : numberFront cs = .lexeme kind n) :
    n ≤ cs.length ∧ (kind = .integer ∧ Digits (c :: cs.take n) ∨
      kind = .floatLiteral ∧ FloatText (c :: cs.take n)) := by
  have hw := digitsLength_le cs
  have hf := fractionLength_le (cs.drop (digitsLength cs))
  have he := exponentLength_le
    (cs.drop (digitsLength cs + fractionLength (cs.drop (digitsLength cs))))
  simp only [List.length_drop] at hf he
  have whole : ∀ d ∈ c :: cs.take (digitsLength cs), d.isDigit = true :=
    List.forall_mem_cons.2 ⟨hc, take_digitsLength cs⟩
  simp only [numberFront, Front.lexeme.injEq] at h
  obtain ⟨rfl, rfl⟩ := h
  refine ⟨by omega, ?_⟩
  by_cases hz : fractionLength (cs.drop (digitsLength cs)) +
      exponentLength (cs.drop (digitsLength cs + fractionLength (cs.drop (digitsLength cs)))) = 0
  · left
    rw [if_pos hz, Nat.add_assoc, hz]
    exact ⟨rfl, by simp, whole⟩
  · right
    rw [if_neg hz]
    refine ⟨rfl, c :: cs.take (digitsLength cs), _, _, ?_, ⟨by simp, whole⟩,
      fraction_take (cs.drop (digitsLength cs)), exponent_take (cs.drop (digitsLength cs +
        fractionLength (cs.drop (digitsLength cs)))), ?_⟩
    · rw [List.take_add, List.take_add, List.cons_append, List.append_assoc]
    · by_cases hfz : fractionLength (cs.drop (digitsLength cs)) = 0
      · right
        intro e
        have := congrArg List.length e
        simp only [List.length_take, List.length_drop, List.length_nil] at this
        omega
      · left
        intro e
        have := congrArg List.length e
        simp only [List.length_take, List.length_drop, List.length_nil] at this
        omega

/-- What stands behind the digits of a number is no digit, and no point unless a fraction. -/
theorem Exponent.head {exponent rest : List Char} (h : Exponent exponent) (hr : Boundary rest) :
    (∀ c ∈ (exponent ++ rest).head?, c.isDigit = false) ∧ (exponent ++ rest).head? ≠ some '.' := by
  rcases h with rfl | ⟨c, sign, ds, rfl, hc, -⟩
  · exact ⟨hr.not_digit, hr.head_ne (by decide)⟩
  · rcases hc with rfl | rfl <;> simp

theorem numberFront_digits {c : Char} {cs rest : List Char} (h : Digits (c :: cs))
    (hr : Boundary rest) : numberFront (cs ++ rest) = .lexeme .integer cs.length := by
  have hw : digitsLength (cs ++ rest) = cs.length :=
    digitsLength_append (fun d hd => h.2 d (by simp [hd])) hr.not_digit
  have hf : fractionLength rest = 0 :=
    fractionLength_append (.inl rfl) hr.not_digit fun _ => hr.head_ne (by decide)
  have he : exponentLength rest = 0 := exponentLength_append (.inl rfl) hr
  simp [numberFront, hw, hf, he]

theorem numberFront_float {c : Char} {cs rest : List Char} (h : FloatText (c :: cs))
    (hr : Boundary rest) : numberFront (cs ++ rest) = .lexeme .floatLiteral cs.length := by
  obtain ⟨whole, fraction, exponent, e, ⟨hne, hds⟩, hfr, hex, hany⟩ := h
  cases whole with
  | nil => exact absurd rfl hne
  | cons d ds =>
    rw [List.cons_append, List.cons.injEq] at e
    obtain ⟨rfl, rfl⟩ := e
    have htail : ∀ c ∈ (fraction ++ (exponent ++ rest)).head?, c.isDigit = false := by
      rcases hfr with rfl | ⟨_, rfl, -⟩
      · exact (hex.head hr).1
      · simp
    have hw : digitsLength (ds ++ (fraction ++ (exponent ++ rest))) = ds.length :=
      digitsLength_append (fun d hd => hds d (by simp [hd])) htail
    have hf : fractionLength (fraction ++ (exponent ++ rest)) = fraction.length :=
      fractionLength_append hfr (hex.head hr).1 fun _ => (hex.head hr).2
    have he : exponentLength (exponent ++ rest) = exponent.length := exponentLength_append hex hr
    have hz : ¬ (fraction.length + exponent.length = 0) := by
      rcases hany with h | h
      · have := List.length_pos_iff.2 h
        omega
      · have := List.length_pos_iff.2 h
        omega
    have hdrop : (ds ++ (fraction ++ (exponent ++ rest))).drop (ds.length + fraction.length) =
        exponent ++ rest := by
      rw [← List.append_assoc, ← List.length_append, List.drop_left]
    simp only [numberFront, List.append_assoc, hw, List.drop_left, hf, hdrop, he, hz, if_false,
      List.length_append, Nat.add_assoc]

/-! Strings. -/

theorem Front.extend_eq_lexeme {m n : Nat} {front : Front} {kind : Kind}
    (h : front.extend m = .lexeme kind n) : ∃ k, front = .lexeme kind k ∧ n = k + m := by
  cases front with
  | gap k => cases h
  | lexeme kind' k =>
    cases h
    exact ⟨k, rfl, rfl⟩
  | fault f k => cases h

theorem stringFront_quote (cs : List Char) : stringFront ('"' :: cs) = .lexeme .string 1 := by
  cases cs <;> simp [stringFront]

theorem stringFront_feed (cs : List Char) :
    stringFront ('\n' :: cs) = .fault .unterminatedString 0 := by
  cases cs <;> simp [stringFront]

theorem stringFront_escape (c : Char) (cs : List Char) :
    stringFront ('\\' :: c :: cs) = (stringFront cs).extend 2 := by
  simp [stringFront]

theorem stringFront_plain {c : Char} {cs : List Char} (hq : c ≠ '"') (hn : c ≠ '\n')
    (hb : c ≠ '\\') : stringFront (c :: cs) = (stringFront cs).extend 1 := by
  cases cs <;> simp [stringFront, hq, hn, hb]

theorem isStringBody_escape (c : Char) (cs : List Char) :
    isStringBody ('\\' :: c :: cs) = isStringBody cs := by
  simp [isStringBody]

theorem isStringBody_plain {c : Char} {cs : List Char} (hq : c ≠ '"') (hn : c ≠ '\n')
    (hb : c ≠ '\\') : isStringBody (c :: cs) = isStringBody cs := by
  cases cs <;> simp [isStringBody, hq, hn, hb]

theorem isStringBody_head {c : Char} {cs : List Char} (h : isStringBody (c :: cs) = true) :
    c ≠ '"' ∧ c ≠ '\n' := by
  have hc : ¬ (c = '"' ∨ c = '\n') := by
    intro hc
    cases cs <;> simp [isStringBody, hc] at h
  exact ⟨fun e => hc (.inl e), fun e => hc (.inr e)⟩

theorem stringFront_body {body : List Char} (h : isStringBody body = true) (rest : List Char) :
    stringFront (body ++ rest) = (stringFront rest).extend body.length := by
  induction body using isStringBody.induct with
  | case1 => cases hf : stringFront rest <;> simp [hf, Front.extend]
  | case2 c cs hc =>
    obtain ⟨hq, hn⟩ := isStringBody_head h
    exact absurd hc (by simp [hq, hn])
  | case3 => simp [isStringBody] at h
  | case4 d cs _ ih =>
    rw [isStringBody_escape] at h
    simp only [List.cons_append, stringFront_escape, ih h]
    cases stringFront rest <;> simp [Front.extend, Nat.add_assoc]
  | case5 c cs _ hb ih =>
    obtain ⟨hq, hn⟩ := isStringBody_head h
    rw [isStringBody_plain hq hn hb] at h
    simp only [List.cons_append, stringFront_plain hq hn hb, ih h]
    cases stringFront rest <;> simp [Front.extend, Nat.add_assoc]

theorem stringFront_append {body rest : List Char} (h : isStringBody body = true) :
    stringFront (body ++ '"' :: rest) = .lexeme .string (body.length + 1) := by
  rw [stringFront_body h, stringFront_quote, Front.extend, Nat.add_comm]

theorem stringFront_take {cs : List Char} {kind : Kind} {n : Nat}
    (h : stringFront cs = .lexeme kind n) : n ≤ cs.length ∧ kind = .string ∧
      ∃ body, isStringBody body = true ∧ cs.take n = body ++ ['"'] := by
  induction cs using stringFront.induct generalizing n with
  | case1 => simp [stringFront] at h
  | case2 cs =>
    rw [stringFront_quote] at h
    cases h
    exact ⟨by simp, rfl, [], rfl, by simp⟩
  | case3 cs _ =>
    rw [stringFront_feed] at h
    cases h
  | case4 => simp [stringFront] at h
  | case5 d cs _ _ ih =>
    rw [stringFront_escape] at h
    obtain ⟨k, hk, rfl⟩ := Front.extend_eq_lexeme h
    obtain ⟨hle, rfl, body, hb, e⟩ := ih hk
    refine ⟨by simpa using hle, rfl, '\\' :: d :: body, ?_, by simp [e]⟩
    rwa [isStringBody_escape]
  | case6 c cs hq hn hb ih =>
    rw [stringFront_plain hq hn hb] at h
    obtain ⟨k, hk, rfl⟩ := Front.extend_eq_lexeme h
    obtain ⟨hle, rfl, body, hbody, e⟩ := ih hk
    refine ⟨by simpa using hle, rfl, c :: body, ?_, by simp [e]⟩
    rwa [isStringBody_plain hq hn hb]

/-! Identifiers. -/

theorem identifierLength_append {cs rest : List Char} (h : ∀ d ∈ cs, isIdentifierChar d = true)
    (hr : Boundary rest) : identifierLength (cs ++ rest) = cs.length := by
  rw [identifierLength, takeWhile_append h hr]

theorem identifierLength_le (cs : List Char) : identifierLength cs ≤ cs.length :=
  (List.takeWhile_prefix _).length_le

theorem take_identifierLength (cs : List Char) :
    ∀ d ∈ cs.take (identifierLength cs), isIdentifierChar d = true := by
  rw [identifierLength, take_length_takeWhile]
  exact List.all_eq_true.1 List.all_takeWhile

theorem wordKind_mem (w : List Char) :
    wordKind w ∈ [Kind.kwTrue, .kwFalse, .intType, .floatType, .bareIdentifier] := by
  unfold wordKind
  by_cases htrue : w = ['t', 'r', 'u', 'e']
  · simp [if_pos htrue]
  rw [if_neg htrue]
  by_cases hfalse : w = ['f', 'a', 'l', 's', 'e']
  · simp [if_pos hfalse]
  rw [if_neg hfalse]
  by_cases hint : isIntTypeWord w = true
  · simp [if_pos hint]
  rw [if_neg hint]
  by_cases hfloat : w = ['f', '1', '6'] ∨ w = ['f', '3', '2'] ∨ w = ['f', '6', '4']
  · simp [if_pos hfloat]
  · simp [if_neg hfloat]

theorem sigilFront_eq {kind k : Kind} {cs : List Char} {n : Nat}
    (h : sigilFront kind cs = .lexeme k n) : k = kind ∧ n = identifierLength cs ∧ n ≠ 0 := by
  unfold sigilFront at h
  split at h
  · cases h
  · next m hm =>
    cases h
    exact ⟨rfl, hm.symm, Nat.succ_ne_zero m⟩

theorem sigilFront_append {kind : Kind} {body rest : List Char} (hne : body ≠ [])
    (h : ∀ d ∈ body, isIdentifierChar d = true) (hr : Boundary rest) :
    sigilFront kind (body ++ rest) = .lexeme kind body.length := by
  unfold sigilFront
  rw [identifierLength_append h hr]
  split
  · next hz => exact absurd (List.length_eq_zero_iff.1 hz) hne
  · next n hn => rw [hn]

theorem Apart.boundary_of_wordKind {w rest : List Char} (h : Apart (wordKind w) rest) :
    Boundary rest := by
  have hk := wordKind_mem w
  simp only [List.mem_cons, List.not_mem_nil, or_false] at hk
  rcases hk with hk | hk | hk | hk | hk <;> rw [hk] at h <;> exact h

/-! The front of a text. -/

theorem sigilKind?_mem {c : Char} {kind : Kind} (h : sigilKind? c = some kind) :
    kind = .percentIdentifier ∨ kind = .atIdentifier ∨ kind = .caretIdentifier := by
  unfold sigilKind? at h
  split at h <;> cases h <;> simp

theorem lexeme_sigil {c : Char} {kind : Kind} {body : List Char} (h : sigilKind? c = some kind)
    (hne : body ≠ []) (hb : ∀ d ∈ body, isIdentifierChar d = true) : Lexeme kind (c :: body) := by
  rcases sigilKind?_mem h with rfl | rfl | rfl <;> exact ⟨c, body, rfl, h, hne, hb⟩

theorem Apart.boundary_of_sigilKind? {c : Char} {kind : Kind} {rest : List Char}
    (h : Apart kind rest) (hs : sigilKind? c = some kind) : Boundary rest := by
  rcases sigilKind?_mem hs with rfl | rfl | rfl <;> exact h

theorem lexeme_mark {c : Char} {kind : Kind} (h : markKind? c = some kind) : Lexeme kind [c] := by
  have hc := h
  unfold markKind? at h
  split at h <;> cases h <;> exact ⟨_, rfl, hc⟩

theorem apart_of_markKind? {c : Char} {kind : Kind} {rest : List Char}
    (h : markKind? c = some kind) :
    Apart kind rest := by
  unfold markKind? at h
  split at h <;> cases h <;> trivial

theorem boundary_of_markKind? {c : Char} {kind : Kind} {cs : List Char}
    (h : markKind? c = some kind) : Boundary (c :: cs) := by
  rw [boundary_cons]
  unfold markKind? at h
  split at h <;> cases h <;> decide

/-- The characters that `front` asks for by name. -/
def punctuation : List Char :=
  ['(', ')', '{', '}', '[', ']', ':', ',', '=', '!', '>', '<', '%', '@', '^', ' ', '\r', '\t',
    '\n', '/', '-', '"']

theorem mem_punctuation_of_markKind? {c : Char} {kind : Kind} (h : markKind? c = some kind) :
    c ∈ punctuation := by
  unfold markKind? at h
  split at h <;> cases h <;> decide

theorem mem_punctuation_of_sigilKind? {c : Char} {kind : Kind} (h : sigilKind? c = some kind) :
    c ∈ punctuation := by
  unfold sigilKind? at h
  split at h <;> cases h <;> decide

/-- A class of characters none of which is asked for by name begins numbers and words only. -/
theorem front_of_class {p : Char → Bool} {c : Char} (hp : punctuation.all (!p ·) = true)
    (h : p c = true) (cs : List Char) :
    front c cs =
      if c.isDigit then numberFront cs
      else if isIdentifierStart c then wordFront c cs
      else .fault (.unexpected c) 0 := by
  have hc : c ∉ punctuation := by
    intro hmem
    have hno := List.all_eq_true.1 hp c hmem
    rw [h] at hno
    exact Bool.false_ne_true hno
  have hm : markKind? c = none :=
    Option.eq_none_iff_forall_ne_some.2 fun _ hm => hc (mem_punctuation_of_markKind? hm)
  have hs : sigilKind? c = none :=
    Option.eq_none_iff_forall_ne_some.2 fun _ hs => hc (mem_punctuation_of_sigilKind? hs)
  have hne {d : Char} (hd : d ∈ punctuation) : c ≠ d := fun e => hc (e ▸ hd)
  have hb : isBlank c = false := by
    simp [isBlank, hne (d := ' ') (by decide), hne (d := '\r') (by decide),
      hne (d := '\t') (by decide), hne (d := '\n') (by decide)]
  simp [front, hm, hs, hb, hne (d := '/') (by decide), hne (d := '-') (by decide),
    hne (d := '"') (by decide)]

theorem front_of_isIdentifierStart {c : Char} (h : isIdentifierStart c = true) (cs : List Char) :
    front c cs = wordFront c cs := by
  have hd : c.isDigit = false := by
    cases hd : c.isDigit with
    | false => rfl
    | true => simp [not_isIdentifierStart_of_isDigit hd] at h
  simp [front_of_class (by decide) h cs, hd, h]

theorem front_of_isDigit {c : Char} (h : c.isDigit = true) (cs : List Char) :
    front c cs = numberFront cs := by
  rw [front_of_class (by decide) h cs, if_pos h]

theorem front_quote (cs : List Char) : front '"' cs = stringFront cs := by
  simp [front, markKind?, sigilKind?, isBlank]

theorem front_dash (cs : List Char) :
    front '-' cs = if cs.head? = some '>' then .lexeme .arrow 1 else .lexeme .minus 0 := by
  simp [front, markKind?, sigilKind?, isBlank]

theorem front_mark {c : Char} {kind : Kind} (h : markKind? c = some kind) (cs : List Char) :
    front c cs = .lexeme kind 0 := by
  simp [front, h]

theorem front_sigil {c : Char} {kind : Kind} (h : sigilKind? c = some kind) (cs : List Char) :
    front c cs = sigilFront kind cs := by
  have hm : markKind? c = none := by
    unfold sigilKind? at h
    split at h <;> cases h <;> rfl
  simp [front, hm, h]

theorem lexeme_word {c : Char} {cs : List Char} (hc : isIdentifierStart c = true)
    (h : ∀ d ∈ cs, isIdentifierChar d = true) : Lexeme (wordKind (c :: cs)) (c :: cs) := by
  have hk := wordKind_mem (c :: cs)
  simp only [List.mem_cons, List.not_mem_nil, or_false] at hk
  rcases hk with hk | hk | hk | hk | hk <;> rw [hk] <;> exact ⟨c, cs, rfl, hc, h, hk⟩

theorem lexeme_of_dash {cs : List Char} {kind : Kind} {n : Nat}
    (h : (if cs.head? = some '>' then Front.lexeme .arrow 1 else .lexeme .minus 0) =
      .lexeme kind n) : n ≤ cs.length ∧ Lexeme kind ('-' :: cs.take n) := by
  split at h
  · next hhead =>
    cases h
    cases cs with
    | nil => cases hhead
    | cons d cs =>
      cases hhead
      exact ⟨Nat.succ_le_succ (Nat.zero_le _), rfl⟩
  · cases h
    exact ⟨Nat.zero_le _, rfl⟩

/-- What is cut off belongs to its class. -/
theorem lexeme_of_front {c : Char} {cs : List Char} {kind : Kind} {n : Nat}
    (h : front c cs = .lexeme kind n) : n ≤ cs.length ∧ Lexeme kind (c :: cs.take n) := by
  unfold front at h
  split at h
  · next k hm =>
    cases h
    exact ⟨Nat.zero_le _, lexeme_mark hm⟩
  · next k hm hs =>
    obtain ⟨rfl, rfl, hn⟩ := sigilFront_eq h
    have hle := identifierLength_le cs
    have hne : cs.take (identifierLength cs) ≠ [] := by
      rw [← List.length_pos_iff, List.length_take_of_le hle]
      exact Nat.pos_of_ne_zero hn
    exact ⟨hle, lexeme_sigil hs hne (take_identifierLength cs)⟩
  · -- neither a mark nor a sigil: the classes in the order in which they are asked for
    by_cases hb : isBlank c = true
    · simp [hb] at h
    rw [if_neg hb] at h
    by_cases hcomment : c = '/' ∧ cs.head? = some '/'
    · rw [if_pos hcomment] at h
      cases h
    rw [if_neg hcomment] at h
    by_cases hdash : c = '-'
    · subst hdash
      exact lexeme_of_dash ((if_pos rfl).symm.trans h)
    rw [if_neg hdash] at h
    by_cases hquote : c = '"'
    · subst hquote
      rw [if_pos rfl] at h
      obtain ⟨hle, rfl, body, hbody, e⟩ := stringFront_take h
      exact ⟨hle, body, by rw [e], hbody⟩
    rw [if_neg hquote] at h
    by_cases hd : c.isDigit = true
    · rw [if_pos hd] at h
      obtain ⟨hle, ⟨rfl, hn⟩ | ⟨rfl, hn⟩⟩ := numberFront_take hd h
      · exact ⟨hle, hn⟩
      · exact ⟨hle, hn⟩
    rw [if_neg hd] at h
    by_cases hi : isIdentifierStart c = true
    · rw [if_pos hi] at h
      simp only [wordFront, Front.lexeme.injEq] at h
      obtain ⟨rfl, rfl⟩ := h
      exact ⟨identifierLength_le cs, lexeme_word hi (take_identifierLength cs)⟩
    · rw [if_neg hi] at h
      cases h

/-- A member of a class is cut off whole. -/
theorem front_of_lexeme {c : Char} {cs rest : List Char} {kind : Kind} (h : Lexeme kind (c :: cs))
    (hr : Apart kind rest) : front c (cs ++ rest) = .lexeme kind cs.length := by
  generalize e : c :: cs = w at h
  cases h.shape with
  | mark hm =>
    cases e
    exact front_mark hm rest
  | sigil hs hne hb =>
    cases e
    rw [front_sigil hs, sigilFront_append hne hb (hr.boundary_of_sigilKind? hs)]
  | word hc hcs =>
    cases e
    rw [front_of_isIdentifierStart hc, wordFront,
      identifierLength_append hcs hr.boundary_of_wordKind, List.take_left]
  | integer hw =>
    subst e
    rw [front_of_isDigit (hw.2 c List.mem_cons_self), numberFront_digits hw hr]
  | float hw =>
    subst e
    obtain ⟨whole, fraction, exponent, e, hwhole, -⟩ := id hw
    rw [front_of_isDigit (hwhole.isDigit_of_cons e), numberFront_float hw hr]
  | string hb =>
    cases e
    rw [front_quote, List.append_assoc, List.length_append]
    exact stringFront_append hb
  | minus =>
    cases e
    rw [front_dash]
    exact if_neg hr
  | arrow =>
    cases e
    rw [front_dash]
    rfl

theorem Lexeme.ne_nil {kind : Kind} {w : List Char} (h : Lexeme kind w) : w ≠ [] := by
  cases h.shape with
  | integer hw => exact hw.1
  | float hw =>
    obtain ⟨whole, fraction, exponent, rfl, hwhole, -⟩ := hw
    exact List.append_ne_nil_of_left_ne_nil hwhole.1 _
  | mark _ | sigil _ _ _ | word _ _ | string _ | minus | arrow => exact List.cons_ne_nil _ _

theorem front_of_isBlank {c : Char} (h : isBlank c = true) (cs : List Char) :
    front c cs = .gap 0 := by
  simp only [isBlank, Bool.or_eq_true, beq_iff_eq] at h
  rcases h with ((rfl | rfl) | rfl) | rfl <;> simp [front, markKind?, sigilKind?, isBlank]

end BrilIR.Token
