import BrilIR.Proofs.Lexical.Tokenization

/-!
The scanner as a machine that reads a source by index. It looks up to two characters ahead, takes
NUL for the end of the source, and finds the column of a token by going back from the column behind
it. An index or a column that does not exist halts it, so that what it comes to tells where one
could arise. It cuts a source into the same tokens as `TokenStream.scan`.
-/

namespace BrilIR

structure Scanner where
  source : List Char
  tokens : List Token := []
  /-- The index of the first character of the piece that is being read. -/
  start : Nat := 0
  /-- The index of the next character. -/
  current : Nat := 0
  line : Nat := 0
  column : Nat := 0

namespace Scanner

open Token

/-- Why a scanner halts before the end: the source is at fault, a character behind the end of the
source is read, or a column below zero is asked for. -/
inductive Halt where
  | fault (e : LexError)
  | outOfBounds
  | underflow

/-- The character `n` places ahead; NUL stands for the end of the source. -/
def peekAt (m : Scanner) (n : Nat) : Char := m.source.getD (m.current + n) '\x00'

def peek (m : Scanner) : Char := m.peekAt 0

def isAtEnd (m : Scanner) : Bool := decide (m.source.length ≤ m.current)

/-- Goes over the next character, which is taken to be there. -/
def advance (m : Scanner) : Except Halt Scanner :=
  if m.current < m.source.length then
    .ok { m with current := m.current + 1, column := m.column + 1 }
  else .error .outOfBounds

def lexeme (m : Scanner) : Except Halt (List Char) :=
  if m.start ≤ m.current ∧ m.current ≤ m.source.length then
    .ok ((m.source.take m.current).drop m.start)
  else .error .outOfBounds

def addText (kind : Kind) (w : List Char) (m : Scanner) : Except Halt Scanner :=
  if w.length ≤ m.column then
    let t : Token := ⟨kind, String.ofList w, ⟨m.line, m.column - w.length⟩⟩
    .ok { m with tokens := m.tokens ++ [t] }
  else .error .underflow

def addToken (kind : Kind) (m : Scanner) : Except Halt Scanner := do
  addText kind (← m.lexeme) m

def failHere (f : Fault) (m : Scanner) : Except Halt Scanner :=
  .error (.fault ⟨f, ⟨m.line, m.column - 1⟩⟩)

/-! Loops. Each turn goes over a character, or finds none and halts. -/

def left (m : Scanner) : Nat := m.source.length - m.current

theorem left_lt_of_advance {m m' : Scanner} (h : m.advance = .ok m') : m'.left < m.left := by
  unfold advance at h
  split at h
  · next hlt =>
    cases h
    simp only [left]
    omega
  · cases h

def skipWhile (p : Scanner → Bool) (m : Scanner) : Except Halt Scanner :=
  if p m then
    match _h : m.advance with
    | .ok m' => skipWhile p m'
    | .error e => .error e
  else .ok m
termination_by m.left
decreasing_by exact left_lt_of_advance _h

def advanceIf (p : Char → Bool) (m : Scanner) : Except Halt Scanner :=
  if p m.peek then m.advance else .ok m

/-- Goes over a character of a string, and over one more behind a backslash. -/
def advanceInString (m : Scanner) : Except Halt Scanner := do
  let m ← m.advanceIf (· == '\\')
  m.advance

theorem left_le_of_advanceIf {p : Char → Bool} {m m' : Scanner} (h : m.advanceIf p = .ok m') :
    m'.left ≤ m.left := by
  unfold advanceIf at h
  split at h
  · exact Nat.le_of_lt (left_lt_of_advance h)
  · cases h
    exact Nat.le_refl _

theorem left_lt_of_advanceInString {m m' : Scanner} (h : m.advanceInString = .ok m') :
    m'.left < m.left := by
  unfold advanceInString at h
  cases hm : m.advanceIf (· == '\\') with
  | error e =>
    rw [hm] at h
    cases h
  | ok n =>
    rw [hm] at h
    exact Nat.lt_of_lt_of_le (left_lt_of_advance h) (left_le_of_advanceIf hm)

def skipString (m : Scanner) : Except Halt Scanner :=
  if m.peek ≠ '"' ∧ m.isAtEnd = false then
    if m.peek = '\n' then .ok m
    else
      match _h : m.advanceInString with
      | .ok m' => skipString m'
      | .error e => .error e
  else .ok m
termination_by m.left
decreasing_by exact left_lt_of_advanceInString _h

/-! Pieces. -/

def skipDigits (m : Scanner) : Except Halt Scanner := skipWhile (·.peek.isDigit) m

def skipFraction (m : Scanner) : Except Halt (Bool × Scanner) :=
  if m.peek = '.' ∧ (m.peekAt 1).isDigit = true then do
    let m ← m.advance
    return (true, ← m.skipDigits)
  else .ok (false, m)

def isSign (c : Char) : Bool := c == '+' || c == '-'

def isExponent (m : Scanner) : Bool :=
  (m.peek == 'e' || m.peek == 'E') &&
    if isSign (m.peekAt 1) then (m.peekAt 2).isDigit else (m.peekAt 1).isDigit

def skipExponent (m : Scanner) : Except Halt (Bool × Scanner) :=
  if m.isExponent then do
    let m ← m.advance
    let m ← m.advanceIf isSign
    return (true, ← m.skipDigits)
  else .ok (false, m)

def readNumber (m : Scanner) : Except Halt Scanner := do
  let m ← m.skipDigits
  let (hasFraction, m) ← m.skipFraction
  let (hasExponent, m) ← m.skipExponent
  m.addToken (if hasFraction || hasExponent then .floatLiteral else .integer)

def skipIdentifier (m : Scanner) : Except Halt Scanner :=
  skipWhile (isIdentifierChar ·.peek) m

def readWord (m : Scanner) : Except Halt Scanner := do
  let m ← m.skipIdentifier
  m.addToken (wordKind (← m.lexeme))

def readPrefixed (kind : Kind) (m : Scanner) : Except Halt Scanner :=
  if isIdentifierChar m.peek then do
    let m ← m.skipIdentifier
    m.addToken kind
  else m.failHere .bareSigil

def readDash (m : Scanner) : Except Halt Scanner :=
  if m.peek = '>' then do
    let m ← m.advance
    m.addToken .arrow
  else m.addToken .minus

def readString (m : Scanner) : Except Halt Scanner := do
  let m ← m.skipString
  if m.peek = '"' then
    let m ← m.advance
    m.addToken .string
  else m.failHere .unterminatedString

def skipComment (m : Scanner) : Except Halt Scanner :=
  skipWhile (fun m => m.peek != '\n' && !m.isAtEnd) m

def readPiece (c : Char) (m : Scanner) : Except Halt Scanner :=
  match markKind? c, sigilKind? c with
  | some kind, _ => m.addToken kind
  | none, some kind => m.readPrefixed kind
  | none, none =>
    if c = ' ' ∨ c = '\r' ∨ c = '\t' then .ok m
    else if c = '\n' then .ok { m with line := m.line + 1, column := 0 }
    else if c = '/' ∧ m.peek = '/' then m.skipComment
    else if c = '-' then m.readDash
    else if c = '"' then m.readString
    else if c.isDigit then m.readNumber
    else if isIdentifierStart c then m.readWord
    else m.failHere (.unexpected c)

def turn (m : Scanner) : Except Halt Scanner := do
  let c := m.peek
  let m ← { m with start := m.current }.advance
  m.readPiece c

/-- What a scanner comes to that takes as many turns as it likes. It stops at the end of the source,
with a token for it, or a turn halts it. -/
inductive Ends : Scanner → Except Halt Scanner → Prop
  | stop {m : Scanner} (h : m.isAtEnd = true) : Ends m (m.addText .eof [])
  | turn {m m' : Scanner} {r : Except Halt Scanner} (h : m.isAtEnd = false)
      (ht : m.turn = .ok m') (hr : Ends m' r) : Ends m r
  | halt {m : Scanner} {e : Halt} (h : m.isAtEnd = false) (ht : m.turn = .error e) :
      Ends m (.error e)

def ofSource (source : String) : Scanner where
  source := source.toList

/-! Where a scanner is. -/

def rest (m : Scanner) : List Char := m.source.drop m.current

def place (m : Scanner) : Location := ⟨m.line, m.column⟩

def past (m : Scanner) (n : Nat) : Scanner :=
  { m with current := m.current + n, column := m.column + n }

/-- The scanner `n` characters into a new piece. -/
def read (m : Scanner) (n : Nat) : Scanner := { m.past n with start := m.current }

def cut (m : Scanner) (kind : Kind) (n : Nat) : Scanner :=
  { m.read n with tokens := m.tokens ++ [⟨kind, String.ofList (m.rest.take n), m.place⟩] }

def nextLine (m : Scanner) : Scanner := { m.read 1 with line := m.line + 1, column := 0 }

section

variable {m : Scanner} {c : Char} {cs : List Char}

theorem rest_past (m : Scanner) (n : Nat) : (m.past n).rest = m.rest.drop n :=
  List.drop_drop.symm

theorem past_past (m : Scanner) (i j : Nat) : (m.past i).past j = m.past (i + j) := by
  simp only [past, Nat.add_assoc]

theorem rest_length (m : Scanner) : m.rest.length = m.source.length - m.current :=
  List.length_drop

theorem rest_past_one (h : m.rest = c :: cs) : (m.past 1).rest = cs := by
  rw [rest_past, h, List.drop_one, List.tail_cons]

theorem peekAt_eq (m : Scanner) (n : Nat) : m.peekAt n = m.rest.getD n '\x00' := by
  rw [peekAt, rest, List.getD_eq_getElem?_getD, List.getD_eq_getElem?_getD, List.getElem?_drop]

theorem peek_of_cons (h : m.rest = c :: cs) : m.peek = c := by
  rw [peek, peekAt_eq, h, List.getD_cons_zero]

theorem peek_of_nil (h : m.rest = []) : m.peek = '\x00' := by
  rw [peek, peekAt_eq, h, List.getD_nil]

theorem peek_eq_iff {d : Char} (hd : d ≠ '\x00') : m.peek = d ↔ m.rest.head? = some d := by
  cases h : m.rest with
  | nil => simp [peek_of_nil h, hd.symm]
  | cons c cs => simp [peek_of_cons h]

theorem isAtEnd_of_cons (h : m.rest = c :: cs) : m.isAtEnd = false := by
  have hlength := m.rest_length
  rw [h, List.length_cons] at hlength
  exact decide_eq_false (by omega)

theorem isAtEnd_of_nil (h : m.rest = []) : m.isAtEnd = true :=
  decide_eq_true (List.drop_eq_nil_iff.1 h)

theorem advance_of_cons (h : m.rest = c :: cs) : m.advance = .ok (m.past 1) := by
  have hlength := m.rest_length
  rw [h, List.length_cons] at hlength
  exact if_pos (by omega)

theorem advanceIf_of_cons {p : Char → Bool} (h : m.rest = c :: cs) :
    m.advanceIf p = if p c then .ok (m.past 1) else .ok m := by
  rw [advanceIf, peek_of_cons h, advance_of_cons h]

theorem advance_of_nil (h : m.rest = []) : m.advance = .error .outOfBounds :=
  if_neg (Nat.not_lt_of_le (List.drop_eq_nil_iff.1 h))

/-! Loops go over as many characters as the text allows, and halt nowhere. -/

theorem skipWhile_eq {p : Scanner → Bool} {q : Char → Bool}
    (hp : ∀ m, p m = m.rest.head?.any q) (m : Scanner) :
    skipWhile p m = .ok (m.past (m.rest.takeWhile q).length) := by
  induction hn : m.rest generalizing m with
  | nil =>
    rw [skipWhile, hp, hn]
    rfl
  | cons c cs ih =>
    rw [skipWhile, hp, hn, List.head?_cons, Option.any_some, List.takeWhile_cons]
    cases hq : q c with
    | false => rfl
    | true =>
      have hrest : (m.past 1).rest = cs := rest_past_one hn
      rw [if_pos rfl]
      split
      · next m' h =>
        cases (advance_of_cons hn).symm.trans h
        rw [ih _ hrest, past_past, if_pos rfl, List.length_cons, Nat.add_comm]
      · next e h => cases (advance_of_cons hn).symm.trans h

theorem peek_any {q : Char → Bool} (hq : q '\x00' = false) (m : Scanner) :
    q m.peek = m.rest.head?.any q := by
  cases h : m.rest with
  | nil => rw [peek_of_nil h, hq, List.head?_nil, Option.any_none]
  | cons c cs => rw [peek_of_cons h, List.head?_cons, Option.any_some]

theorem skipDigits_eq (m : Scanner) : m.skipDigits = .ok (m.past (digitsLength m.rest)) :=
  skipWhile_eq (peek_any (q := Char.isDigit) (by decide)) m

theorem skipIdentifier_eq (m : Scanner) :
    m.skipIdentifier = .ok (m.past (identifierLength m.rest)) :=
  skipWhile_eq (peek_any (q := isIdentifierChar) (by decide)) m

/-- A NUL does not end a comment. -/
theorem skipComment_eq (m : Scanner) :
    m.skipComment = .ok (m.past (m.rest.takeWhile (· ≠ '\n')).length) := by
  refine skipWhile_eq (q := (· ≠ '\n')) (fun m => ?_) m
  cases h : m.rest with
  | nil => simp [isAtEnd_of_nil h]
  | cons c cs =>
    rw [Bool.eq_iff_iff]
    simp [peek_of_cons h, isAtEnd_of_cons h]

/-! Pieces. What the scanner makes of the text behind the first character of a piece. -/

/-- The scanner behind the rest of a piece. -/
def conclude (m : Scanner) : Front → Except Halt Scanner
  | .gap n => .ok (m.past n)
  | .lexeme kind n => (m.past n).addToken kind
  | .fault .openEscape _ => .error .outOfBounds
  | .fault f n => (m.past n).failHere f

theorem conclude_extend (m : Scanner) (f : Front) (n : Nat) :
    m.conclude (f.extend n) = (m.past n).conclude f := by
  cases f with
  | gap k => simp only [Front.extend, conclude, past_past, Nat.add_comm]
  | lexeme kind k => simp only [Front.extend, conclude, past_past, Nat.add_comm]
  | fault f k => cases f <;> simp only [Front.extend, conclude, past_past, Nat.add_comm]

theorem isDigit_getD {cs : List Char} {n : Nat} :
    (cs.getD n '\x00').isDigit = true ↔ digitsLength (cs.drop n) ≠ 0 := by
  rw [List.getD_eq_getElem?_getD, ← Nat.add_zero n, ← List.getElem?_drop, Nat.add_zero]
  cases cs.drop n with
  | nil => decide
  | cons c cs => cases hc : c.isDigit <;> simp [digitsLength, hc]

theorem skipFraction_eq (m : Scanner) :
    m.skipFraction = .ok (fractionLength m.rest != 0, m.past (fractionLength m.rest)) := by
  simp only [skipFraction, peekAt_eq, isDigit_getD]
  cases h : m.rest with
  | nil =>
    rw [peek_of_nil h, if_neg (by decide)]
    rfl
  | cons c cs =>
    rw [peek_of_cons h, List.drop_one, List.tail_cons, fractionLength]
    split
    · simp [advance_of_cons h, skipDigits_eq, rest_past_one h, past_past, bind, Except.bind, pure,
        Except.pure]
    · rfl

theorem signLength_eq (cs : List Char) :
    signLength cs = if isSign (cs.getD 0 '\x00') then 1 else 0 := by
  cases cs with
  | nil => rfl
  | cons c cs => simp [signLength, isSign]

theorem advanceIf_isSign_eq (m : Scanner) :
    m.advanceIf isSign = .ok (m.past (signLength m.rest)) := by
  cases h : m.rest with
  | nil =>
    rw [advanceIf, peek_of_nil h]
    rfl
  | cons c cs =>
    rw [advanceIf_of_cons h, signLength_eq, List.getD_cons_zero]
    cases isSign c <;> rfl

theorem isExponent_iff {m : Scanner} {c : Char} {cs : List Char} (h : m.rest = c :: cs) :
    m.isExponent = true ↔
      (c = 'e' ∨ c = 'E') ∧ digitsLength (cs.drop (signLength cs)) ≠ 0 := by
  rw [isExponent, peek_of_cons h, peekAt_eq, peekAt_eq, h, List.getD_cons_succ,
    List.getD_cons_succ, ← isDigit_getD, signLength_eq]
  cases isSign (cs.getD 0 '\x00') <;> simp

theorem skipExponent_eq (m : Scanner) :
    m.skipExponent = .ok (exponentLength m.rest != 0, m.past (exponentLength m.rest)) := by
  cases h : m.rest with
  | nil =>
    rw [skipExponent, isExponent, peek_of_nil h]
    rfl
  | cons c cs =>
    have hrest : (m.past 1).rest = cs := rest_past_one h
    have hdigits : (m.past (1 + signLength cs)).rest = cs.drop (signLength cs) := by
      rw [← past_past, rest_past, hrest]
    simp only [skipExponent, isExponent_iff h, exponentLength]
    split
    · simp [advance_of_cons h, advanceIf_isSign_eq, skipDigits_eq, hrest, hdigits, past_past, bind,
        Except.bind, pure, Except.pure, Nat.add_assoc]
    · rfl

theorem readNumber_eq (m : Scanner) : m.readNumber = m.conclude (numberFront m.rest) := by
  simp only [readNumber, skipDigits_eq, skipFraction_eq, skipExponent_eq, bind, Except.bind,
    rest_past, past_past, numberFront, conclude]
  have hkind : ((fractionLength (m.rest.drop (digitsLength m.rest)) != 0 ||
      exponentLength (m.rest.drop (digitsLength m.rest +
        fractionLength (m.rest.drop (digitsLength m.rest)))) != 0) = true) =
      ¬ (fractionLength (m.rest.drop (digitsLength m.rest)) +
        exponentLength (m.rest.drop (digitsLength m.rest +
          fractionLength (m.rest.drop (digitsLength m.rest)))) = 0) := by
    simp
    omega
  simp only [hkind]
  rw [ite_not]

theorem readPrefixed_eq (kind : Kind) (m : Scanner) :
    m.readPrefixed kind = m.conclude (sigilFront kind m.rest) := by
  rw [readPrefixed, peek_any (q := isIdentifierChar) (by decide), skipIdentifier_eq, sigilFront]
  cases h : m.rest with
  | nil => rfl
  | cons c cs =>
    rw [List.head?_cons, Option.any_some, identifierLength, List.takeWhile_cons]
    cases isIdentifierChar c <;> rfl

theorem readDash_eq (m : Scanner) : m.readDash = m.conclude
    (if m.rest.head? = some '>' then .lexeme .arrow 1 else .lexeme .minus 0) := by
  rw [readDash]
  cases h : m.rest with
  | nil =>
    rw [peek_of_nil h]
    rfl
  | cons c cs =>
    simp only [peek_of_cons h, advance_of_cons h, List.head?_cons, Option.some_inj]
    split
    · rfl
    · rfl

theorem readString_of_peek {m : Scanner} {c : Char} {cs : List Char} (h : m.rest = c :: cs)
    (hq : c ≠ '"') (hn : c ≠ '\n') : m.readString = m.advanceInString >>= readString := by
  rw [readString, skipString, peek_of_cons h, isAtEnd_of_cons h, if_pos ⟨hq, rfl⟩, if_neg hn]
  split
  · next m' h' =>
    rw [h']
    rfl
  · next e h' =>
    rw [h']
    rfl

theorem readString_eq (m : Scanner) : m.readString = m.conclude (stringFront m.rest) := by
  -- both take a backslash together with the character behind it
  induction hn : m.rest using stringFront.induct generalizing m with
  | case1 =>
    rw [readString, skipString, isAtEnd_of_nil hn, if_neg (by simp)]
    show (if m.peek = '"' then _ else _) = _
    rw [peek_of_nil hn, if_neg (by decide)]
    rfl
  | case2 cs =>
    rw [readString, skipString, peek_of_cons hn, if_neg (by simp), stringFront_quote]
    show (if m.peek = '"' then _ else _) = _
    rw [if_pos (peek_of_cons hn), advance_of_cons hn]
    rfl
  | case3 cs _ =>
    rw [readString, skipString, peek_of_cons hn, isAtEnd_of_cons hn, if_pos (by decide),
      if_pos rfl, stringFront_feed]
    show (if m.peek = '"' then _ else _) = _
    rw [peek_of_cons hn, if_neg (by decide)]
    rfl
  | case4 =>
    have hend : (m.past 1).rest = [] := rest_past_one hn
    rw [readString_of_peek hn (by decide) (by decide), advanceInString, advanceIf_of_cons hn,
      beq_self_eq_true, if_pos rfl]
    show (m.past 1).advance >>= readString = _
    rw [advance_of_nil hend]
    rfl
  | case5 d cs _ _ ih =>
    have hd : (m.past 1).rest = d :: cs := rest_past_one hn
    have hrest : (m.past 2).rest = cs := by rw [← rest_past_one hd, past_past]
    rw [readString_of_peek hn (by decide) (by decide), advanceInString, advanceIf_of_cons hn,
      beq_self_eq_true, if_pos rfl]
    show (m.past 1).advance >>= readString = _
    rw [advance_of_cons hd, past_past, stringFront_escape, conclude_extend]
    exact ih _ hrest
  | case6 c cs hq hf hb ih =>
    have hplain : m.advanceIf (· == '\\') = .ok m := by
      rw [advanceIf_of_cons hn, beq_eq_false_iff_ne.2 hb, if_neg Bool.false_ne_true]
    rw [readString_of_peek hn hq hf, advanceInString, hplain]
    show m.advance >>= readString = _
    rw [advance_of_cons hn, stringFront_plain hq hf hb, conclude_extend]
    exact ih _ (rest_past_one hn)

/-! Turns. A piece is at least as long as the character that it begins with. -/

theorem read_past (m : Scanner) (i j : Nat) : (m.read i).past j = m.read (i + j) := by
  simp only [read, past, Nat.add_assoc]

theorem rest_read_one (h : m.rest = c :: cs) : (m.read 1).rest = cs := rest_past_one h

theorem lexeme_read {n : Nat} (hpos : 0 < n) (h : n ≤ m.rest.length) :
    (m.read n).lexeme = .ok (m.rest.take n) := by
  have hlength := m.rest_length
  show (if m.current ≤ m.current + n ∧ m.current + n ≤ m.source.length then
    Except.ok ((m.source.take (m.current + n)).drop m.current) else _) = _
  rw [if_pos (by omega), List.drop_take, Nat.add_sub_cancel_left, rest]

theorem addToken_read {kind : Kind} {n : Nat} (hpos : 0 < n) (h : n ≤ m.rest.length) :
    (m.read n).addToken kind = .ok (m.cut kind n) := by
  have hlength : (m.rest.take n).length = n := List.length_take_of_le h
  rw [addToken, lexeme_read hpos h]
  show (if (m.rest.take n).length ≤ m.column + n then Except.ok _ else _) = _
  have hcolumn : (m.read n).column - n = m.column := Nat.add_sub_cancel _ _
  rw [hlength, if_pos (Nat.le_add_left n _), hcolumn]
  rfl

theorem readWord_eq (h : m.rest = c :: cs) :
    (m.read 1).readWord = (m.read 1).conclude (wordFront c cs) := by
  have hle : 1 + identifierLength cs ≤ m.rest.length := by
    rw [h, List.length_cons, Nat.add_comm]
    exact Nat.succ_le_succ (identifierLength_le cs)
  have hpos : 0 < 1 + identifierLength cs := by omega
  have hword : m.rest.take (1 + identifierLength cs) = c :: cs.take (identifierLength cs) := by
    rw [h, Nat.add_comm, List.take_succ_cons]
  simp only [readWord, skipIdentifier_eq, rest_read_one h, read_past, bind, Except.bind,
    lexeme_read hpos hle, hword, wordFront, conclude]

theorem readPiece_eq (h : m.rest = c :: cs) (hc : c ≠ '\n') :
    (m.read 1).readPiece c = (m.read 1).conclude (front c cs) := by
  have hrest : (m.read 1).rest = cs := rest_read_one h
  have hblank : isBlank c = true ↔ c = ' ' ∨ c = '\r' ∨ c = '\t' := by
    simp [isBlank, hc, or_assoc]
  have hslash : (m.read 1).peek = '/' ↔ cs.head? = some '/' := by
    rw [peek_eq_iff (by decide), hrest]
  rw [readPiece, front]
  cases markKind? c with
  | some kind => rfl
  | none =>
    cases sigilKind? c with
    | some kind => exact hrest ▸ readPrefixed_eq kind (m.read 1)
    | none =>
      -- Both ask for the same classes one after another.
      simp only [hblank, hslash, if_neg hc]
      by_cases hb : c = ' ' ∨ c = '\r' ∨ c = '\t'
      · rw [if_pos hb, if_pos hb]
        rfl
      rw [if_neg hb, if_neg hb]
      by_cases hcomment : c = '/' ∧ cs.head? = some '/'
      · rw [if_pos hcomment, if_pos hcomment, skipComment_eq, hrest]
        rfl
      rw [if_neg hcomment, if_neg hcomment]
      by_cases hdash : c = '-'
      · rw [if_pos hdash, if_pos hdash, readDash_eq, hrest]
      rw [if_neg hdash, if_neg hdash]
      by_cases hquote : c = '"'
      · rw [if_pos hquote, if_pos hquote, readString_eq, hrest]
      rw [if_neg hquote, if_neg hquote]
      by_cases hdigit : c.isDigit = true
      · rw [if_pos hdigit, if_pos hdigit, readNumber_eq, hrest]
      rw [if_neg hdigit, if_neg hdigit]
      by_cases hword : isIdentifierStart c = true
      · rw [if_pos hword, if_pos hword, readWord_eq h]
      · rw [if_neg hword, if_neg hword]
        rfl

theorem turn_eq (h : m.rest = c :: cs) :
    m.turn = if c = '\n' then .ok m.nextLine else (m.read 1).conclude (front c cs) := by
  have hbegin : ({ m with start := m.current } : Scanner).advance = .ok (m.read 1) :=
    advance_of_cons h
  rw [turn, peek_of_cons h]
  show (({ m with start := m.current } : Scanner).advance >>= fun m => m.readPiece c) = _
  rw [hbegin]
  show (m.read 1).readPiece c = _
  split
  · next hc =>
    subst hc
    rfl
  · next hc => exact readPiece_eq h hc

theorem turn_of_gap {n : Nat} (h : m.rest = c :: cs) (hf : front c cs = .gap n) :
    m.turn = .ok (if c = '\n' then m.nextLine else m.read (1 + n)) := by
  rw [turn_eq h, hf, conclude, read_past]
  split
  · rfl
  · rfl

theorem turn_of_lexeme {kind : Kind} {n : Nat} (h : m.rest = c :: cs)
    (hf : front c cs = .lexeme kind n) : m.turn = .ok (m.cut kind (1 + n)) := by
  have hle := (lexeme_of_front hf).1
  have hc : c ≠ '\n' := by
    intro hc
    subst hc
    cases hf.symm.trans (front_of_isBlank (by decide) cs)
  have hlength : 1 + n ≤ m.rest.length := by
    rw [h, List.length_cons]
    omega
  rw [turn_eq h, if_neg hc, hf, conclude, read_past, addToken_read (by omega) hlength]

def Halt.ofError (e : LexError) : Halt :=
  if e.fault = .openEscape then .outOfBounds else .fault e

theorem Halt.ofError_eq_outOfBounds_iff {e : LexError} :
    ofError e = .outOfBounds ↔ e.fault = .openEscape := by
  unfold ofError
  split
  · next h => exact ⟨fun _ => h, fun _ => rfl⟩
  · next h => exact ⟨fun e => Halt.noConfusion e, fun e => absurd e h⟩

theorem Halt.ofError_ne_underflow (e : LexError) : ofError e ≠ .underflow := by
  unfold ofError
  split
  · exact Halt.noConfusion
  · exact Halt.noConfusion

theorem conclude_fault (m : Scanner) (f : Fault) (n : Nat) :
    (m.read 1).conclude (.fault f n) = .error (.ofError ⟨f, m.place.right n⟩) := by
  have hcolumn : m.column + 1 + n - 1 = m.column + n := by omega
  cases f with
  | openEscape => rfl
  | _ =>
    show Except.error (Halt.fault ⟨_, ⟨m.line, m.column + 1 + n - 1⟩⟩) = _
    rw [hcolumn]
    rfl

theorem turn_of_fault {f : Fault} {n : Nat} (h : m.rest = c :: cs)
    (hf : front c cs = .fault f n) : m.turn = .error (.ofError ⟨f, m.place.right n⟩) := by
  have hc : c ≠ '\n' := by
    intro hc
    subst hc
    cases hf.symm.trans (front_of_isBlank (by decide) cs)
  rw [turn_eq h, if_neg hc, hf, conclude_fault]

theorem gap_le {n : Nat} (h : front c cs = .gap n) : n ≤ cs.length := by
  by_cases hb : isBlank c = true
  · cases h.symm.trans (front_of_isBlank hb cs)
    exact Nat.zero_le _
  by_cases hcomment : "//".toList <+: c :: cs
  · obtain ⟨rest, e⟩ := hcomment
    cases e
    cases h.symm.trans (front_comment rest)
    have hbody := (List.takeWhile_prefix (· ≠ '\n') (l := rest)).length_le
    show _ ≤ rest.length + 1
    omega
  · have hsolid : Solid (c :: cs) := ⟨by simp [hb], hcomment⟩
    obtain ⟨kind, k, hk⟩ | ⟨f, k, hk, -⟩ := front_of_solid hsolid
    · cases h.symm.trans hk
    · cases h.symm.trans hk

/-- A scanner is behind the next piece of another one's text, whose tokens it has added. -/
structure Follows (m m' : Scanner) (ts : List Token) : Prop where
  source : m'.source = m.source
  lt : m.current < m'.current
  le : m'.current ≤ m.source.length
  tokens : m'.tokens = m.tokens ++ ts
  scan_eq : TokenStream.scanFrom 0 m.place m.rest =
    (TokenStream.scanFrom 0 m'.place m'.rest).map (TokenStream.prepend ts)

theorem Follows.of_current {m' : Scanner} {ts : List Token} {n : Nat} (h : m.rest = c :: cs)
    (hn : n ≤ cs.length) (hs : m'.source = m.source) (hc : m'.current = m.current + (1 + n))
    (ht : m'.tokens = m.tokens ++ ts) (hscan : TokenStream.scanFrom 0 m.place (c :: cs) =
      (TokenStream.scanFrom 0 m'.place (cs.drop n)).map (TokenStream.prepend ts)) :
    Follows m m' ts := by
  have hlength := m.rest_length
  have hrest : m'.rest = cs.drop n := by
    rw [rest, hs, hc, ← List.drop_drop, ← rest, h, Nat.add_comm, List.drop_succ_cons]
  rw [h, List.length_cons] at hlength
  refine ⟨hs, by omega, by omega, ht, ?_⟩
  rw [h, hrest, hscan]

theorem follows_of_gap {n : Nat} (h : m.rest = c :: cs) (hf : front c cs = .gap n) :
    Follows m (if c = '\n' then m.nextLine else m.read (1 + n)) [] := by
  have hle := gap_le hf
  have hmap (x : Except LexError TokenStream) : x.map (TokenStream.prepend []) = x := by
    cases x <;> rfl
  have hscan := TokenStream.scanFrom_gap m.place hf hle
  by_cases hc : c = '\n'
  · rw [if_pos hc] at hscan ⊢
    subst hc
    cases hf.symm.trans (front_of_isBlank (by decide) cs)
    exact .of_current h hle rfl rfl (List.append_nil _).symm (by rw [hmap]; exact hscan)
  · have hplace : (m.read (1 + n)).place = (m.place.right 1).right n := by
      simp [place, read, past, Location.right, Nat.add_assoc]
    rw [if_neg hc] at hscan ⊢
    exact .of_current h hle rfl rfl (List.append_nil _).symm (by rw [hmap, hplace]; exact hscan)

theorem follows_of_lexeme {kind : Kind} {n : Nat} (h : m.rest = c :: cs)
    (hf : front c cs = .lexeme kind n) : Follows m (m.cut kind (1 + n))
      [⟨kind, String.ofList (c :: cs.take n), m.place⟩] := by
  have hplace : (m.cut kind (1 + n)).place = (m.place.right 1).right n := by
    simp [place, cut, read, past, Location.right, Nat.add_assoc]
  have htake : m.rest.take (1 + n) = c :: cs.take n := by
    rw [h, Nat.add_comm, List.take_succ_cons]
  refine .of_current h (lexeme_of_front hf).1 rfl rfl ?_ ?_
  · rw [cut, htake]
  · rw [hplace]
    exact TokenStream.scanFrom_cons_lexeme m.place hf

theorem turn_cases (h : m.rest = c :: cs) :
    (∃ m' ts, m.turn = .ok m' ∧ Follows m m' ts) ∨
      ∃ e, m.turn = .error (.ofError e) ∧ TokenStream.scanFrom 0 m.place m.rest = .error e := by
  cases hf : front c cs with
  | gap n => exact .inl ⟨_, _, turn_of_gap h hf, follows_of_gap h hf⟩
  | lexeme kind n => exact .inl ⟨_, _, turn_of_lexeme h hf, follows_of_lexeme h hf⟩
  | fault f n =>
    refine .inr ⟨_, turn_of_fault h hf, ?_⟩
    rw [h]
    simp only [TokenStream.scanFrom, hf]

theorem turn_of_nil (h : m.rest = []) : m.turn = .error .outOfBounds := by
  have hbegin : ({ m with start := m.current } : Scanner).advance = .error .outOfBounds :=
    advance_of_nil h
  rw [turn]
  show (({ m with start := m.current } : Scanner).advance >>= fun s => s.readPiece m.peek) = _
  rw [hbegin]
  rfl

theorem exists_follows {m' : Scanner} (h : m.turn = .ok m') : ∃ ts, Follows m m' ts := by
  cases hm : m.rest with
  | nil => cases h.symm.trans (turn_of_nil hm)
  | cons c cs =>
    obtain ⟨n, ts, ht, hn⟩ | ⟨e, ht, -⟩ := turn_cases hm
    · cases h.symm.trans ht
      exact ⟨ts, hn⟩
    · cases h.symm.trans ht

end

/-! Runs. -/

theorem Ends.unique {m : Scanner} {r r' : Except Halt Scanner} (h : Ends m r) (h' : Ends m r') :
    r = r' := by
  induction h with
  | stop h =>
    cases h' with
    | stop => rfl
    | turn hm => cases h.symm.trans hm
    | halt hm => cases h.symm.trans hm
  | turn h ht _ ih =>
    cases h' with
    | stop hm => cases h.symm.trans hm
    | turn _ ht' hr' =>
      cases ht.symm.trans ht'
      exact ih hr'
    | halt _ ht' => cases ht.symm.trans ht'
  | halt h ht =>
    cases h' with
    | stop hm => cases h.symm.trans hm
    | turn _ ht' => cases ht.symm.trans ht'
    | halt _ ht' =>
      cases ht.symm.trans ht'
      rfl

theorem exists_ends (m : Scanner) : ∃ r, Ends m r ∧ r.map (·.tokens) =
    ((TokenStream.scanFrom 0 m.place m.rest).map (m.tokens ++ ·.toList)).mapError .ofError := by
  -- every turn that does not halt leaves fewer characters
  induction hn : m.rest.length using Nat.strongRecOn generalizing m with
  | ind n ih =>
    cases hm : m.rest with
    | nil => exact ⟨_, .stop (isAtEnd_of_nil hm), rfl⟩
    | cons c cs =>
      have hmore := isAtEnd_of_cons hm
      rw [← hm]
      obtain ⟨m', ts, ht, hf⟩ | ⟨e, ht, he⟩ := turn_cases hm
      · have hlt : m'.rest.length < n := by
          have hlt := hf.lt
          have hle := hf.le
          rw [rest_length, hf.source, ← hn, rest_length]
          omega
        obtain ⟨r, hr, htokens⟩ := ih _ hlt m' rfl
        refine ⟨r, .turn hmore ht hr, ?_⟩
        rw [htokens, hf.scan_eq, hf.tokens]
        cases TokenStream.scanFrom 0 m'.place m'.rest with
        | error e => rfl
        | ok s =>
          have e : m.tokens ++ ts ++ s.toList =
              m.tokens ++ (TokenStream.prepend ts s).toList := by
            simp only [TokenStream.prepend, TokenStream.toList, List.append_assoc]
          exact congrArg Except.ok e
      · refine ⟨_, .halt hmore ht, ?_⟩
        rw [he]
        rfl

theorem eq_error_iff_of_map_tokens {r : Except Halt Scanner} {x : Except LexError TokenStream}
    {k : Halt} (h : r.map (·.tokens) = (x.map (·.toList)).mapError .ofError) :
    r = .error k ↔ ∃ e, x = .error e ∧ Halt.ofError e = k := by
  cases x with
  | ok s =>
    cases r with
    | ok m => simp
    | error k' => cases h
  | error e =>
    cases r with
    | ok m => cases h
    | error k' =>
      cases h
      simp

/-- Cutting a source comes to a string, the last character of which is a backslash that no other
one keeps from having a meaning. -/
def EndsInEscape (source : String) : Prop :=
  ∃ ts l body, TokenStream.Cuts .origin source.toList ts l ('"' :: (body ++ ['\\'])) ∧
    isStringBody body = true

theorem endsInEscape_iff {source : String} : EndsInEscape source ↔
    ∃ e, TokenStream.scan source = .error e ∧ e.fault = .openEscape := by
  constructor
  · intro h
    obtain ⟨ts, l, body, hc, hb⟩ := h
    have hf : front '"' (body ++ ['\\']) = .fault .openEscape (body.length + 1) := by
      rw [front_quote]
      exact (Unclosed.escape hb).stringFront_eq
    obtain ⟨hstuck, hfaulty⟩ := front_eq_fault_iff.1 hf
    exact ⟨_, TokenStream.scan_eq_error_iff.2 ⟨ts, l, _, _, _, hc, hstuck, hfaulty, rfl⟩, rfl⟩
  · intro h
    obtain ⟨e, he, hopen⟩ := h
    obtain ⟨ts, l, rest, f, n, hc, hstuck, hfaulty, e'⟩ := TokenStream.scan_eq_error_iff.1 he
    subst e'
    cases hopen
    cases hfaulty with
    | string hu =>
      cases hu with
      | escape hb => exact ⟨ts, l, _, hc, hb⟩

/-- The scanner ends on every source, and every turn brings it further into the source. It never
asks for a column below zero, and for a character behind the end exactly if the source ends in a
backslash inside a string. Otherwise it comes to what `TokenStream.scan` says; a NUL is a character
like any other. -/
theorem ends_safely (source : String) : ∃ r, (∀ r', Ends (ofSource source) r' ↔ r' = r) ∧
    r ≠ .error .underflow ∧ (r = .error .outOfBounds ↔ EndsInEscape source) ∧
    (¬ EndsInEscape source →
      r.map (·.tokens) = ((TokenStream.scan source).map (·.toList)).mapError .fault) ∧
    ∀ m m' : Scanner, m.turn = .ok m' →
      m.current < m'.current ∧ m'.current ≤ m'.source.length := by
  obtain ⟨r, hr, htokens⟩ := exists_ends (ofSource source)
  have hscan : r.map (·.tokens) =
      ((TokenStream.scan source).map (·.toList)).mapError .ofError := htokens
  refine ⟨r, fun r' => ⟨fun h => h.unique hr, fun e => e ▸ hr⟩, ?_, ?_, ?_, ?_⟩
  · intro e
    obtain ⟨e', -, hk⟩ := (eq_error_iff_of_map_tokens hscan).1 e
    exact Halt.ofError_ne_underflow e' hk
  · rw [endsInEscape_iff, eq_error_iff_of_map_tokens hscan]
    simp only [Halt.ofError_eq_outOfBounds_iff]
  · intro hclosed
    rw [hscan]
    cases hs : TokenStream.scan source with
    | ok s => rfl
    | error e =>
      have hf : e.fault ≠ .openEscape := fun hopen => hclosed (endsInEscape_iff.2 ⟨e, hs, hopen⟩)
      exact congrArg Except.error (if_neg hf)
  · intro m m' h
    obtain ⟨ts, hf⟩ := exists_follows h
    rw [hf.source]
    exact ⟨hf.lt, hf.le⟩

end Scanner

end BrilIR
