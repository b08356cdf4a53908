import BrilIR.Proofs.Lexical.Munch
import BrilIR.Proofs.Decimal.Text
import BrilIR.Proofs.Parser.Progress

/-!
Where parsers fail. On tokens of their classes and with a scope to define values in, a parser fails
at a token of the source, or with nothing but what is wrong with the width of an integer type.
-/

namespace BrilIR

open Token BrilIR.Parser

/-- The error has the place of a token, or it tells what is wrong with the text of an integer type
and has no place. -/
inductive ParseError.Placed (s : TokenStream) : ParseError → Prop
  | token {cause : Cause} {t : Token} (ht : t ∈ s.toList) : Placed s ⟨cause, some t.location⟩
  | typeText {t : Token} {e : TyTextError} (ht : t ∈ s.tokens) (hk : t.kind = .intType)
      (he : Ty.intOfText t.lexeme = .error e) : Placed s ⟨.typeText e, none⟩

/-- The parser stands among the tokens of the source, inside of `d + 1` scopes. -/
structure ParserState.Stands (p : ParserState) (s : TokenStream) (d : Nat) : Prop where
  exists_at : ∃ n, p.At s n
  depth : p.scopes.length = d + 1

namespace ParserState.Stands

variable {p : ParserState} {s : TokenStream} {d : Nat}

theorem peekAt_mem (h : p.Stands s d) (k : Nat) : p.peekAt k ∈ s.toList := by
  obtain ⟨n, hn⟩ := h.exists_at
  exact List.mem_of_getElem? (hn.peekAt k)

theorem peek_mem (h : p.Stands s d) : p.peek ∈ s.toList := h.peekAt_mem 0

theorem previous_mem (h : p.Stands s d) : p.previous ∈ s.toList := by
  obtain ⟨n, hn⟩ := h.exists_at
  exact List.mem_of_getElem? hn.previous

theorem ahead_mem {t : Token} (h : p.Stands s d) (ht : t ∈ p.ahead) : t ∈ s.tokens := by
  obtain ⟨n, hn⟩ := h.exists_at
  rw [hn.ahead] at ht
  exact List.mem_of_mem_drop ht

theorem peekOpName_mem (h : p.Stands s d) : p.peekOpName ∈ s.toList := by
  obtain ⟨k, -, e⟩ := p.exists_peekOpName
  rw [e]
  exact h.peekAt_mem k

theorem next {t : Token} {ts : List Token} (h : p.Stands s d) (e : p.ahead = t :: ts) :
    Stands { p with previous := t, ahead := ts } s d := by
  obtain ⟨n, hn⟩ := h.exists_at
  exact ⟨⟨n + 1, hn.next e⟩, h.depth⟩

end ParserState.Stands

theorem TokenStream.mem_toList {s : TokenStream} {t : Token} (h : t ∈ s.tokens) : t ∈ s.toList :=
  List.mem_append_left _ h

namespace Parser

open ParserState

/-- Run inside of `d + 1` scopes, the parser ends inside of `d' + 1` scopes with a result that `P`
holds of, or it fails at a place. -/
structure Places {α : Type} (s : TokenStream) (d d' : Nat) (x : Parser α) (P : α → Prop) :
    Prop where
  ok : ∀ {p a q}, p.Stands s d → x p = .ok a q → q.Stands s d' ∧ P a
  error : ∀ {p e q}, p.Stands s d → x p = .error e q → e.Placed s

section

variable {α β : Type} {s : TokenStream} {d d₁ d' : Nat} {x y : Parser α} {f : α → Parser β}
  {P : α → Prop} {Q : β → Prop}

namespace Places

theorem of_eq (h : ∀ p, ∃ y, x p = y p ∧ Places s d d' y P) : Places s d d' x P := by
  constructor
  · intro p a q hp e
    obtain ⟨y, hy, hplaces⟩ := h p
    exact hplaces.ok hp (hy ▸ e)
  · intro p e q hp he
    obtain ⟨y, hy, hplaces⟩ := h p
    exact hplaces.error hp (hy ▸ he)

theorem imp {Q : α → Prop} (h : Places s d d' x P) (hPQ : ∀ a, P a → Q a) : Places s d d' x Q :=
  ⟨fun hp e => ⟨(h.ok hp e).1, hPQ _ (h.ok hp e).2⟩, h.error⟩

theorem bind (hx : Places s d d₁ x P) (hf : ∀ a, P a → Places s d₁ d' (f a) Q) :
    Places s d d' (x >>= f) Q := by
  constructor
  · intro p b q hp e
    obtain ⟨a, mid, ha, hb⟩ := bind_ok.1 e
    obtain ⟨hmid, hP⟩ := hx.ok hp ha
    exact (hf a hP).ok hmid hb
  · intro p e q hp he
    rw [bind_apply] at he
    cases ha : x p with
    | ok a mid =>
      rw [ha] at he
      obtain ⟨hmid, hP⟩ := hx.ok hp ha
      exact (hf a hP).error hmid he
    | error e' mid =>
      rw [ha] at he
      cases he
      exact hx.error hp ha

protected theorem pure {a : α} (h : P a) : Places s d d (pure a) P := by
  constructor
  · intro p b q hp e
    cases e
    exact ⟨hp, h⟩
  · intro p e q hp he
    cases he

protected theorem map {g : α → β} (hx : Places s d d' x P) (hg : ∀ a, P a → Q (g a)) :
    Places s d d' (g <$> x) Q := by
  rw [map_eq_pure_bind]
  exact hx.bind fun a ha => .pure (hg a ha)

protected theorem discard (hx : Places s d d' x P) :
    Places s d d' (discard x) fun _ => True :=
  hx.map fun _ _ => trivial

protected theorem ite {c : Prop} [Decidable c] (hx : c → Places s d d' x P)
    (hy : ¬ c → Places s d d' y P) : Places s d d' (if c then x else y) P := by
  split
  · next h => exact hx h
  · next h => exact hy h

protected theorem get : Places s d d get fun p => p.Stands s d := by
  constructor
  · intro p b q hp e
    cases e
    exact ⟨hp, hp⟩
  · intro p e q hp he
    cases he

protected theorem modify {g : ParserState → ParserState} (ha : ∀ p, (g p).ahead = p.ahead)
    (hs : ∀ p, (g p).stop = p.stop) (hp : ∀ p, (g p).previous = p.previous)
    (hd : ∀ p, p.Stands s d → (g p).scopes.length = d' + 1) :
    Places s d d' (modify g : Parser Unit) fun _ => True := by
  constructor
  · intro p b q hstands e
    cases e
    obtain ⟨n, hn⟩ := hstands.exists_at
    exact ⟨⟨⟨n, hn.congr (ha p) (hs p) (hp p)⟩, hd p hstands⟩, trivial⟩
  · intro p e q hp he
    cases he

end Places

theorem places_failAt {t : Token} {cause : ParseError.Cause} (ht : t ∈ s.toList) :
    Places s d d' (failAt t cause) P := by
  constructor
  · intro p a q _ e
    cases e
  · intro p e q _ he
    cases he
    exact .token ht

theorem places_require {c : Prop} [Decidable c] {t : Token} {cause : ParseError.Cause}
    (ht : t ∈ s.toList) : Places s d d (require c t cause) fun _ => c :=
  .ite (fun hc => .pure hc) fun _ => places_failAt ht

theorem places_peek : Places s d d peek fun t => t ∈ s.toList :=
  .bind .get fun _ hp => .pure hp.peek_mem

theorem places_check {kind : Kind} : Places s d d (check kind) fun _ => True :=
  .bind .get fun _ _ => .pure trivial

theorem places_expect {kind : Kind} :
    Places s d d (expect kind) fun t => t ∈ s.tokens ∧ t.kind = kind := by
  constructor
  · intro p t q hp e
    obtain ⟨ts, ha, hk, rfl⟩ := expect_ok_iff.1 e
    exact ⟨hp.next ha, hp.ahead_mem (by simp [ha]), hk⟩
  · intro p e q hp he
    unfold expect at he
    split at he
    · cases he
      exact .token hp.peek_mem
    · next t ts ha =>
      split at he
      · cases he
      · cases he
        exact .token (TokenStream.mem_toList (hp.ahead_mem (by simp [ha])))

theorem places_advance : Places s d d advance fun t => t ∈ s.toList := by
  constructor
  · intro p t q hp e
    unfold advance at e
    split at e
    · cases e
      exact ⟨hp, hp.previous_mem⟩
    · next ha =>
      cases e
      exact ⟨hp.next ha, TokenStream.mem_toList (hp.ahead_mem (by simp [ha]))⟩
  · intro p e q hp he
    unfold advance at he
    split at he <;> cases he

theorem places_ifNext {kind : Kind} {part : Parser α} {a : α} (h : Places s d d part P)
    (ha : P a) : Places s d d (ifNext kind part a) P :=
  .bind places_check fun _ _ => .ite (fun _ => h) fun _ => .pure ha

theorem places_keyword {word : String} : Places s d d (keyword word) fun _ => True :=
  .bind places_expect fun _ ht => (places_require (TokenStream.mem_toList ht.1)).imp
    fun _ _ => trivial

theorem places_pushScope : Places s d (d + 1) pushScope fun _ => True :=
  .modify (fun _ => rfl) (fun _ => rfl) (fun _ => rfl) fun _ hp => by
    rw [List.length_cons, hp.depth]

theorem places_popScope : Places s (d + 1) d popScope fun _ => True :=
  .modify (fun _ => rfl) (fun _ => rfl) (fun _ => rfl) fun _ hp => by
    rw [List.length_tail, hp.depth, Nat.add_sub_cancel]

theorem places_define {t : Token} {v : Value} (ht : t ∈ s.toList) :
    Places s d d (define t v) fun _ => True := by
  refine .bind .get fun p hp => ?_
  split
  · next hscopes =>
    have hdepth := hp.depth
    rw [hscopes] at hdepth
    cases hdepth
  · next scope outer hscopes =>
    refine .ite (fun _ => places_failAt ht) fun _ =>
      .modify (fun _ => rfl) (fun _ => rfl) (fun _ => rfl) fun q hq => ?_
    have hdepth := hp.depth
    rw [hscopes] at hdepth
    exact hdepth

/-! Loops keep what each turn keeps. -/

theorem places_repeatUntil {stop : ParserState → Bool} {step : β → Parser β}
    (h : ∀ b, Q b → Places s d d (step b) Q) {b : β} (hb : Q b) :
    Places s d d (repeatUntil stop step b) Q :=
  repeatUntil_rule (C := fun x => Places s d d x Q) (fun _ => .of_eq) (fun _ => .pure) h
    (fun b _ hb hf => (h b hb).bind hf) hb

theorem places_separator {close : Kind} : Places s d d (separator close) fun _ => True :=
  .bind places_check fun _ _ => .ite (fun _ => .pure trivial) fun _ => places_expect.discard

theorem places_entriesUntil {close : Kind} {entry : β → Parser β}
    (h : ∀ b, Q b → Places s d d (entry b) Q) {b : β} (hb : Q b) :
    Places s d d (entriesUntil close entry b) Q := by
  have turn (b : β) (hb : Q b) : Places s d d (entryTurn close entry b) Q :=
    (h b hb).bind fun _ hc => .bind places_separator fun _ _ => .pure hc
  rw [entriesUntil_eq]
  exact (places_repeatUntil turn hb).bind fun _ hc =>
    .bind places_expect.discard fun _ _ => .pure hc

theorem places_itemTurn {item : Parser α} (h : Places s d d item P) (as : List α)
    (has : ∀ a ∈ as, P a) : Places s d d (itemTurn item as) fun as => ∀ a ∈ as, P a :=
  h.bind fun _ ha => .pure (List.forall_mem_append.2 ⟨has, List.forall_mem_singleton.2 ha⟩)

theorem places_listUntil {close : Kind} {item : Parser α} (h : Places s d d item P) :
    Places s d d (listUntil close item) fun as => ∀ a ∈ as, P a := by
  rw [listUntil_eq]
  exact places_entriesUntil (places_itemTurn h) (List.forall_mem_nil P)

theorem places_commaSeparated {item : Parser α} (h : Places s d d item P) :
    Places s d d (commaSeparated item) fun as => ∀ a ∈ as, P a := by
  rw [commaSeparated_eq]
  exact h.bind fun _ ha => places_repeatUntil (fun as has =>
    .bind places_advance.discard fun _ _ => places_itemTurn h as has)
    (List.forall_mem_singleton.2 ha)

end

end Parser

def TokenStream.Classed (s : TokenStream) : Prop := ∀ t ∈ s.tokens, Lexeme t.kind t.lexeme.toList

section

variable {s : TokenStream} {d : Nat}

namespace Ty

theorem places_ofInt {t : Token} (ht : t ∈ s.tokens) (hk : t.kind = .intType) :
    Places s d d (ofToken (intOfText t.lexeme)) fun _ => True := by
  unfold ofToken
  split
  · exact .pure trivial
  · next e he =>
    constructor
    · intro p a q _ e
      cases e
    · intro p e' q _ h
      cases h
      exact .typeText ht hk he

theorem places_ofFloat (hs : s.Classed) {t : Token} (ht : t ∈ s.tokens)
    (hk : t.kind = .floatType) : Places s d d (ofToken (floatOfText t.lexeme)) fun _ => True := by
  have hname := lexeme_floatType_iff.1 (hk ▸ hs t ht)
  simp only [String.toList_inj] at hname
  obtain h | h | h := hname
  · rw [h]
    exact .pure trivial
  · rw [h]
    exact .pure trivial
  · rw [h]
    exact .pure trivial

theorem places_pointerRest {type : Parser Ty} (h : Places s d d type fun _ => True) :
    Places s d d (pointerRest type) fun _ => True :=
  .bind places_expect.discard fun _ _ => .bind h fun _ _ =>
    .bind places_expect.discard fun _ _ => .pure trivial

theorem places_parseStep (hs : s.Classed) {type : Parser Ty}
    (h : Places s d d type fun _ => True) : Places s d d (parseStep type) fun _ => True := by
  refine .bind places_peek fun t ht => ?_
  split
  · exact .bind places_expect fun u hu => places_ofInt hu.1 hu.2
  · exact .bind places_expect fun u hu => places_ofFloat hs hu.1 hu.2
  · exact .bind places_expect.discard fun _ _ => .bind places_expect fun name hname =>
      .ite (fun _ => places_pointerRest h) fun _ =>
        places_failAt (TokenStream.mem_toList hname.1)
  · exact places_failAt ht

theorem places_parseWithin (hs : s.Classed) (n : Nat) :
    Places s d d (parseWithin n) fun _ => True := by
  induction n with
  | zero => exact .bind places_peek fun t ht => places_failAt ht
  | succ n ih => exact places_parseStep hs ih

theorem places_parse (hs : s.Classed) : Places s d d parse fun _ => True :=
  .of_eq fun p => ⟨parseWithin p.ahead.length, rfl, places_parseWithin hs _⟩

theorem places_parseList (hs : s.Classed) : Places s d d parseList fun _ => True :=
  .bind places_expect.discard fun _ _ => (places_listUntil (places_parse hs)).imp
    fun _ _ => trivial

theorem places_parseResults (hs : s.Classed) : Places s d d parseResults fun _ => True :=
  .bind places_check fun _ _ => .ite (fun _ => places_parseList hs) fun _ =>
    .bind (places_parse hs) fun _ _ => .pure trivial

end Ty

namespace Attribute

theorem places_parseTyped (hs : s.Classed) {number : Ty → Attribute} :
    Places s d d (parseTyped number) fun _ => True :=
  .bind places_expect.discard fun _ _ => .bind (Ty.places_parse hs) fun _ _ => .pure trivial

theorem places_parseNumber (hs : s.Classed) {negative : Bool} {t : Token} (ht : t ∈ s.toList) :
    Places s d d (parseNumber negative t) fun _ => True := by
  unfold parseNumber
  dsimp only
  split
  · split
    · exact places_failAt ht
    · exact places_parseTyped hs
  · next hk =>
    have hw : FloatText t.lexeme.toList := by
      cases List.mem_append.1 ht with
      | inl ht =>
        have hlexeme := hs t ht
        rwa [hk] at hlexeme
      | inr ht =>
        rw [List.mem_singleton.1 ht] at hk
        cases hk
    obtain ⟨x, hx⟩ := Binary64.exists_read? negative hw
    rw [hx]
    exact places_parseTyped hs
  · exact places_failAt ht

theorem places_parseNegative (hs : s.Classed) : Places s d d parseNegative fun _ => True :=
  .bind places_expect.discard fun _ _ => .bind places_advance fun _ ht => places_parseNumber hs ht

theorem places_parse (hs : s.Classed) : Places s d d parse fun _ => True := by
  have number {kind : Kind} : Places s d d (do parseNumber false (← expect kind)) fun _ => True :=
    .bind places_expect fun _ ht => places_parseNumber hs (TokenStream.mem_toList ht.1)
  refine .bind places_peek fun t ht => ?_
  split
  · exact places_parseNegative hs
  · exact number
  · exact number
  · exact .bind places_expect.discard fun _ _ => .pure trivial
  · exact .bind places_expect.discard fun _ _ => .pure trivial
  · exact .bind places_expect fun _ _ => .pure trivial
  · exact .bind places_expect fun _ _ => .pure trivial
  · exact .bind (Ty.places_parse hs) fun _ _ => .pure trivial
  · exact .bind (Ty.places_parse hs) fun _ _ => .pure trivial
  · exact .bind (Ty.places_parse hs) fun _ _ => .pure trivial
  · exact places_failAt ht

end Attribute

namespace Attributes

theorem places_parseEntry (hs : s.Classed) (as : Attributes) :
    Places s d d (parseEntry as) fun _ => True :=
  .bind places_expect fun _ ht => .bind (places_require (TokenStream.mem_toList ht.1)) fun _ _ =>
    .bind places_expect.discard fun _ _ => .bind (Attribute.places_parse hs) fun _ _ =>
    .pure trivial

theorem places_parse (hs : s.Classed) : Places s d d parse fun _ => True :=
  .bind places_expect.discard fun _ _ =>
    places_entriesUntil (fun as _ => places_parseEntry hs as) trivial

end Attributes

namespace Op

def Located (s : TokenStream) (op : Op) : Prop :=
  ∃ t ∈ s.toList, op.operation.location = some t.location

theorem places_parseOperand : Places s d d parseOperand fun u => u.1 ∈ s.toList := by
  refine .bind places_expect fun t ht => .bind .get fun p _ => ?_
  have ht := TokenStream.mem_toList ht.1
  split
  · exact .pure ht
  · exact places_failAt ht

theorem places_parseOperands :
    Places s d d parseOperands fun uses => ∀ u ∈ uses, u.1 ∈ s.toList :=
  places_ifNext (places_commaSeparated places_parseOperand) (List.forall_mem_nil _)

theorem mem_of_typeClash? {uses : List (Token × Value)} {types : List Ty} {t : Token}
    {cause : ParseError.Cause} (h : typeClash? uses types = some (t, cause)) :
    ∃ u ∈ uses, u.1 = t := by
  induction uses generalizing types with
  | nil => cases h
  | cons u uses ih =>
    cases types with
    | nil => cases h
    | cons type types =>
      rw [typeClash?] at h
      split at h
      · obtain ⟨v, hv, e⟩ := ih h
        exact ⟨v, List.mem_cons_of_mem u hv, e⟩
      · cases h
        exact ⟨u, List.mem_cons_self, rfl⟩

theorem places_checkOperandTypes {uses : List (Token × Value)} (types : List Ty)
    (hu : ∀ u ∈ uses, u.1 ∈ s.toList) :
    Places s d d (checkOperandTypes uses types) fun _ => True := by
  refine .bind .get fun p hp => .bind (places_require hp.previous_mem) fun _ _ => ?_
  split
  · next h =>
    obtain ⟨u, hmem, rfl⟩ := mem_of_typeClash? h
    exact places_failAt (hu u hmem)
  · exact .pure trivial

theorem places_parseResultNames :
    Places s d d parseResultNames fun names => ∀ t ∈ names, t ∈ s.toList :=
  places_ifNext (.bind (places_commaSeparated (places_expect.imp fun _ ht =>
    TokenStream.mem_toList ht.1)) fun _ hnames => .bind places_expect.discard fun _ _ =>
      .pure hnames) (List.forall_mem_nil _)

theorem places_parseSuccessors : Places s d d parseSuccessors fun _ => True := by
  have successor : Places s d d parseSuccessor fun _ => True :=
    .bind places_expect fun _ _ => .pure trivial
  rw [parseSuccessors_eq]
  exact .bind places_expect.discard fun _ _ => (places_listUntil successor).imp fun _ _ => trivial

theorem places_defineResults {names : List Token} (types : List Ty)
    (h : ∀ t ∈ names, t ∈ s.toList) :
    Places s d d (defineResults names types) fun _ => True := by
  induction names generalizing types with
  | nil => exact .pure trivial
  | cons t names ih =>
    obtain ⟨ht, hnames⟩ := List.forall_mem_cons.1 h
    cases types with
    | nil => exact .pure trivial
    | cons type types =>
      exact .bind (places_define ht) fun _ _ => .bind (ih types hnames) fun _ _ => .pure trivial

theorem places_parseGeneric (hs : s.Classed) (kind : OpKind) :
    Places s d d (parseGeneric kind) (Located s) := by
  refine .bind places_peek fun first hfirst => .bind places_parseResultNames fun names hnames =>
    .bind places_expect fun name hname => ?_
  have hname := TokenStream.mem_toList hname.1
  refine .bind (places_require hname) fun _ _ =>
    .bind (.modify (fun _ => rfl) (fun _ => rfl) (fun _ => rfl) fun _ hp => hp.depth) fun _ _ =>
    .bind places_expect.discard fun _ _ => .bind places_parseOperands fun uses huses =>
    .bind places_expect.discard fun _ _ => ?_
  refine .bind (places_ifNext places_parseSuccessors trivial) fun _ _ =>
    .bind (places_ifNext (Attributes.places_parse hs) trivial) fun _ _ =>
    .bind places_expect.discard fun _ _ => .bind (Ty.places_parseList hs) fun types _ =>
    .bind (places_checkOperandTypes types huses) fun _ _ => ?_
  exact .bind places_expect.discard fun _ _ => .bind (Ty.places_parseResults hs) fun _ _ =>
    .bind (places_require hname) fun _ _ => .bind (places_defineResults _ hnames) fun _ _ =>
    .pure ⟨first, hfirst, rfl⟩

theorem places_parseReturnTypes (hs : s.Classed) (uses : List (Token × Value)) :
    Places s d d (parseReturnTypes uses) fun _ => True :=
  .ite (fun _ => .pure trivial) fun _ => .bind places_expect.discard fun _ _ =>
    (places_commaSeparated (Ty.places_parse hs)).imp fun _ _ => trivial

theorem places_parseReturn (hs : s.Classed) (kind : OpKind) :
    Places s d d (parseReturn kind) (Located s) :=
  .bind places_peek fun first hfirst => .bind places_keyword fun _ _ =>
    .bind places_parseOperands fun uses huses =>
    .bind (places_parseReturnTypes hs uses) fun types _ =>
    .bind (places_checkOperandTypes types huses) fun _ _ => .pure ⟨first, hfirst, rfl⟩

end Op

namespace Region

variable {op : Parser Op}

theorem places_parseLabel (labels : List String) :
    Places s d d (parseLabel labels) fun _ => True :=
  places_ifNext (.bind places_expect fun _ ht => .bind places_expect.discard fun _ _ =>
    .bind (places_require (TokenStream.mem_toList ht.1)) fun _ _ => .pure trivial) trivial

def Located (s : TokenStream) (r : List Block) : Prop := ∀ op ∈ Region.ops r, op.Located s

theorem places_parseBlock (h : Places s d d op (Op.Located s)) (blocks : List Block)
    (hblocks : Located s blocks) : Places s d d (parseBlock op blocks) (Located s) := by
  refine .bind .get fun p _ => .bind places_peek fun t ht => .bind (places_require ht) fun _ _ =>
    .bind (places_parseLabel _) fun label _ => ?_
  refine .bind (places_repeatUntil (places_itemTurn h) (List.forall_mem_nil _)) fun ops hops =>
    .pure ?_
  have hall : Region.ops (blocks ++ [.mk label ops]) = Region.ops blocks ++ ops := by
    simp [Region.ops, Block.ops]
  rw [Located, hall]
  exact List.forall_mem_append.2 ⟨hblocks, hops⟩

theorem exists_of_undefinedSuccessor? {r : List Block} {l : Option Location} {label : String}
    (h : undefinedSuccessor? r = some (l, label)) :
    ∃ op ∈ Region.ops r, op.operation.location = l := by
  obtain ⟨op, hop, h⟩ := List.exists_of_findSome?_eq_some h
  obtain ⟨_, -, e⟩ := Option.map_eq_some_iff.1 h
  cases e
  exact ⟨op, hop, rfl⟩

theorem places_parse (h : ∀ d, Places s d d op (Op.Located s)) :
    Places s d d (Region.parse op) fun _ => True := by
  refine .bind places_expect.discard fun _ _ => .bind places_pushScope fun _ _ =>
    .bind (places_repeatUntil (places_parseBlock (h _)) (List.forall_mem_nil _))
      fun blocks hblocks =>
    .bind places_expect.discard fun _ _ => .bind places_popScope fun _ _ => ?_
  split
  · next l label hl =>
    obtain ⟨op, hop, rfl⟩ := exists_of_undefinedSuccessor? hl
    obtain ⟨t, ht, e⟩ := hblocks op hop
    rw [e]
    exact places_failAt ht
  · exact .pure trivial

end Region

namespace Op

variable {op : Parser Op}

theorem places_parseModule (h : ∀ d, Places s d d op (Located s)) :
    Places s d d (parseModule op) (Located s) :=
  .bind places_peek fun first hfirst => .bind places_keyword fun _ _ =>
    .bind (Region.places_parse h) fun _ _ => .pure ⟨first, hfirst, rfl⟩

theorem places_parseArgument (hs : s.Classed) : Places s d d parseArgument fun _ => True :=
  .bind places_expect fun _ ht => .bind places_expect.discard fun _ _ =>
    .bind (Ty.places_parse hs) fun _ _ =>
    .bind (places_define (TokenStream.mem_toList ht.1)) fun _ _ => .pure trivial

theorem places_parseFunc (hs : s.Classed) (h : ∀ d, Places s d d op (Located s))
    (style : FuncStyle) : Places s d d (parseFunc op style) (Located s) := by
  have body (d : Nat) : Places s d d (some <$> Region.parse op) fun _ => True :=
    (Region.places_parse h).map fun _ _ => trivial
  refine .bind places_peek fun first hfirst => .bind places_keyword fun _ _ =>
    .bind places_expect fun _ _ => .bind places_pushScope fun _ _ =>
    .bind places_expect.discard fun _ _ => ?_
  refine .bind (places_listUntil (places_parseArgument hs)) fun _ _ =>
    .bind (places_ifNext (.bind places_expect.discard fun _ _ => Ty.places_parseResults hs)
      trivial) fun _ _ => ?_
  exact .bind (places_ifNext (body _) trivial) fun _ _ =>
    .bind places_popScope fun _ _ => .pure ⟨first, hfirst, rfl⟩

theorem places_parseKind (hs : s.Classed) (h : ∀ d, Places s d d op (Located s))
    (kind : OpKind) : Places s d d (parseKind op kind) (Located s) := by
  cases kind with
  | moduleOp => exact places_parseModule h
  | funcOp style _ => exact places_parseFunc hs h style
  | returnOp => exact places_parseReturn hs .returnOp
  | instr i => exact places_parseGeneric hs (.instr i)

theorem places_parseStep (hs : s.Classed) (h : ∀ d, Places s d d op (Located s)) :
    Places s d d (parseStep op) (Located s) := by
  refine .bind .get fun p hp => ?_
  dsimp only
  split
  · exact places_parseKind hs h _
  · exact places_failAt hp.peekOpName_mem

theorem places_parseWithin (hs : s.Classed) (n : Nat) :
    ∀ d, Places s d d (parseWithin n) (Located s) := by
  induction n with
  | zero => exact fun d => .bind places_peek fun t ht => places_failAt ht
  | succ n ih => exact fun d => places_parseStep hs ih

theorem places_parse (hs : s.Classed) : Places s d d parse (Located s) :=
  .of_eq fun p => ⟨parseWithin p.ahead.length, rfl, places_parseWithin hs _ d⟩

theorem places_parseAll (hs : s.Classed) :
    Places s d d parseAll fun ops => ∀ op ∈ ops, op.Located s :=
  places_repeatUntil (places_itemTurn (places_parse hs)) (List.forall_mem_nil _)

/-- Where the tokens of a source are no ops, the error has a place or tells of a width. -/
theorem placed_of_parseAll {e : ParseError} {q : ParserState} (hs : s.Classed)
    (h : parseAll (.ofTokens s) = .error e q) : e.Placed s :=
  (places_parseAll hs).error ⟨⟨0, ParserState.at_ofTokens s⟩, rfl⟩ h

end Op

end

end BrilIR
