import BrilIR.Proofs.Grammar.TreeParser
import BrilIR.Proofs.Parser.Progress

/-!
The name of an op is looked up before the op is read. The look skips names and commas in any order
and the parser demands them in turn, so the two go apart on what is no list of results; wherever the
list is read they stop at one token. No op is therefore read as one of another name.
-/

namespace BrilIR

open BrilIR.Parser

namespace Parser

variable {α β : Type}

/-- Run in a state, the parser does not fail because another operation was expected. -/
def NoMismatch (x : Parser α) (p : ParserState) : Prop :=
  ∀ e q, x p = .error e q → ∀ name, e.cause ≠ .wrongOperation name

def Matched (x : Parser α) : Prop := ∀ p, NoMismatch x p

theorem NoMismatch.of_eq {x y : Parser α} {p : ParserState} (h : NoMismatch y p) (e : x p = y p) :
    NoMismatch x p := by
  intro f q hx
  exact h f q (e ▸ hx)

theorem NoMismatch.bind {x : Parser α} {f : α → Parser β} {p : ParserState} (hx : NoMismatch x p)
    (hf : ∀ a q, x p = .ok a q → NoMismatch (f a) q) : NoMismatch (x >>= f) p := by
  intro e q he
  rw [bind_apply] at he
  cases ha : x p with
  | ok a mid =>
    rw [ha] at he
    exact hf a mid ha e q he
  | error e' mid =>
    rw [ha] at he
    cases he
    exact hx _ _ ha

namespace Matched

variable {x y : Parser α} {f : α → Parser β}

protected theorem bind (hx : Matched x) (hf : ∀ a, Matched (f a)) : Matched (x >>= f) :=
  fun p => (hx p).bind fun a q _ => hf a q

protected theorem pure (a : α) : Matched (pure a : Parser α) := by
  intro p e q h
  cases h

protected theorem throw {e : ParseError} (he : ∀ name, e.cause ≠ .wrongOperation name) :
    Matched (throw e : Parser α) := by
  intro p e' q h
  cases h
  exact he

protected theorem map (hx : Matched x) (f : α → β) : Matched (f <$> x) := by
  rw [map_eq_pure_bind]
  exact hx.bind fun a => .pure (f a)

protected theorem discard (hx : Matched x) : Matched (discard x) :=
  hx.map fun _ => ()

protected theorem ite {c : Prop} [Decidable c] (hx : Matched x) (hy : Matched y) :
    Matched (if c then x else y) := by
  split
  · exact hx
  · exact hy

protected theorem get : Matched (get : Parser ParserState) := by
  intro p e q h
  cases h

protected theorem modify (f : ParserState → ParserState) :
    Matched (modify f : Parser Unit) := by
  intro p e q h
  cases h

end Matched

theorem matched_failAt {t : Token} {cause : ParseError.Cause}
    (h : ∀ name, cause ≠ .wrongOperation name) : Matched (failAt (α := α) t cause) :=
  .throw h

theorem matched_failBare {cause : ParseError.Cause} (h : ∀ name, cause ≠ .wrongOperation name) :
    Matched (failBare (α := α) cause) :=
  .throw h

theorem matched_require {c : Prop} [Decidable c] {t : Token} {cause : ParseError.Cause}
    (h : ∀ name, cause ≠ .wrongOperation name) : Matched (require c t cause) :=
  .ite (.pure ()) (matched_failAt h)

theorem matched_peek : Matched peek := .bind .get fun p => .pure p.peek

theorem matched_check {kind : Token.Kind} : Matched (check kind) :=
  .bind .get fun p => .pure (p.check kind)

theorem matched_expect {kind : Token.Kind} : Matched (expect kind) := by
  intro p e q h
  unfold expect at h
  split at h
  · cases h
    exact nofun
  · split at h
    · cases h
    · cases h
      exact nofun

theorem matched_advance : Matched advance := by
  intro p e q h
  unfold advance at h
  split at h <;> cases h

theorem matched_ifNext {kind : Token.Kind} {part : Parser α} {a : α} (h : Matched part) :
    Matched (ifNext kind part a) :=
  .bind matched_check fun _ => .ite h (.pure a)

theorem matched_keyword {word : String} : Matched (keyword word) :=
  .bind matched_expect fun _ => matched_require nofun

theorem matched_define {t : Token} {v : Value} : Matched (define t v) := by
  refine .bind .get fun p => ?_
  split
  · exact matched_failBare nofun
  · exact .ite (matched_failAt nofun) (.modify _)

/-! Loops fail only as their turns do. -/

theorem matched_repeatUntil {stop : ParserState → Bool} {step : β → Parser β}
    (h : ∀ b, Matched (step b)) (b : β) : Matched (repeatUntil stop step b) := by
  refine repeatUntil_rule (P := fun _ => True) ?_ (fun b _ => .pure b) (fun b _ => h b)
    (fun b f _ hf => (h b).bind fun c => hf c trivial) trivial
  intro x hx p
  obtain ⟨y, e, hy⟩ := hx p
  exact (hy p).of_eq e

theorem matched_separator {close : Token.Kind} : Matched (separator close) :=
  .bind matched_check fun _ => .ite (.pure ()) matched_expect.discard

theorem matched_entriesUntil {close : Token.Kind} {entry : β → Parser β}
    (h : ∀ b, Matched (entry b)) (b : β) : Matched (entriesUntil close entry b) := by
  have turn (b : β) : Matched (entryTurn close entry b) :=
    (h b).bind fun c => .bind matched_separator fun _ => .pure c
  rw [entriesUntil_eq]
  exact .bind (matched_repeatUntil turn b) fun c =>
    .bind matched_expect.discard fun _ => .pure c

theorem matched_itemTurn {item : Parser α} (h : Matched item) (as : List α) :
    Matched (itemTurn item as) :=
  h.bind fun a => .pure (as ++ [a])

theorem matched_listUntil {close : Token.Kind} {item : Parser α} (h : Matched item) :
    Matched (listUntil close item) := by
  rw [listUntil_eq]
  exact matched_entriesUntil (matched_itemTurn h) []

theorem matched_commaSeparated {item : Parser α} (h : Matched item) :
    Matched (commaSeparated item) := by
  rw [commaSeparated_eq]
  exact .bind h fun a => matched_repeatUntil
    (fun as => .bind matched_advance.discard fun _ => matched_itemTurn h as) [a]

end Parser

namespace Ty

theorem matched_ofToken {type : Except TyTextError Ty} : Matched (ofToken type) := by
  unfold ofToken
  split
  · exact .pure _
  · exact matched_failBare nofun

theorem matched_parseStep {type : Parser Ty} (h : Matched type) :
    Matched (parseStep type) := by
  have rest : Matched (pointerRest type) :=
    .bind matched_expect.discard fun _ => .bind h fun pointee =>
      .bind matched_expect.discard fun _ => .pure (Ty.ptr pointee)
  refine .bind matched_peek fun t => ?_
  split
  · exact .bind matched_expect fun _ => matched_ofToken
  · exact .bind matched_expect fun _ => matched_ofToken
  · exact .bind matched_expect.discard fun _ => .bind matched_expect fun _ =>
      .ite rest (matched_failAt nofun)
  · exact matched_failAt nofun

theorem matched_parseWithin (n : Nat) : Matched (parseWithin n) := by
  induction n with
  | zero => exact .bind matched_peek fun t => matched_failAt nofun
  | succ n ih => exact matched_parseStep ih

theorem matched_parse : Matched parse := fun p => (matched_parseWithin _ p).of_eq rfl

theorem matched_parseList : Matched parseList :=
  .bind matched_expect.discard fun _ => matched_listUntil matched_parse

theorem matched_parseResults : Matched parseResults :=
  .bind matched_check fun _ => .ite matched_parseList
    (.bind matched_parse fun t => .pure [t])

end Ty

namespace Attribute

theorem matched_parseNumber {negative : Bool} {t : Token} :
    Matched (parseNumber negative t) := by
  have typed (number : Ty → Attribute) : Matched (parseTyped number) :=
    .bind matched_expect.discard fun _ => .bind Ty.matched_parse fun t => .pure (number t)
  unfold parseNumber
  generalize (if negative = true then "-" else "") = sign
  dsimp only
  split
  · split
    · exact matched_failAt nofun
    · exact typed _
  · split
    · exact matched_failBare nofun
    · exact typed _
  · exact matched_failAt nofun

theorem matched_parse : Matched parse := by
  refine .bind matched_peek fun t => ?_
  split
  · exact .bind matched_expect.discard fun _ =>
      .bind matched_advance fun _ => matched_parseNumber
  · exact .bind matched_expect fun _ => matched_parseNumber
  · exact .bind matched_expect fun _ => matched_parseNumber
  · exact .bind matched_expect.discard fun _ => .pure _
  · exact .bind matched_expect.discard fun _ => .pure _
  · exact .bind matched_expect fun _ => .pure _
  · exact .bind matched_expect fun _ => .pure _
  · exact .bind Ty.matched_parse fun _ => .pure _
  · exact .bind Ty.matched_parse fun _ => .pure _
  · exact .bind Ty.matched_parse fun _ => .pure _
  · exact matched_failAt nofun

end Attribute

theorem Attributes.matched_parse : Matched Attributes.parse := by
  have entry (d : Attributes) : Matched (parseEntry d) :=
    .bind matched_expect fun key => .bind (matched_require nofun) fun _ =>
      .bind matched_expect.discard fun _ => .bind Attribute.matched_parse fun a =>
      .pure (d.insert key.lexeme a)
  exact .bind matched_expect.discard fun _ => matched_entriesUntil entry ∅

namespace Op

theorem matched_parseOperands : Matched parseOperands := by
  have operand : Matched parseOperand := by
    refine .bind matched_expect fun t => .bind .get fun p => ?_
    split
    · exact .pure _
    · exact matched_failAt nofun
  exact matched_ifNext (matched_commaSeparated operand)

theorem cause_of_typeClash? {uses : List (Token × Value)} {types : List Ty} {t : Token}
    {cause : ParseError.Cause} (h : typeClash? uses types = some (t, cause)) (name : String) :
    cause ≠ .wrongOperation name := by
  induction uses generalizing types with
  | nil => cases h
  | cons u uses ih =>
    cases types with
    | nil => cases h
    | cons type types =>
      rw [typeClash?] at h
      split at h
      · exact ih h
      · cases h
        simp

theorem matched_checkOperandTypes (uses : List (Token × Value)) (types : List Ty) :
    Matched (checkOperandTypes uses types) := by
  refine .bind .get fun p => .bind (matched_require nofun) fun _ => ?_
  split
  · next h => exact matched_failAt (cause_of_typeClash? h)
  · exact .pure _

theorem matched_parseResultNames : Matched parseResultNames :=
  matched_ifNext (.bind (matched_commaSeparated matched_expect) fun names =>
    .bind matched_expect.discard fun _ => .pure names)

theorem matched_parseSuccessors : Matched parseSuccessors := by
  have successor : Matched parseSuccessor := .bind matched_expect fun t => .pure t.lexeme
  rw [parseSuccessors_eq]
  exact .bind matched_expect.discard fun _ => matched_listUntil successor

theorem matched_defineResults (names : List Token) (types : List Ty) :
    Matched (defineResults names types) := by
  induction names generalizing types with
  | nil => exact .pure []
  | cons t names ih =>
    cases types with
    | nil => exact .pure []
    | cons type types =>
      exact .bind matched_define fun _ => .bind (ih types) fun vs => .pure (_ :: vs)

/-- Where the names of results are read, the parser stops at the token that was looked up before.
Behind all tokens both are the end of the source. -/
theorem peek_of_parseResultNames {p q : ParserState} {names : List Token}
    (h : parseResultNames p = .ok names q) : q.peek = p.peekOpName := by
  obtain ⟨-, hreads⟩ := denotes_parseResultNames.apply_ok h
  have hnames : ReadsResultNames p.ahead (names.map (·.lexeme)) q.ahead :=
    readsResultNames_iff.2 ⟨names, hreads, rfl⟩
  have hstop : q.stop = p.stop := by
    obtain ⟨s, n, hp⟩ := p.exists_at
    obtain ⟨m, -, hq⟩ := (forward_parseResultNames p).ok hp h
    rw [hq.stop, hp.stop]
  rw [peekOpName_eq_headD hnames, ← hstop, ParserState.peek, ParserState.peekAt]
  cases q.ahead <;> rfl

theorem noMismatch_parseGeneric {kind : OpKind} {p : ParserState}
    (hp : trimQuotes p.peekOpName.lexeme = kind.name) : NoMismatch (parseGeneric kind) p := by
  refine (matched_peek p).bind fun first p₁ h₁ => ?_
  cases h₁
  refine (matched_parseResultNames p).bind fun names p₂ h₂ => ?_
  refine (matched_expect p₂).bind fun name p₃ h₃ => ?_
  have hname : trimQuotes name.lexeme = kind.name := by
    obtain ⟨ts, e, -, -⟩ := expect_ok_iff.1 h₃
    have hpeek : p₂.peek = name := by simp [ParserState.peek, ParserState.peekAt, e]
    rw [← hpeek, peek_of_parseResultNames h₂, hp]
  have hrequire : Matched (require (trimQuotes name.lexeme = kind.name) name
      (.wrongOperation kind.name)) := by
    rw [require, if_pos hname]
    exact .pure ()
  refine (hrequire p₃).bind fun _ p₄ _ => Matched.bind (.modify _) (fun _ => ?_) p₄
  refine .bind matched_expect.discard fun _ => .bind matched_parseOperands fun uses =>
    .bind matched_expect.discard fun _ => ?_
  refine .bind (matched_ifNext matched_parseSuccessors) fun successors =>
    .bind (matched_ifNext Attributes.matched_parse) fun attributes =>
    .bind matched_expect.discard fun _ => .bind Ty.matched_parseList fun types =>
    .bind (matched_checkOperandTypes uses types) fun operands => ?_
  exact .bind matched_expect.discard fun _ => .bind Ty.matched_parseResults fun _ =>
    .bind (matched_require (by simp)) fun _ => .bind (matched_defineResults names _) fun _ =>
    .pure _

theorem matched_parseReturn (kind : OpKind) : Matched (parseReturn kind) := by
  have types (uses : List (Token × Value)) : Matched (parseReturnTypes uses) :=
    .ite (.pure []) (.bind matched_expect.discard fun _ =>
      matched_commaSeparated Ty.matched_parse)
  exact .bind matched_peek fun _ => .bind matched_keyword fun _ =>
    .bind matched_parseOperands fun uses => .bind (types uses) fun types =>
    .bind (matched_checkOperandTypes uses types) fun _ => .pure _

end Op

theorem Region.matched_parse {op : Parser Op} (h : Matched op) :
    Matched (Region.parse op) := by
  have label (labels : List String) : Matched (parseLabel labels) :=
    matched_ifNext (.bind matched_expect fun t => .bind matched_expect.discard fun _ =>
      .bind (matched_require nofun) fun _ => .pure (some t.lexeme))
  have block (blocks : List Block) : Matched (parseBlock op blocks) :=
    .bind .get fun _ => .bind matched_peek fun _ => .bind (matched_require nofun) fun _ =>
      .bind (label _) fun _ =>
      .bind (matched_repeatUntil (matched_itemTurn h) []) fun _ => .pure _
  refine .bind matched_expect.discard fun _ => .bind (.modify _) fun _ =>
    .bind (matched_repeatUntil block []) fun blocks =>
    .bind matched_expect.discard fun _ => .bind (.modify _) fun _ => ?_
  split
  · exact .throw nofun
  · exact .pure blocks

namespace Op

variable {op : Parser Op}

theorem matched_parseFunc (h : Matched op) (style : FuncStyle) :
    Matched (parseFunc op style) := by
  have argument : Matched parseArgument :=
    .bind matched_expect fun _ => .bind matched_expect.discard fun _ =>
      .bind Ty.matched_parse fun _ => .bind matched_define fun _ => .pure _
  refine .bind matched_peek fun _ => .bind matched_keyword fun _ =>
    .bind matched_expect fun _ => .bind (.modify _) fun _ =>
    .bind matched_expect.discard fun _ => .bind (matched_listUntil argument) fun _ => ?_
  exact .bind (matched_ifNext (.bind matched_expect.discard fun _ =>
      Ty.matched_parseResults)) fun _ =>
    .bind (matched_ifNext ((Region.matched_parse h).map some)) fun _ =>
    .bind (.modify _) fun _ => .pure _

theorem ofName?_eq_some {name : String} {kind : OpKind} (h : OpKind.ofName? name = some kind) :
    name = kind.name := by
  unfold OpKind.ofName? at h
  have hname := List.find?_some h
  exact (beq_iff_eq.1 hname).symm

/-- The kind of the op is the one that was looked up, so its own parser finds its name. -/
theorem matched_parseStep (h : Matched op) : Matched (parseStep op) := by
  intro p
  refine (Matched.get p).bind fun s q hget => ?_
  cases hget
  dsimp only
  cases hkind : OpKind.ofName? (trimQuotes p.peekOpName.lexeme) with
  | none =>
    refine matched_failAt ?_ p
    exact nofun
  | some kind =>
    have hname := ofName?_eq_some hkind
    cases kind with
    | moduleOp =>
      exact Matched.bind matched_peek (fun _ => .bind matched_keyword fun _ =>
        .bind (Region.matched_parse h) fun _ => .pure _) p
    | funcOp style signature => exact matched_parseFunc h style p
    | returnOp => exact matched_parseReturn .returnOp p
    | instr i => exact noMismatch_parseGeneric hname

theorem matched_parseWithin (n : Nat) : Matched (parseWithin n) := by
  induction n with
  | zero => exact .bind matched_peek fun t => matched_failAt nofun
  | succ n ih => exact matched_parseStep ih

theorem matched_parse : Matched parse := fun p => (matched_parseWithin _ p).of_eq rfl

theorem name_of_parse {p q : ParserState} {op : Op} (h : parse p = .ok op q) :
    op.name = trimQuotes p.peekOpName.lexeme := by
  obtain ⟨hderives, -⟩ := denotes_parse.apply_ok h
  obtain ⟨mid, hhead⟩ := hderives.exists_head
  rw [hhead.peekOpName]
  exact hhead.name_eq

/-- The look for the name of an op and the parser of ops agree in every state: result names that are
read end in front of the token that was looked up, reading an op never fails because another
operation was expected, and an op that is read has the name that was looked up. -/
theorem parse_agrees_with_peekOpName :
    (∀ p names q, parseResultNames p = .ok names q → q.peek = p.peekOpName) ∧
      (∀ p e q, parse p = .error e q → ∀ name, e.cause ≠ .wrongOperation name) ∧
      ∀ p op q, parse p = .ok op q → op.name = trimQuotes p.peekOpName.lexeme :=
  ⟨fun _ _ _ h => peek_of_parseResultNames h, matched_parse,
    fun _ _ _ h => name_of_parse h⟩

def callTokens : List Token :=
  [⟨.percentIdentifier, "%a", ⟨0, 0⟩⟩, ⟨.comma, ",", ⟨0, 2⟩⟩, ⟨.percentIdentifier, "%b", ⟨0, 4⟩⟩,
    ⟨.equal, "=", ⟨0, 7⟩⟩, ⟨.string, "\"bril.call\"", ⟨0, 9⟩⟩, ⟨.lparen, "(", ⟨0, 20⟩⟩,
    ⟨.rparen, ")", ⟨0, 21⟩⟩, ⟨.colon, ":", ⟨0, 23⟩⟩, ⟨.lparen, "(", ⟨0, 25⟩⟩,
    ⟨.rparen, ")", ⟨0, 26⟩⟩, ⟨.arrow, "->", ⟨0, 28⟩⟩, ⟨.lparen, "(", ⟨0, 31⟩⟩,
    ⟨.intType, "i1", ⟨0, 32⟩⟩, ⟨.comma, ",", ⟨0, 34⟩⟩, ⟨.intType, "i1", ⟨0, 36⟩⟩,
    ⟨.rparen, ")", ⟨0, 38⟩⟩]

theorem parse_agrees_on_call :
    (∃ names q, parseResultNames (.ofTokens ⟨callTokens, ⟨0, 39⟩⟩) = .ok names q ∧
      q.peek = ⟨.string, "\"bril.call\"", ⟨0, 9⟩⟩) ∧
    ∃ op q, parse (.ofTokens ⟨callTokens, ⟨0, 39⟩⟩) = .ok op q ∧ op.name = "bril.call" := by
  obtain ⟨hnames, -, hparse⟩ := parse_agrees_with_peekOpName
  constructor
  · have hread : ∃ names q, parseResultNames (.ofTokens ⟨callTokens, ⟨0, 39⟩⟩) = .ok names q :=
      ⟨_, _, rfl⟩
    obtain ⟨names, q, h⟩ := hread
    exact ⟨names, q, h, hnames _ _ _ h⟩
  · have hread : (parse (.ofTokens ⟨callTokens, ⟨0, 39⟩⟩) matches .ok ..) = true := by
      decide +kernel
    cases h : parse (.ofTokens ⟨callTokens, ⟨0, 39⟩⟩) with
    | ok op q =>
      refine ⟨op, q, rfl, (hparse _ _ _ h).trans ?_⟩
      decide
    | error e q =>
      rw [h] at hread
      cases hread

end Op

end BrilIR
