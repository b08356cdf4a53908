import BrilIR.Op.Parser
import BrilIR.Proofs.Parser.Ending

/-!
How far each parser goes. Types, attributes and ops go over a token, so the loops and the recursion
that read them end.
-/

namespace BrilIR

open BrilIR.Parser

namespace Ty

theorem forward_ofToken {type : Except TyTextError Ty} : Forward 0 (ofToken type) := by
  unfold ofToken
  split
  · exact .pure _
  · exact forward_failBare

theorem forward_pointerRest {type : Parser Ty} (h : Forward 0 type) :
    Forward 1 (pointerRest type) :=
  .bind forward_expect.discard fun _ => .bind h fun pointee =>
    .bind forward_expect.weaken.discard fun _ => .pure (Ty.ptr pointee)

theorem forward_parseStep {type : Parser Ty} (h : Forward 0 type) : Forward 1 (parseStep type) := by
  refine .skip forward_peek fun t => ?_
  split
  · exact .bind forward_expect fun _ => forward_ofToken
  · exact .bind forward_expect fun _ => forward_ofToken
  · exact .bind forward_expect.discard fun _ => .bind forward_expect.weaken fun _ =>
      .ite (forward_pointerRest h).weaken forward_failAt
  · exact forward_failAt

theorem forward_parseWithin (n : Nat) : Forward 1 (parseWithin n) := by
  induction n with
  | zero => exact .skip forward_peek fun t => forward_failAt
  | succ n ih => exact forward_parseStep ih.weaken

theorem forward_parse : Forward 1 parse := fun p => (forward_parseWithin _ p).of_eq rfl

theorem forward_parseList : Forward 1 parseList :=
  .bind forward_expect.discard fun _ => (forward_listUntil forward_parse.weaken).weaken

theorem forward_parseResults : Forward 1 parseResults :=
  .skip forward_check fun _ => .ite forward_parseList (.bind forward_parse fun t => .pure [t])

/-- A type is read for a pointer only behind the mark of the pointer. -/
theorem descends_parseStep : Descends parseStep := by
  intro type type' p _ h
  refine bind_congr rfl fun t q ht => ?_
  have hq := (forward_peek p).length_le ht
  cases t.kind with
  | exclamation =>
    refine bind_congr rfl fun _ q₁ h₁ => bind_congr rfl fun name q₂ h₂ => ?_
    have hq₁ := (forward_expect.discard q).length_le h₁
    have hq₂ := (forward_expect q₁).length_le h₂
    split
    · refine bind_congr rfl fun _ q₃ h₃ => bind_congr (h q₃ ?_) fun _ _ _ => rfl
      have hq₃ := (forward_expect.discard q₂).length_le h₃
      omega
    · rfl
  | _ => rfl

theorem parseWithin_zero (type : Parser Ty) {p : ParserState} (h : p.ahead = []) :
    parseWithin 0 p = parseStep type p := by
  have hrun : peek p = .ok (.atEnd p.stop) p := by
    rw [← ParserState.peek_of_nil h]
    rfl
  unfold parseStep parseWithin
  rw [bind_apply, bind_apply, hrun]
  rfl

theorem recursion_parse : Recursion parseStep parse :=
  descends_parseStep.recursion (fun type _ => parseWithin_zero type) (fun _ => rfl)
    fun n => (forward_parseWithin n).weaken

end Ty

namespace Attribute

theorem forward_parseTyped {number : Ty → Attribute} : Forward 1 (parseTyped number) :=
  .bind forward_expect.discard fun _ => .bind Ty.forward_parse.weaken fun t => .pure (number t)

theorem forward_parseNumber {negative : Bool} {t : Token} : Forward 1 (parseNumber negative t) := by
  unfold parseNumber
  generalize (if negative = true then "-" else "") = sign
  dsimp only
  split
  · split
    · exact forward_failAt
    · exact forward_parseTyped
  · split
    · exact forward_failBare
    · exact forward_parseTyped
  · exact forward_failAt

theorem forward_parseNegative : Forward 1 parseNegative :=
  .bind forward_expect.discard fun _ => .bind forward_advance fun _ => forward_parseNumber.weaken

theorem forward_parse : Forward 1 parse := by
  refine .skip forward_peek fun t => ?_
  split
  · exact forward_parseNegative
  · exact .bind forward_expect fun _ => forward_parseNumber.weaken
  · exact .bind forward_expect fun _ => forward_parseNumber.weaken
  · exact .bind forward_expect.discard fun _ => .pure _
  · exact .bind forward_expect.discard fun _ => .pure _
  · exact .bind forward_expect fun _ => .pure _
  · exact .bind forward_expect fun _ => .pure _
  · exact .bind Ty.forward_parse fun _ => .pure _
  · exact .bind Ty.forward_parse fun _ => .pure _
  · exact .bind Ty.forward_parse fun _ => .pure _
  · exact forward_failAt

end Attribute

namespace Attributes

theorem forward_parseEntry (d : Attributes) : Forward 1 (parseEntry d) :=
  .bind forward_expect fun key => .bind forward_require fun _ =>
    .bind forward_expect.weaken.discard fun _ => .bind Attribute.forward_parse.weaken fun a =>
    .pure (d.insert key.lexeme a)

theorem forward_parse : Forward 1 parse :=
  .bind forward_expect.discard fun _ =>
    (forward_entriesUntil (fun d => (forward_parseEntry d).weaken) ∅).weaken

end Attributes

namespace Op

theorem forward_parseOperand : Forward 1 parseOperand := by
  refine .bind forward_expect fun t => .bind .get fun p => ?_
  split
  · exact .pure _
  · exact forward_failAt

theorem forward_parseOperands : Forward 0 parseOperands :=
  forward_ifNext (forward_commaSeparated forward_parseOperand.weaken)

theorem forward_checkOperandTypes (uses : List (Token × Value)) (types : List Ty) :
    Forward 0 (checkOperandTypes uses types) := by
  refine .bind .get fun p => .bind forward_require fun _ => ?_
  split
  · exact forward_failAt
  · exact .pure _

theorem forward_parseResultNames : Forward 0 parseResultNames :=
  forward_ifNext (.bind (forward_commaSeparated forward_expect.weaken) fun names =>
    .bind forward_expect.weaken.discard fun _ => .pure names)

def parseSuccessor : Parser String := do
  return (← expect .caretIdentifier).lexeme

theorem forward_parseSuccessor : Forward 1 parseSuccessor :=
  .bind forward_expect fun t => .pure t.lexeme

theorem parseSuccessors_eq : parseSuccessors = (do
    discard (expect .lbracket)
    listUntil .rbracket parseSuccessor) := rfl

theorem forward_parseSuccessors : Forward 1 parseSuccessors := by
  rw [parseSuccessors_eq]
  exact .bind forward_expect.discard fun _ =>
    (forward_listUntil forward_parseSuccessor.weaken).weaken

theorem forward_defineResults (names : List Token) (types : List Ty) :
    Forward 0 (defineResults names types) := by
  induction names generalizing types with
  | nil => exact .pure []
  | cons t names ih =>
    cases types with
    | nil => exact .pure []
    | cons type types =>
      exact .bind forward_define fun _ => .bind (ih types) fun vs => .pure (_ :: vs)

theorem forward_parseGeneric (kind : OpKind) : Forward 1 (parseGeneric kind) := by
  refine .skip forward_peek fun first => .skip forward_parseResultNames fun names =>
    .bind forward_expect fun name => .bind forward_require fun _ => ?_
  refine .bind (.modify (fun _ => rfl) (fun _ => rfl) fun _ => rfl) fun _ =>
    .bind forward_expect.weaken.discard fun _ => .bind forward_parseOperands fun uses =>
    .bind forward_expect.weaken.discard fun _ => ?_
  refine .bind (forward_ifNext forward_parseSuccessors.weaken) fun successors =>
    .bind (forward_ifNext Attributes.forward_parse.weaken) fun attributes =>
    .bind forward_expect.weaken.discard fun _ => .bind Ty.forward_parseList.weaken fun types =>
    .bind (forward_checkOperandTypes uses types) fun operands => ?_
  exact .bind forward_expect.weaken.discard fun _ => .bind Ty.forward_parseResults.weaken fun _ =>
    .bind forward_require fun _ => .bind (forward_defineResults names _) fun results => .pure _

theorem forward_parseReturnTypes (uses : List (Token × Value)) :
    Forward 0 (parseReturnTypes uses) :=
  .ite (.pure []) (.bind forward_expect.weaken.discard fun _ =>
    forward_commaSeparated Ty.forward_parse.weaken)

theorem forward_parseReturn (kind : OpKind) : Forward 1 (parseReturn kind) :=
  .skip forward_peek fun _ => .bind forward_keyword fun _ => .bind forward_parseOperands fun uses =>
    .bind (forward_parseReturnTypes uses) fun types =>
    .bind (forward_checkOperandTypes uses types) fun _ => .pure _

end Op

namespace Region

variable {op : Parser Op}

theorem forward_parseLabel (labels : List String) : Forward 0 (parseLabel labels) :=
  forward_ifNext (.bind forward_expect.weaken fun t => .bind forward_expect.weaken.discard fun _ =>
    .bind forward_require fun _ => .pure (some t.lexeme))

theorem advances_parseLabel (labels : List String) {p : ParserState}
    (hp : p.check .caretIdentifier = true) : Advances 1 (parseLabel labels) p :=
  advances_ifNext (.bind forward_expect fun t => .bind forward_expect.weaken.discard fun _ =>
    .bind forward_require fun _ => .pure (some t.lexeme)) hp

theorem spends_ops (h : Forward 1 op) (stop : ParserState → Bool) : Spends stop (itemTurn op) :=
  fun ops p _ => forward_itemTurn h ops p

theorem forward_parseBlock (h : Forward 0 op) (blocks : List Block) :
    Forward 0 (parseBlock op blocks) :=
  .bind .get fun _ => .bind forward_peek fun _ => .bind forward_require fun _ =>
    .bind (forward_parseLabel _) fun _ =>
    .bind (forward_repeatUntil (forward_itemTurn h) []) fun _ => .pure _

theorem spends_parseBlock (h : Forward 1 op) : Spends (·.check .rbrace) (parseBlock op) := by
  intro blocks p hp
  refine (forward_parseBlock h.weaken blocks p).strict fun blocks' q e => ?_
  obtain ⟨_, _, hget, e⟩ := bind_ok.1 e
  cases hget
  obtain ⟨_, _, hpeek, e⟩ := bind_ok.1 e
  cases hpeek
  obtain ⟨_, mid, hrequire, e⟩ := bind_ok.1 e
  obtain ⟨label, q₁, hlabel, e⟩ := bind_ok.1 e
  obtain ⟨ops, q₂, hops, e⟩ := bind_ok.1 e
  cases e
  -- a block that is not the end of the region has a label or an op
  by_cases hend : p.isAtEnd = false
  · rw [require, if_pos hend] at hrequire
    cases hrequire
    have hlabelled := (forward_parseLabel _ p).length_le hlabel
    have hafter := (forward_repeatUntil (forward_itemTurn h.weaken) [] q₁).length_le hops
    cases hc : p.check .caretIdentifier with
    | true =>
      have := (advances_parseLabel _ hc).length_le hlabel
      omega
    | false =>
      rw [parseLabel, ifNext_of_not_check hc] at hlabel
      cases hlabel
      have hopen : blockEnds p = false := by simp [blockEnds, hp, hc, hend]
      exact (spends_ops h blockEnds).length_lt hopen hops
  · rw [require, if_neg hend] at hrequire
    cases hrequire

theorem forward_parse (h : Forward 0 op) : Forward 1 (Region.parse op) := by
  refine .bind forward_expect.discard fun _ => .bind forward_pushScope fun _ =>
    .bind (forward_repeatUntil (forward_parseBlock h) []) fun blocks =>
    .bind forward_expect.weaken.discard fun _ => .bind forward_popScope fun _ => ?_
  split
  · exact .throw _
  · exact .pure blocks

/-- Ops are read for a region only behind its opening brace. -/
theorem parse_congr {op' : Parser Op} {p : ParserState} (hop : Forward 0 op)
    (h : ∀ q : ParserState, q.ahead.length < p.ahead.length → op q = op' q) :
    Region.parse op p = Region.parse op' p := by
  have block (blocks : List Block) (q : ParserState) (hq : q.ahead.length < p.ahead.length) :
      parseBlock op blocks q = parseBlock op' blocks q := by
    refine bind_congr rfl fun _ q₁ h₁ => bind_congr rfl fun _ q₂ h₂ => bind_congr rfl fun _ q₃ h₃ =>
      bind_congr rfl fun label q₄ h₄ => bind_congr ?_ fun _ _ _ => rfl
    have hq₁ := (Forward.get q).length_le h₁
    have hq₂ := (forward_peek q₁).length_le h₂
    have hq₃ := (forward_require q₂).length_le h₃
    have hq₄ := (forward_parseLabel _ q₃).length_le h₄
    refine repeatUntil_congr (forward_itemTurn hop) (fun ops r hr => ?_) [] (n := p.ahead.length)
      (by omega)
    exact bind_congr (h r hr) fun _ _ _ => rfl
  refine bind_congr rfl fun _ q₁ h₁ => bind_congr rfl fun _ q₂ h₂ => bind_congr ?_ fun _ _ _ => rfl
  have hq₁ := (forward_expect.discard p).length_le h₁
  have hq₂ := (forward_pushScope q₁).length_le h₂
  exact repeatUntil_congr (forward_parseBlock hop) block [] (by omega)

end Region

namespace Op

variable {op op' : Parser Op}

theorem forward_parseModule (h : Forward 0 op) : Forward 1 (parseModule op) :=
  .skip forward_peek fun _ => .bind forward_keyword fun _ =>
    .bind (Region.forward_parse h).weaken fun _ => .pure _

theorem forward_parseArgument : Forward 1 parseArgument :=
  .bind forward_expect fun _ => .bind forward_expect.weaken.discard fun _ =>
    .bind Ty.forward_parse.weaken fun _ => .bind forward_define fun _ => .pure _

theorem forward_arrowTypes : Forward 0 (ifNext .arrow (do
    discard (expect .arrow)
    Ty.parseResults) []) :=
  forward_ifNext (.bind forward_expect.weaken.discard fun _ => Ty.forward_parseResults.weaken)

theorem forward_parseFunc (h : Forward 0 op) (style : FuncStyle) :
    Forward 1 (parseFunc op style) := by
  refine .skip forward_peek fun _ => .bind forward_keyword fun _ =>
    .bind forward_expect.weaken fun _ => .bind forward_pushScope fun _ =>
    .bind forward_expect.weaken.discard fun _ => ?_
  refine .bind (forward_listUntil forward_parseArgument.weaken).weaken fun _ =>
    .bind forward_arrowTypes fun _ => ?_
  exact .bind (forward_ifNext ((Region.forward_parse h).weaken.map some)) fun _ =>
    .bind forward_popScope fun _ => .pure _

theorem forward_parseKind (h : Forward 0 op) (kind : OpKind) : Forward 1 (parseKind op kind) := by
  cases kind with
  | moduleOp => exact forward_parseModule h
  | funcOp style _ => exact forward_parseFunc h style
  | returnOp => exact forward_parseReturn .returnOp
  | instr i => exact forward_parseGeneric (.instr i)

theorem forward_parseStep (h : Forward 0 op) : Forward 1 (parseStep op) := by
  refine .skip .get fun p => ?_
  dsimp only
  split
  · exact forward_parseKind h _
  · exact forward_failAt

theorem forward_parseWithin (n : Nat) : Forward 1 (parseWithin n) := by
  induction n with
  | zero => exact .skip forward_peek fun t => forward_failAt
  | succ n ih => exact forward_parseStep ih.weaken

theorem forward_parse : Forward 1 parse := fun p => (forward_parseWithin _ p).of_eq rfl

theorem parseKind_congr {kind : OpKind} {p : ParserState} (hop : Forward 0 op)
    (h : ∀ q : ParserState, q.ahead.length < p.ahead.length → op q = op' q) :
    parseKind op kind p = parseKind op' kind p := by
  -- A region that begins no earlier than the op is read alike.
  have region {q : ParserState} (hq : q.ahead.length ≤ p.ahead.length) :
      Region.parse op q = Region.parse op' q :=
    Region.parse_congr hop fun r hr => h r (Nat.lt_of_lt_of_le hr hq)
  cases kind with
  | moduleOp =>
    refine bind_congr rfl fun _ q₁ h₁ => bind_congr rfl fun _ q₂ h₂ => ?_
    have hq₁ := (forward_peek p).length_le h₁
    have hq₂ := (forward_keyword q₁).length_le h₂
    exact bind_congr (region (by omega)) fun _ _ _ => rfl
  | funcOp style signature =>
    refine bind_congr rfl fun _ q₁ h₁ => bind_congr rfl fun _ q₂ h₂ => bind_congr rfl fun _ q₃ h₃ =>
      bind_congr rfl fun _ q₄ h₄ => bind_congr rfl fun _ q₅ h₅ => ?_
    have hq₁ := (forward_peek p).length_le h₁
    have hq₂ := (forward_keyword q₁).length_le h₂
    have hq₃ := (forward_expect q₂).length_le h₃
    have hq₄ := (forward_pushScope q₃).length_le h₄
    have hq₅ := (forward_expect.discard q₄).length_le h₅
    refine bind_congr rfl fun _ q₆ h₆ => bind_congr rfl fun _ q₇ h₇ =>
      bind_congr (bind_congr rfl fun _ q₈ h₈ => ?_) fun _ _ _ => rfl
    have hq₆ := (forward_listUntil forward_parseArgument.weaken q₅).length_le h₆
    have hq₇ := (forward_arrowTypes q₆).length_le h₇
    have hq₈ := (forward_check q₇).length_le h₈
    split
    · rw [map_eq_pure_bind, map_eq_pure_bind]
      exact bind_congr (region (by omega)) fun _ _ _ => rfl
    · rfl
  | returnOp => rfl
  | instr i => rfl

theorem descends_parseStep : Descends parseStep := by
  intro op op' p hop h
  refine bind_congr rfl fun s q hget => ?_
  cases hget
  dsimp only
  cases OpKind.ofName? (trimQuotes p.peekOpName.lexeme) with
  | some kind => exact parseKind_congr hop h
  | none => rfl

theorem parseWithin_zero (op : Parser Op) {p : ParserState} (h : p.ahead = []) :
    parseWithin 0 p = parseStep op p := by
  have hpeek := ParserState.peek_of_nil h
  have hname : p.peekOpName = .atEnd p.stop := by
    simp [ParserState.peekOpName, ParserState.check, h, hpeek]
  have hempty : OpKind.ofName? (trimQuotes (Token.atEnd p.stop).lexeme) = none := by
    show OpKind.ofName? (trimQuotes "") = none
    decide
  have hget : (get : Parser ParserState) p = .ok p p := rfl
  show failAt p.peek (.unknownOperation (trimQuotes p.peek.lexeme)) p = _
  rw [parseStep, bind_apply, hget, hpeek]
  simp only [hname, hempty]

theorem recursion_parse : Recursion parseStep parse :=
  descends_parseStep.recursion (fun op _ => parseWithin_zero op) (fun _ => rfl)
    fun n => (forward_parseWithin n).weaken

end Op

end BrilIR
