import BrilIR.Proofs.Lexical.Scan
import BrilIR.Proofs.Parser.Progress
import BrilIR.Proofs.Source.Reading

/-!
Reading a source always ends. The cursor stays in the tokens whatever is called, and each loop and
each recursion goes on only behind a token.
-/

namespace BrilIR

open BrilIR.Parser

/-- The functions of the parser that take a step. -/
inductive Routine : {α : Type} → Parser α → Prop
  | advance : Routine Parser.advance
  | expect (kind : Token.Kind) : Routine (Parser.expect kind)
  | keyword (word : String) : Routine (Parser.keyword word)
  | pushScope : Routine Parser.pushScope
  | popScope : Routine Parser.popScope
  | define (t : Token) (v : Value) : Routine (Parser.define t v)
  | operand : Routine Op.parseOperand
  | operands : Routine Op.parseOperands
  | operandTypes (uses : List (Token × Value)) (types : List Ty) :
      Routine (Op.checkOperandTypes uses types)
  | resultNames : Routine Op.parseResultNames
  | successors : Routine Op.parseSuccessors
  | type : Routine Ty.parse
  | pointer : Routine Ty.parsePointer
  | types : Routine Ty.parseList
  | resultTypes : Routine Ty.parseResults
  | attributeValue : Routine Attribute.parse
  | attributes : Routine Attributes.parse
  | arguments : Routine (do discard (Parser.expect .lparen); listUntil .rparen Op.parseArgument)
  | region : Routine (Region.parse Op.parse)
  | kind (k : OpKind) : Routine (Op.parseKind Op.parse k)
  | op : Routine Op.parse

/-- The loops that read up to a closing token, with their turns: labels in brackets, types and
parameters in parentheses, entries of dictionaries and blocks of regions in braces. -/
inductive ClosingLoop : {β : Type} → Token.Kind → (β → Parser β) → Prop
  | successors : ClosingLoop .rbracket (entryTurn .rbracket (itemTurn Op.parseSuccessor))
  | types : ClosingLoop .rparen (entryTurn .rparen (itemTurn Ty.parse))
  | arguments : ClosingLoop .rparen (entryTurn .rparen (itemTurn Op.parseArgument))
  | attributes : ClosingLoop .rbrace (entryTurn .rbrace Attributes.parseEntry)
  | blocks : ClosingLoop .rbrace (Region.parseBlock Op.parse)

/-- The loops of the parser: those, lists without a closing token, the ops of a block and those of
the source. -/
inductive ParserLoop : {β : Type} → (ParserState → Bool) → (β → Parser β) → Prop
  | closing {β : Type} {close : Token.Kind} {turn : β → Parser β} (h : ClosingLoop close turn) :
      ParserLoop (·.check close) turn
  | operands : ParserLoop (!·.check .comma) (commaTurn Op.parseOperand)
  | resultNames : ParserLoop (!·.check .comma) (commaTurn (Parser.expect .percentIdentifier))
  | returnTypes : ParserLoop (!·.check .comma) (commaTurn Ty.parse)
  | block : ParserLoop Region.blockEnds (itemTurn Op.parse)
  | source : ParserLoop (·.isAtEnd) (itemTurn Op.parse)

variable {α β : Type}

theorem Routine.forward {x : Parser α} (h : Routine x) : Forward 0 x := by
  cases h with
  | advance => exact forward_advance
  | expect kind => exact forward_expect.weaken
  | keyword word => exact forward_keyword.weaken
  | pushScope => exact forward_pushScope
  | popScope => exact forward_popScope
  | define t v => exact forward_define
  | operand => exact Op.forward_parseOperand.weaken
  | operands => exact Op.forward_parseOperands
  | operandTypes uses types => exact Op.forward_checkOperandTypes uses types
  | resultNames => exact Op.forward_parseResultNames
  | successors => exact Op.forward_parseSuccessors.weaken
  | type => exact Ty.forward_parse.weaken
  | pointer => exact (Ty.forward_pointerRest Ty.forward_parse.weaken).weaken
  | types => exact Ty.forward_parseList.weaken
  | resultTypes => exact Ty.forward_parseResults.weaken
  | attributeValue => exact Attribute.forward_parse.weaken
  | attributes => exact Attributes.forward_parse.weaken
  | arguments =>
    exact .bind forward_expect.weaken.discard fun _ =>
      (forward_listUntil Op.forward_parseArgument.weaken).weaken
  | region => exact (Region.forward_parse Op.forward_parse.weaken).weaken
  | kind k => exact (Op.forward_parseKind Op.forward_parse.weaken k).weaken
  | op => exact Op.forward_parse.weaken

theorem ClosingLoop.spends {close : Token.Kind} {turn : β → Parser β} (h : ClosingLoop close turn) :
    Spends (·.check close) turn := by
  cases h with
  | successors =>
    exact fun b p _ => forward_entryTurn (forward_itemTurn Op.forward_parseSuccessor) b p
  | types => exact fun b p _ => forward_entryTurn (forward_itemTurn Ty.forward_parse) b p
  | arguments =>
    exact fun b p _ => forward_entryTurn (forward_itemTurn Op.forward_parseArgument) b p
  | attributes => exact fun b p _ => forward_entryTurn Attributes.forward_parseEntry b p
  | blocks => exact Region.spends_parseBlock Op.forward_parse

theorem ParserLoop.spends {stop : ParserState → Bool} {turn : β → Parser β}
    (h : ParserLoop stop turn) : Spends stop turn := by
  cases h with
  | closing h => exact h.spends
  | operands => exact fun b p _ => forward_commaTurn Op.forward_parseOperand b p
  | resultNames => exact fun b p _ => forward_commaTurn forward_expect b p
  | returnTypes => exact fun b p _ => forward_commaTurn Ty.forward_parse b p
  | block => exact fun b p _ => forward_itemTurn Op.forward_parse b p
  | source => exact fun b p _ => forward_itemTurn Op.forward_parse b p

namespace Parser

def after (x : Parser α) (p : ParserState) : ParserState :=
  match x p with
  | .ok _ q => q
  | .error _ q => q

theorem Forward.at_after {x : Parser α} {p : ParserState} {s : TokenStream} {n : Nat}
    (h : Forward 0 x) (hp : p.At s n) : ∃ m, n ≤ m ∧ (after x p).At s m := by
  unfold after
  split
  · next e => exact (h p).ok hp e
  · next e => exact (h p).error hp e

theorem Forward.at_beyond {x : Parser α} {p q : ParserState} {s : TokenStream} {n : Nat} {a : α}
    (h : Forward 1 x) (hp : p.At s n) (e : x p = .ok a q) : ∃ m, n < m ∧ q.At s m :=
  (h p).ok hp e

end Parser

namespace ParserState

/-- The states in which the parser of a source can be: from the beginning its functions have been
called one after another, each with success or without. -/
inductive Reachable (s : TokenStream) : ParserState → Prop
  | start : Reachable s (ofTokens s)
  | call {α : Type} {x : Parser α} {p : ParserState} :
      Routine x → Reachable s p → Reachable s (after x p)

theorem Reachable.exists_at {s : TokenStream} {p : ParserState} (h : Reachable s p) :
    ∃ n, p.At s n := by
  induction h with
  | start => exact ⟨0, at_ofTokens s⟩
  | call hx _ ih =>
    obtain ⟨n, hp⟩ := ih
    obtain ⟨m, -, hq⟩ := hx.forward.at_after hp
    exact ⟨m, hq⟩

theorem At.peek_eof_iff {source : String} {s : TokenStream} {p : ParserState} {n : Nat}
    (hs : TokenStream.scan source = .ok s) (h : p.At s n) :
    p.peek.kind = .eof ↔ n = s.tokens.length := by
  rw [← h.isAtEnd_iff, isAtEnd, List.isEmpty_iff, peek, ParserState.peekAt]
  cases ha : p.ahead with
  | nil => simp [Token.atEnd]
  | cons t ts =>
    have hmem : t ∈ s.tokens := by
      have hsuffix : p.ahead <:+ s.tokens := h.ahead ▸ List.drop_suffix n s.tokens
      exact hsuffix.subset (by simp [ha])
    have hlexeme := TokenStream.lexeme_of_scan hs t hmem
    have hk : t.kind ≠ .eof := by
      intro hk
      rw [hk] at hlexeme
      exact hlexeme
    simp [hk]

/-- What the parser of a source can rely on where its cursor stands behind `n` tokens. -/
structure Safe (s : TokenStream) (n : Nat) (p : ParserState) : Prop where
  cursor : p.At s n
  /-- A look ahead, however far, is at a token of the source. -/
  peekAt : ∀ k, s.toList[min (n + k) (s.toList.length - 1)]? = some (p.peekAt k)
  peekOpName : ∃ k ≤ p.ahead.length, p.peekOpName = p.peekAt k
  eof : p.peek.kind = .eof ↔ n = s.tokens.length
  /-- Whether it succeeds or fails, no function moves the cursor back or over the end. -/
  step : ∀ {α : Type} {x : Parser α}, Routine x → ∃ m, n ≤ m ∧ (after x p).At s m
  op : ∀ {op q}, Op.parse p = .ok op q → ∃ m, n < m ∧ q.At s m
  type : ∀ {t q}, Ty.parse p = .ok t q → ∃ m, n < m ∧ q.At s m
  attributeValue : ∀ {a q}, Attribute.parse p = .ok a q → ∃ m, n < m ∧ q.At s m

theorem Reachable.exists_safe {source : String} {s : TokenStream} {p : ParserState}
    (hs : TokenStream.scan source = .ok s) (h : Reachable s p) : ∃ n, p.Safe s n := by
  obtain ⟨n, hn⟩ := h.exists_at
  refine ⟨n, hn, hn.peekAt, p.exists_peekOpName, hn.peek_eof_iff hs, ?_, ?_, ?_, ?_⟩
  · exact fun hx => hx.forward.at_after hn
  · exact Op.forward_parse.at_beyond hn
  · exact Ty.forward_parse.at_beyond hn
  · exact Attribute.forward_parse.at_beyond hn

end ParserState

namespace Op

open ParserState

/-- Reading a source that has been cut into tokens comes to an end. In each state that its parser
can be in, the cursor is in the tokens and so is all that is looked at. Types and ops are read by
recursions, and all else by loops, that end without a bound; those up to a closing token fail where
the source ends first. The loop for the ops of the source begins in front of the tokens. -/
theorem ofSource_ends {source : String} {s : TokenStream} (hs : TokenStream.scan source = .ok s) :
    (∀ p, Reachable s p → ∃ n, p.Safe s n) ∧
    Recursion Ty.parseStep Ty.parse ∧ Recursion Op.parseStep Op.parse ∧
    (∀ {β : Type} {stop : ParserState → Bool} {turn : β → Parser β}, ParserLoop stop turn →
      ∀ b p, Ends stop turn b p (repeatUntil stop turn b p)) ∧
    (∀ {β : Type} {close : Token.Kind} {turn : β → Parser β}, ClosingLoop close turn →
      Closes close turn) ∧
    Ends (·.isAtEnd) (itemTurn Op.parse) [] (ofTokens s) (parseAll (ofTokens s)) ∧
    ((∃ op, ofSource source = .ok op) ∨ ∃ e, ofSource source = .error (.grammatical e)) := by
  refine ⟨fun p hp => hp.exists_safe hs, Ty.recursion_parse, recursion_parse,
    fun h => h.spends.ends, fun h => h.spends.closes, ParserLoop.source.spends.ends [] _, ?_⟩
  simp only [ofSource, readAll, hs]
  cases parseAll (ofTokens s) with
  | ok ops q => exact .inl ⟨ofTopLevel ops, rfl⟩
  | error e q => exact .inr ⟨e, rfl⟩

def openModule : String := "module \x7b"

theorem ofSource_ends_openModule : ∃ s, TokenStream.scan openModule = .ok s ∧
    (∀ p, Reachable s p → ∃ n, p.Safe s n) ∧
    Recursion Ty.parseStep Ty.parse ∧ Recursion Op.parseStep Op.parse ∧
    (∀ {β : Type} {stop : ParserState → Bool} {turn : β → Parser β}, ParserLoop stop turn →
      ∀ b p, Ends stop turn b p (repeatUntil stop turn b p)) ∧
    (∀ {β : Type} {close : Token.Kind} {turn : β → Parser β}, ClosingLoop close turn →
      Closes close turn) ∧
    Ends (·.isAtEnd) (itemTurn Op.parse) [] (ofTokens s) (parseAll (ofTokens s)) ∧
    ((∃ op, ofSource openModule = .ok op) ∨
      ∃ e, ofSource openModule = .error (.grammatical e)) := by
  obtain ⟨s, hs, -⟩ : ∃ s, TokenStream.scan openModule = .ok s ∧ (s.tokens.length == 2) = true :=
    exists_ok_of_test (by decide +kernel)
  exact ⟨s, hs, ofSource_ends hs⟩

end Op

end BrilIR
