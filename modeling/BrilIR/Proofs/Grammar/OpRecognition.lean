import BrilIR.Proofs.Grammar.Recognition

/-!
Ops up to their regions are recognized by their productions. What a form looks for ahead is regained
from the tokens that may stand behind it.
-/

namespace BrilIR

open Token BrilIR.Parser Production

section

variable {α : Type} {G : List Token → α → List Token → Prop} {l : Language Token} {absent : α}
  {kind : Kind} {ts rest : List Token} {a : α}

theorem before_of_ifNext (h : IfNext kind G absent ts a rest)
    (hG : G ts a rest → Before l ts rest) : Before (optional (a = absent) l) ts rest := by
  cases h with
  | inl h => exact before_optional.2 (.inr (hG h.2))
  | inr h => exact before_optional.2 (.inl h.2)

theorem ifNext_of_before (h : Before (optional (a = absent) l) ts rest)
    (hG : Before l ts rest → StartsWith kind ts ∧ G ts a rest) (hr : ¬ StartsWith kind rest) :
    IfNext kind G absent ts a rest := by
  cases before_optional.1 h with
  | inl h =>
    obtain ⟨ha, rfl⟩ := h
    exact .inr ⟨hr, ha, rfl⟩
  | inr h => exact .inl (hG h)

end

/-! Names in quotes. -/

theorem mem_trimQuotes {s : String} {c : Char} (hc : c ≠ '"') (h : c ∈ s.toList) :
    c ∈ (trimQuotes s).toList := by
  have drop {cs : List Char} (h : c ∈ cs) : c ∈ cs.dropWhile (· == '"') := by
    rw [← List.takeWhile_append_dropWhile (p := (· == '"')) (l := cs), List.mem_append] at h
    cases h with
    | inl h =>
      have hq := List.all_eq_true.1 List.all_takeWhile c h
      exact absurd (beq_iff_eq.1 hq) hc
    | inr h => exact h
  rw [trimQuotes, String.toList_ofList, List.mem_reverse]
  exact drop (List.mem_reverse.2 (drop h))

theorem backslash_of_quote {body : List Char} (h : isStringBody body = true) (hq : '"' ∈ body) :
    '\\' ∈ body := by
  induction body using isStringBody.induct with
  | case1 => simp at hq
  | case2 c cs hc =>
    obtain ⟨h₁, h₂⟩ := isStringBody_head h
    exact absurd hc (by simp [h₁, h₂])
  | case3 => simp
  | case4 d cs _ ih => simp
  | case5 c cs _ hb ih =>
    obtain ⟨h₁, h₂⟩ := isStringBody_head h
    rw [isStringBody_plain h₁ h₂ hb] at h
    have hmem : '"' ∈ cs := by simpa [Ne.symm h₁] using hq
    exact List.mem_cons_of_mem c (ih h hmem)

/-- A string whose quotes are trimmed to a name without backslashes is the name in quotes. -/
theorem eq_quoted {w name : String} (h : Lexeme .string w.toList) (ht : trimQuotes w = name)
    (hn : '\\' ∉ name.toList) : w = "\"" ++ name ++ "\"" := by
  obtain ⟨body, e, hb⟩ := h
  have hw : w = "\"" ++ String.ofList body ++ "\"" := by
    rw [← String.toList_inj, e]
    simp
  have hslash : '\\' ∉ body := by
    intro hmem
    apply hn
    rw [← ht]
    exact mem_trimQuotes (by decide) (by simp [e, hmem])
  have hc : IsContent (String.ofList body) := by
    constructor
    · simpa using hb
    · intro hl
      rw [String.toList_ofList] at hl
      exact hslash (backslash_of_quote hb (List.mem_of_getLast? hl))
  rw [hw, hc.trimQuotes] at ht
  rw [hw, ht]

theorem Instr.backslash_notMem_name (i : Instr) : '\\' ∉ i.name.toList := by
  cases i <;> decide

/-! Forms of ops. -/

namespace Op

variable {ts rest : List Token} {o : Operation}

theorem before_names {ws : List String} (h : CommaList (Word .percentIdentifier) ts ws rest)
    (hl : Lexical ts) : Before (separated (ws.map (word .percentIdentifier))) ts rest :=
  Separated.before (recognizes_word .percentIdentifier).sound h hl

theorem names_of_before {ws : List String}
    (h : Before (separated (ws.map (word .percentIdentifier))) ts rest)
    (hc : ¬ StartsWith .comma rest) :
    StartsWith .percentIdentifier ts ∧ CommaList (Word .percentIdentifier) ts ws rest := by
  have hs := commaList_of_before (recognizes_word .percentIdentifier).complete h hc
  exact ⟨Separated.startsWith Word.startsWith hs, hs⟩

/-! The parts of a form that can be missing. -/

theorem before_resultNames {vs : List Value} (h : ReadsResultNames ts (vs.map Value.name) rest)
    (hl : Lexical ts) :
    Before (optional (vs = []) (Operation.nameTokens vs * mark .equal)) ts rest := by
  rw [← List.map_eq_nil_iff (f := Value.name)]
  apply before_of_ifNext h
  intro h
  obtain ⟨mid, hw, hm⟩ := h
  exact (before_names hw hl).mul (before_mark.2 hm)

theorem resultNames_of_before {vs : List Value}
    (h : Before (optional (vs = []) (Operation.nameTokens vs * mark .equal)) ts rest)
    (hr : ¬ StartsWith .percentIdentifier rest) : ReadsResultNames ts (vs.map Value.name) rest := by
  rw [← List.map_eq_nil_iff (f := Value.name)] at h
  apply ifNext_of_before h _ hr
  intro h
  obtain ⟨mid, hw, hm⟩ := before_mul.1 h
  have hm := before_mark.1 hm
  obtain ⟨hp, hw⟩ := names_of_before hw (hm.startsWith.not (by decide))
  exact ⟨hp, mid, hw, hm⟩

theorem before_operandNames {vs : List Value} (h : ReadsNames ts (vs.map Value.name) rest)
    (hl : Lexical ts) : Before (optional (vs = []) (Operation.nameTokens vs)) ts rest := by
  rw [← List.map_eq_nil_iff (f := Value.name)]
  exact before_of_ifNext h fun h => before_names h hl

theorem operandNames_of_before {vs : List Value}
    (h : Before (optional (vs = []) (Operation.nameTokens vs)) ts rest)
    (hr : StartsWith .rparen rest) : ReadsNames ts (vs.map Value.name) rest := by
  rw [← List.map_eq_nil_iff (f := Value.name)] at h
  apply ifNext_of_before h _ (hr.not (by decide))
  intro h
  exact names_of_before h (hr.not (by decide))

theorem before_successors {labels : List String} (h : ReadsSuccessors ts labels rest)
    (hl : Lexical ts) :
    Before (optional (labels = []) (Operation.successorTokens labels)) ts rest := by
  apply before_of_ifNext h
  intro h
  obtain ⟨mid, hm, h⟩ := h
  have list := (recognizes_word .caretIdentifier).listOf .rbracket
  exact (before_mark.2 hm).mul (list.sound (hl.mono hm.beyond.suffix) h)

theorem successors_of_before {labels : List String}
    (h : Before (optional (labels = []) (Operation.successorTokens labels)) ts rest)
    (hr : ¬ StartsWith .lbracket rest) : ReadsSuccessors ts labels rest := by
  apply ifNext_of_before h _ hr
  intro h
  obtain ⟨mid, hm, h⟩ := before_mul.1 h
  have hm := before_mark.1 hm
  have list := (recognizes_word .caretIdentifier).listOf .rbracket
  exact ⟨hm.startsWith, mid, hm, list.complete h⟩

theorem attributes_of_before {d : Attributes} (h : Before (optional (d = ∅) d.tokens) ts rest)
    (hr : StartsWith .colon rest) : IfNext .lbrace Attributes.Reads ∅ ts d rest := by
  apply ifNext_of_before h _ (hr.not (by decide))
  intro h
  have hd := Attributes.recognizes_tokens.complete h
  obtain ⟨es, ⟨mid, hm, -⟩, -⟩ := id hd
  exact ⟨hm.startsWith, hd⟩

/-! Forms. -/

theorem before_generic {i : Instr} (h : ReadsGeneric i.name ts o rest) (hl : Lexical ts) :
    Before (o.genericTokens i.name) ts rest := by
  obtain ⟨quoted, ts₁, ts₂, ts₃, ts₄, ts₅, ts₆, ts₇, ts₈, ts₉, hn, hk, hq, hlp, hu, hrp, hs, ha,
    hc, ht, har, hrt⟩ := h
  have results := before_resultNames hn hl
  have l₁ : Lexical (quoted :: ts₁) := hl.mono results.suffix
  have name : Before (word .string ("\"" ++ i.name ++ "\"")) (quoted :: ts₁) ts₁ := by
    have hw : Lexeme .string quoted.lexeme.toList := hk ▸ l₁ quoted (by simp)
    exact before_word.2 ⟨quoted, rfl, hk, eq_quoted hw hq i.backslash_notMem_name⟩
  have l₂ : Lexical ts₂ := l₁.mono (hlp.beyond.suffix.trans name.suffix)
  have operands := before_operandNames hu l₂
  have l₄ : Lexical ts₄ := l₂.mono (hrp.beyond.suffix.trans operands.suffix)
  have successors := before_successors hs l₄
  have l₅ : Lexical ts₅ := l₄.mono successors.suffix
  have attributes : Before (optional (o.attributes = ∅) o.attributes.tokens) ts₅ ts₆ :=
    before_of_ifNext ha (Attributes.recognizes_tokens.sound l₅)
  have l₇ : Lexical ts₇ := l₅.mono (hc.beyond.suffix.trans attributes.suffix)
  have operandTypes := Ty.recognizes_listTokens.sound l₇ ht
  have l₉ : Lexical ts₉ := l₇.mono (har.beyond.suffix.trans operandTypes.suffix)
  have resultTypes := Ty.recognizes_resultTokens.sound l₉ hrt
  exact results.mul (name.mul ((before_mark.2 hlp).mul (operands.mul ((before_mark.2 hrp).mul
    (successors.mul (attributes.mul ((before_mark.2 hc).mul (operandTypes.mul
    ((before_mark.2 har).mul resultTypes)))))))))

theorem generic_of_before {i : Instr} (h : Before (o.genericTokens i.name) ts rest) :
    ReadsGeneric i.name ts o rest := by
  simp only [Operation.genericTokens, before_mul, before_mark] at h
  obtain ⟨_, hn, ts₁, hq, ts₂, hlp, ts₃, hu, ts₄, hrp, ts₅, hs, ts₆, ha, ts₇, hc, ts₈, ht, ts₉, har,
    hrt⟩ := h
  obtain ⟨quoted, rfl, hk, hq⟩ := before_word.1 hq
  have results := resultNames_of_before hn (by simp [hk])
  have operands := operandNames_of_before hu hrp.startsWith
  have attributes := attributes_of_before ha hc.startsWith
  have bracket : ¬ StartsWith .lbracket ts₅ := by
    cases attributes with
    | inl h => exact h.1.not (by decide)
    | inr h =>
      obtain ⟨-, -, rfl⟩ := h
      exact hc.startsWith.not (by decide)
  have successors := successors_of_before hs bracket
  have name : trimQuotes quoted.lexeme = i.name := by
    rw [hq]
    exact (isContent_name i).trimQuotes
  exact ⟨quoted, ts₁, ts₂, ts₃, ts₄, ts₅, ts₆, ts₇, ts₈, ts₉, results, hk, name, hlp, operands, hrp,
    successors, attributes, hc, Ty.recognizes_listTokens.complete ht, har,
    Ty.recognizes_resultTokens.complete hrt⟩

theorem before_return {name : String} (h : ReadsReturn name ts o rest) (hl : Lexical ts) :
    Before (o.returnTokens name) ts rest := by
  obtain ⟨ts₁, ts₂, hw, hn, ht⟩ := h
  apply (before_word.2 hw).mul
  have l₁ : Lexical ts₁ := hl.mono hw.beyond.suffix
  cases hn with
  | inl hn =>
    obtain ⟨-, hn⟩ := hn
    have names := before_names hn l₁
    have hne : o.operands ≠ [] := by
      intro e
      rw [e] at hn
      cases hn
    rw [if_neg hne] at ht
    obtain ⟨ts₃, hm, ht⟩ := ht
    have l₃ : Lexical ts₃ := l₁.mono (hm.beyond.suffix.trans names.suffix)
    have types : Before (separated (o.operandTypes.map Ty.tokens)) ts₃ rest :=
      Separated.before Ty.recognizes_tokens.sound ht l₃
    exact before_optional.2 (.inr (names.mul ((before_mark.2 hm).mul types)))
  | inr hn =>
    obtain ⟨-, hn, rfl⟩ := hn
    have hnil := List.map_eq_nil_iff.1 hn
    rw [if_pos hnil] at ht
    exact before_optional.2 (.inl ⟨hnil, ht⟩)

theorem return_of_before {name : String} (h : Before (o.returnTokens name) ts rest)
    (hs : OpKind.returnOp.Stops o rest) : ReadsReturn name ts o rest := by
  obtain ⟨ts₁, hw, h⟩ := before_mul.1 h
  have hw := before_word.1 hw
  cases before_optional.1 h with
  | inl h =>
    obtain ⟨hnil, rfl⟩ := h
    refine ⟨rest, rest, hw, .inr ⟨hs.operand rfl hnil, ?_, rfl⟩, ?_⟩
    · rw [hnil]
      rfl
    · rw [if_pos hnil]
  | inr h =>
    simp only [before_mul, before_mark] at h
    obtain ⟨ts₂, hn, ts₃, hm, ht⟩ := h
    obtain ⟨hp, hn⟩ := names_of_before hn (hm.startsWith.not (by decide))
    have hne : o.operands ≠ [] := by
      intro e
      rw [e] at hn
      cases hn
    refine ⟨ts₁, ts₂, hw, .inl ⟨hp, hn⟩, ?_⟩
    rw [if_neg hne]
    exact ⟨ts₃, hm, commaList_of_before Ty.recognizes_tokens.complete ht hs.comma⟩

theorem before_argument {v : Value} (hl : Lexical ts) (h : ReadsArgument ts v rest) :
    Before (Operation.argumentTokens v) ts rest := by
  obtain ⟨ts₁, ts₂, hw, hm, ht, -⟩ := h
  have l₂ : Lexical ts₂ := hl.mono (hm.beyond.suffix.trans hw.beyond.suffix)
  exact (before_word.2 hw).mul ((before_mark.2 hm).mul (Ty.recognizes_tokens.sound l₂ ht))

theorem argument_of_before {v : Value} (hv : v = .argument v.name v.type)
    (h : Before (Operation.argumentTokens v) ts rest) : ReadsArgument ts v rest := by
  simp only [Operation.argumentTokens, before_mul, before_word, before_mark] at h
  obtain ⟨ts₁, hw, ts₂, hm, ht⟩ := h
  exact ⟨ts₁, ts₂, hw, hm, Ty.recognizes_tokens.complete ht, hv⟩

theorem before_func {name : String} {signature : Signature}
    (h : ReadsFunc name signature ts o rest) (hl : Lexical ts) :
    Before (o.funcTokens name signature) ts rest := by
  obtain ⟨symbol, ts₁, ts₂, ts₃, hw, hk, hi, hm, ha, hr⟩ := h
  have l₂ : Lexical ts₂ := hl.mono (hm.beyond.suffix.trans hw.beyond.next.suffix)
  have arguments : Before (listed (o.arguments.map Operation.argumentTokens) * mark .rparen)
      ts₂ ts₃ := Listed.before before_argument ha l₂
  have l₃ : Lexical ts₃ := l₂.mono arguments.suffix
  have returns : Before (optional (signature.returns = [])
      (mark .arrow * Ty.resultTokens signature.returns)) ts₃ rest := by
    apply before_of_ifNext hr
    intro h
    obtain ⟨mid, hm, ht⟩ := h
    exact (before_mark.2 hm).mul (Ty.recognizes_resultTokens.sound (l₃.mono hm.beyond.suffix) ht)
  have identifier : Before (one fun t => t.kind = .atIdentifier ∧
      signature.identifier = some (trimAt t.lexeme)) (symbol :: ts₁) ts₁ :=
    before_one.2 ⟨symbol, rfl, hk, hi⟩
  obtain ⟨mid, hlist, hclose⟩ := before_mul.1 arguments
  exact (before_word.2 hw).mul (identifier.mul ((before_mark.2 hm).mul (hlist.mul
    (hclose.mul returns))))

theorem func_of_before {name : String} {signature : Signature}
    (ho : ∀ v ∈ o.arguments, v = .argument v.name v.type)
    (h : Before (o.funcTokens name signature) ts rest) (hs : ¬ StartsWith .arrow rest) :
    ReadsFunc name signature ts o rest := by
  simp only [Operation.funcTokens, before_mul, before_word, before_one] at h
  obtain ⟨_, hw, ts₁, ⟨symbol, rfl, hk, hi⟩, ts₂, hm, mid, hlist, ts₃, hclose, hr⟩ := h
  have arguments : ListOf .rparen ReadsArgument ts₂ o.arguments ts₃ :=
    listed_of_before (fun v hv => argument_of_before (ho v hv)) (hlist.mul hclose)
  refine ⟨symbol, ts₁, ts₂, ts₃, hw, hk, hi, before_mark.1 hm, arguments, ?_⟩
  apply ifNext_of_before hr _ hs
  intro h
  obtain ⟨mid, hm, ht⟩ := before_mul.1 h
  have hm := before_mark.1 hm
  exact ⟨hm.startsWith, mid, hm, Ty.recognizes_resultTokens.complete ht⟩

end Op

namespace OpKind

variable {kind : OpKind} {o : Operation} {ts rest : List Token}

theorem ReadsForm.before (h : kind.ReadsForm ts o rest) (hl : Lexical ts) :
    Before (kind.formTokens o) ts rest := by
  cases kind with
  | moduleOp => exact before_word.2 h
  | funcOp _ _ => exact Op.before_func h hl
  | returnOp => exact Op.before_return h hl
  | instr _ => exact Op.before_generic h hl

theorem form_of_before (ho : kind.Shows o) (h : Before (kind.formTokens o) ts rest)
    (hs : kind.Stops o rest) : kind.ReadsForm ts o rest := by
  cases kind with
  | moduleOp => exact before_word.1 h
  | funcOp _ _ => exact Op.func_of_before ho.2 h hs.arrow
  | returnOp => exact Op.return_of_before h hs
  | instr _ => exact Op.generic_of_before h

/-- An op begins with a token of its own, which has its place. -/
theorem head?_of_beyond {us : List Token} (h : Beyond (us ++ rest) rest) :
    (us ++ rest).head? = us.head? := by
  cases us with
  | nil => exact absurd h.length_lt (Nat.lt_irrefl _)
  | cons t us => rfl

theorem ReadsHead.before (h : kind.ReadsHead ts o rest) (hl : Lexical ts) :
    Before (kind.headTokens o) ts rest := by
  obtain ⟨hn, hloc, hs, hf⟩ := h
  obtain ⟨us, hu, rfl⟩ := hf.before hl
  rw [head?_of_beyond hf.beyond] at hloc
  exact ⟨us, ⟨hn, hs, hloc, hu⟩, rfl⟩

theorem head_of_before (h : Before (kind.headTokens o) ts rest) (hs : kind.Stops o rest) :
    kind.ReadsHead ts o rest := by
  obtain ⟨us, ⟨hn, ho, hloc, hu⟩, rfl⟩ := h
  have hf := form_of_before ho ⟨us, hu, rfl⟩ hs
  rw [← head?_of_beyond hf.beyond] at hloc
  exact ⟨hn, hloc, ho, hf⟩

end OpKind

end BrilIR
