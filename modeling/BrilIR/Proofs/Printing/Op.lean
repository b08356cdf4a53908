import BrilIR.Proofs.Grammar.Op
import BrilIR.Proofs.Printing.Attribute

/-! The text of an op up to its region is read as the form of its kind. -/

namespace BrilIR

open Token BrilIR.Parser

structure Value.Regular (v : Value) : Prop where
  name : Lexeme .percentIdentifier v.name.toList
  type : v.type.Regular

structure Signature.Regular (s : Signature) : Prop where
  identifier : ∃ name, s.identifier = some name ∧ IsName name
  returns : ∀ t ∈ s.returns, t.Regular

/-- Operations that a source can show as being of this kind. -/
structure OpKind.Regular (kind : OpKind) (o : Operation) : Prop where
  name_eq : o.name = kind.name
  shows : kind.Shows o
  signature : ∀ style s, kind = .funcOp style s → s.Regular
  arguments : ∀ v ∈ o.arguments, v.Regular
  operands : ∀ v ∈ o.operands, v.Regular
  results : ∀ v ∈ o.results, v.Regular
  attributes : o.attributes.Regular
  successors : ∀ l ∈ o.successors, Lexeme .caretIdentifier l.toList

theorem OpKind.regular_module (l : Option Location) :
    OpKind.moduleOp.Regular { name := "module", location := l } :=
  ⟨rfl, rfl, by simp, by simp, by simp, by simp, Attributes.regular_empty, by simp⟩

structure OpKind.Stops (kind : OpKind) (o : Operation) (rest : List Token) : Prop where
  comma : ¬ StartsWith .comma rest
  arrow : ¬ StartsWith .arrow rest
  operand : kind = .returnOp → o.operands = [] → ¬ StartsWith .percentIdentifier rest

namespace Op

theorem writes_words {kind : Kind} {ws : List String} (hne : ws ≠ [])
    (h : ∀ w ∈ ws, Lexeme kind w.toList) (hk : ∀ rest, Boundary rest → Apart kind rest) :
    Writes Boundary (", ".intercalate ws).toList fun ts rest =>
      ¬ StartsWith .comma rest → CommaList (Word kind) ts ws rest := by
  have := Writes.separated (G := Word kind) (f := id) ws hne fun w hw =>
    (Writes.lexeme (h w hw)).strengthen hk
  rwa [List.map_id] at this

theorem writes_names {vs : List Value} (h : ∀ v ∈ vs, v.Regular) :
    Writes Boundary (Value.usesText vs).toList fun ts rest => ¬ StartsWith .comma rest →
      ¬ StartsWith .percentIdentifier rest → ReadsNames ts (vs.map Value.name) rest := by
  by_cases hne : vs = []
  · subst hne
    refine Writes.nil.imp ?_
    rintro ts rest rfl - hp
    exact .inr ⟨hp, rfl, rfl⟩
  · have hw : ∀ w ∈ vs.map Value.name, Lexeme .percentIdentifier w.toList := by
      intro w hw
      obtain ⟨v, hv, rfl⟩ := List.mem_map.1 hw
      exact (h v hv).name
    refine (writes_words (by simpa using hne) hw fun _ h => h).imp ?_
    intro ts rest hl hc _
    exact .inl ⟨Separated.startsWith Word.startsWith (hl hc), hl hc⟩

theorem writes_resultNames {vs : List Value} (h : ∀ v ∈ vs, v.Regular)
    (hr : ∀ v ∈ vs, v = .result v.name v.type) :
    Writes Anything (if vs.isEmpty then "" else Value.listText vs ++ " = ").toList fun ts rest =>
      ¬ StartsWith .percentIdentifier rest → ReadsResultNames ts (vs.map Value.name) rest := by
  by_cases hne : vs = []
  · subst hne
    refine Writes.nil.imp ?_
    rintro ts rest rfl hp
    exact .inr ⟨hp, rfl, rfl⟩
  · have hw : ∀ w ∈ vs.map Value.name, Lexeme .percentIdentifier w.toList := by
      intro w hw
      obtain ⟨v, hv, rfl⟩ := List.mem_map.1 hw
      exact (h v hv).name
    have hnames : vs.map Value.text = vs.map Value.name := by
      refine List.map_congr_left fun v hv => ?_
      rw [hr v hv]
      rfl
    have e : (if vs.isEmpty then "" else Value.listText vs ++ " = ").toList =
        (", ".intercalate (vs.map Value.name)).toList ++ [' ', '=', ' '] := by
      simp [Value.listText, hne, hnames]
    have equal : Writes Anything [' ', '=', ' '] (Mark .equal) :=
      .mark [' '] '=' [' '] rfl (by decide) (by decide)
    rw [e]
    refine ((writes_words (by simpa using hne) hw fun _ h => h).append equal
      fun _ _ => boundary_cons.2 (by decide)).imp ?_
    rintro ts rest ⟨mid, hl, hm⟩ -
    have hl := hl (hm.startsWith.not (by decide))
    exact .inl ⟨Separated.startsWith Word.startsWith hl, mid, hl, hm⟩

theorem writes_successors {labels : List String}
    (h : ∀ l ∈ labels, Lexeme .caretIdentifier l.toList) :
    Writes Anything (if labels.isEmpty then "" else "[" ++ ", ".intercalate labels ++ "]").toList
      fun ts rest => ¬ StartsWith .lbracket rest → ReadsSuccessors ts labels rest := by
  by_cases hne : labels = []
  · subst hne
    refine Writes.nil.imp ?_
    rintro ts rest rfl hb
    exact .inr ⟨hb, rfl, rfl⟩
  · have e : (if labels.isEmpty then "" else "[" ++ ", ".intercalate labels ++ "]").toList =
        ['['] ++ ((", ".intercalate (labels.map id)).toList ++ [']']) := by
      simp [hne]
    have lbracket : Writes Anything ['['] (Mark .lbracket) :=
      .mark [] '[' [] rfl (by decide) (by decide)
    rw [e]
    refine (lbracket.append (Writes.closed .rbracket (G := Word .caretIdentifier) labels rfl
      (by decide) fun l hl => Writes.lexeme (h l hl)) fun _ _ => trivial).imp ?_
    rintro ts rest ⟨mid, hm, hl⟩ -
    exact .inl ⟨hm.startsWith, mid, hm, hl⟩

theorem displayName_name (kind : OpKind) : Operation.displayName kind.name = kind.name := by
  cases kind with
  | moduleOp => rfl
  | funcOp style _ => cases style <;> rfl
  | returnOp => rfl
  | instr i => cases i <;> rfl

theorem isContent_name (i : Instr) : IsContent i.name := by
  refine isContent_of_identifierChars (List.all_eq_true.1 ?_)
  cases i <;> decide

theorem writes_operands {vs : List Value} (h : ∀ v ∈ vs, v.Regular) :
    Writes Anything ("(" ++ Value.usesText vs ++ ")").toList fun ts rest => ∃ ts₁ ts₂,
      Mark .lparen ts ts₁ ∧ ReadsNames ts₁ (vs.map Value.name) ts₂ ∧ Mark .rparen ts₂ rest := by
  have e : ("(" ++ Value.usesText vs ++ ")").toList =
      ['('] ++ ((Value.usesText vs).toList ++ [')']) := by
    simp
  have lparen : Writes Anything ['('] (Mark .lparen) := .mark [] '(' [] rfl (by decide) (by decide)
  have rparen : Writes Anything [')'] (Mark .rparen) := .mark [] ')' [] rfl (by decide) (by decide)
  rw [e]
  refine (lparen.append ((writes_names h).append rparen fun _ _ => ?_) fun _ _ => trivial).imp ?_
  · exact boundary_cons.2 (by decide)
  · rintro ts rest ⟨ts₁, hl, ts₂, hn, hr⟩
    exact ⟨ts₁, ts₂, hl, hn (hr.startsWith.not (by decide))
      (hr.startsWith.not (by decide)), hr⟩

theorem writes_genericText {i : Instr} {o : Operation} (h : (OpKind.instr i).Regular o) :
    Writes Boundary o.genericText.toList fun ts rest => ReadsGeneric i.name ts o rest := by
  have hname : Operation.displayName o.name = i.name := by
    rw [h.name_eq]
    exact displayName_name (.instr i)
  have e : o.genericText.toList =
      (if o.results.isEmpty then "" else Value.listText o.results ++ " = ").toList ++
      (("\"" ++ i.name ++ "\"").toList ++ (("(" ++ Value.usesText o.operands ++ ")").toList ++
      ((if o.successors.isEmpty then ""
        else "[" ++ ", ".intercalate o.successors ++ "]").toList ++
      (o.attributes.text.toList ++ ([' ', ':', ' '] ++
      (("(" ++ Ty.listText o.operandTypes ++ ")").toList ++ ([' ', '-', '>', ' '] ++
      (resultsText o.resultTypes).toList))))))) := by
    simp [Operation.genericText, hname]
  have colon : Writes Anything [' ', ':', ' '] (Mark .colon) :=
    .mark [' '] ':' [' '] rfl (by decide) (by decide)
  have arrow : Writes Anything [' ', '-', '>', ' '] fun ts rest => Word .arrow ts "->" rest :=
    .spaced [' '] [' '] (w := "->") rfl (by decide) (by decide) fun _ _ => trivial
  have operandTypes : ∀ t ∈ o.operandTypes, t.Regular := by
    intro t ht
    obtain ⟨v, hv, rfl⟩ := List.mem_map.1 ht
    exact (h.operands v hv).type
  have resultTypes : ∀ t ∈ o.resultTypes, t.Regular := by
    intro t ht
    obtain ⟨v, hv, rfl⟩ := List.mem_map.1 ht
    exact (h.results v hv).type
  rw [e]
  refine ((writes_resultNames h.results h.shows.2).append
    ((Writes.lexeme (isContent_name i).lexeme).append
    ((writes_operands h.operands).append ((writes_successors h.successors).append
    ((Attributes.writes_text h.attributes).append (colon.append
    ((Ty.writes_list operandTypes).append (arrow.append (Ty.writes_resultsText resultTypes)
      ?_) ?_) ?_) ?_) ?_) ?_) ?_) ?_).imp ?_
  -- the parts do not run into each other, whatever is in them
  iterate 8 exact fun _ _ => trivial
  rintro ts rest ⟨ts₀, hr, ts₁, ⟨quoted, rfl, hk, hq⟩, ts₄, ⟨ts₂, ts₃, hl, hu, hrp⟩, ts₅, hs, ts₆,
    ha, ts₇, hc, ts₈, ht, ts₉, ⟨arrow, rfl, hk', -⟩, hrt⟩
  have hattr := ha (hc.startsWith.not (by decide))
  have hbracket : ¬ StartsWith .lbracket ts₅ := by
    rcases hattr with ⟨⟨t, _, rfl, ht⟩, -⟩ | ⟨-, -, rfl⟩
    · simp [ht]
    · exact hc.startsWith.not (by decide)
  exact ⟨quoted, ts₁, ts₂, ts₃, ts₄, ts₅, ts₆, ts₇, _, ts₉, hr (by simp [hk]), hk,
    by rw [hq, (isContent_name i).trimQuotes], hl, hu, hrp, hs hbracket, hattr, hc, ht,
    ⟨arrow, rfl, hk'⟩, hrt⟩

theorem writes_argument {v : Value} (h : v.Regular) (ha : v = .argument v.name v.type) :
    Writes Boundary v.text.toList fun ts rest => ReadsArgument ts v rest := by
  have e : v.text.toList = v.name.toList ++ ([' ', ':', ' '] ++ v.type.text.toList) := by
    rw [ha]
    simp [Value.text, Value.name, Value.type]
  have colon : Writes Anything [' ', ':', ' '] (Mark .colon) :=
    .mark [' '] ':' [' '] rfl (by decide) (by decide)
  rw [e]
  refine ((Writes.lexeme h.name).append (colon.append (Ty.writes_text h.type) fun _ _ => trivial)
    fun _ _ => boundary_cons.2 (by decide)).imp ?_
  rintro ts rest ⟨ts₁, hw, ts₂, hc, ht⟩
  exact ⟨ts₁, ts₂, hw, hc, ht, ha⟩

theorem writes_returns {types : List Ty} (h : ∀ t ∈ types, t.Regular) :
    Writes Boundary (if types.isEmpty then "" else " -> " ++ resultsText types).toList
      fun ts rest => ¬ StartsWith .arrow rest → IfNext .arrow (fun ts types rest =>
        ∃ mid, Mark .arrow ts mid ∧ Ty.ReadsResults mid types rest) [] ts types rest := by
  by_cases hne : types = []
  · subst hne
    refine Writes.nil.imp ?_
    rintro ts rest rfl ha
    exact .inr ⟨ha, rfl, rfl⟩
  · have e : (if types.isEmpty then "" else " -> " ++ resultsText types).toList =
        [' ', '-', '>', ' '] ++ (resultsText types).toList := by
      simp [hne]
    have arrow : Writes Anything [' ', '-', '>', ' '] fun ts rest => Word .arrow ts "->" rest :=
      .spaced [' '] [' '] (w := "->") rfl (by decide) (by decide) fun _ _ => trivial
    rw [e]
    refine (arrow.append (Ty.writes_resultsText h) fun _ _ => trivial).imp ?_
    rintro ts rest ⟨mid, ⟨t, rfl, hk, -⟩, ht⟩ -
    exact .inl ⟨startsWith_cons.2 hk, mid, ⟨t, rfl, hk⟩, ht⟩

/-- The words that begin an op are no types, truth values or marks. -/
theorem lexeme_name (kind : OpKind) (h : ∀ i, kind ≠ .instr i) :
    Lexeme .bareIdentifier kind.name.toList := by
  cases kind with
  | moduleOp => exact ⟨'m', _, rfl, by decide, List.all_eq_true.1 (by decide), by decide⟩
  | funcOp style _ =>
    show Lexeme .bareIdentifier style.name.toList
    cases style with
    | func => exact ⟨'f', _, rfl, by decide, List.all_eq_true.1 (by decide), by decide⟩
    | bril => exact ⟨'b', _, rfl, by decide, List.all_eq_true.1 (by decide), by decide⟩
  | returnOp => exact ⟨'r', _, rfl, by decide, List.all_eq_true.1 (by decide), by decide⟩
  | instr i => exact absurd rfl (h i)

theorem writes_funcText {style : FuncStyle} {s : Signature} {o : Operation}
    (h : (OpKind.funcOp style s).Regular o) :
    Writes Boundary (o.funcText s).toList fun ts rest => ¬ StartsWith .arrow rest →
      ReadsFunc style.name s ts o rest := by
  obtain ⟨name, hid, hn⟩ := (h.signature style s rfl).identifier
  have hname : Operation.displayName o.name = style.name := by
    rw [h.name_eq]
    exact displayName_name (.funcOp style s)
  have hattr : o.attributes.isEmpty = true := by
    rw [h.shows.1]
    rfl
  have e : (o.funcText s).toList = style.name.toList ++ (([' '] ++ (("@" ++ name).toList ++ [])) ++
      (['('] ++ (((", ".intercalate (o.arguments.map Value.text)).toList ++ [')']) ++
      (if s.returns.isEmpty then "" else " -> " ++ resultsText s.returns).toList))) := by
    simp [Operation.funcText, hname, hid, hattr, Value.listText]
  have lparen : Writes Anything ['('] (Mark .lparen) := .mark [] '(' [] rfl (by decide) (by decide)
  have symbol : Writes Boundary ([' '] ++ (("@" ++ name).toList ++ [])) fun ts rest =>
      Word .atIdentifier ts ("@" ++ name) rest :=
    .spaced [' '] [] (lexeme_at hn) (by decide) (by decide) fun _ h => h
  have hword : Lexeme .bareIdentifier style.name.toList :=
    lexeme_name (.funcOp style s) (by simp)
  rw [e]
  refine ((Writes.lexeme hword).append (symbol.append (lparen.append
    ((Writes.closed .rparen o.arguments rfl (by decide) fun v hv =>
      writes_argument (h.arguments v hv) (h.shows.2 v hv)).append
    (writes_returns (h.signature style s rfl).returns) ?_) ?_) ?_) ?_).imp ?_
  · exact fun _ _ => trivial
  · exact fun _ _ => trivial
  · exact fun _ _ => boundary_cons.2 (by decide)
  · exact fun _ _ => boundary_cons.2 (by decide)
  · rintro ts rest ⟨_, hw, ts₁, ⟨symbol, rfl, hk, hs⟩, ts₂, hl, ts₃, ha, hr⟩ harrow
    exact ⟨symbol, ts₁, ts₂, ts₃, hw, hk, by rw [hs, trimAt_at hn, hid], hl, ha, hr harrow⟩

theorem writes_returnText {o : Operation} (h : OpKind.returnOp.Regular o) :
    Writes Boundary o.returnText.toList fun ts rest => OpKind.returnOp.Stops o rest →
      ReadsReturn "return" ts o rest := by
  have hname : Operation.displayName o.name = "return" := by
    rw [h.name_eq]
    rfl
  have hword : Lexeme .bareIdentifier "return".toList := lexeme_name .returnOp (by simp)
  by_cases hne : o.operands = []
  · have e : o.returnText.toList = "return".toList := by simp [Operation.returnText, hname, hne]
    rw [e]
    refine (Writes.lexeme hword).imp ?_
    intro ts rest hw hs
    refine ⟨rest, rest, hw, .inr ⟨hs.operand rfl hne, by simp [hne], rfl⟩, ?_⟩
    rw [if_pos hne]
  · have e : o.returnText.toList = "return".toList ++ ([' '] ++
        ((Value.usesText o.operands).toList ++
          ([' ', ':', ' '] ++ (Ty.listText o.operandTypes).toList))) := by
      simp [Operation.returnText, hname, hne]
    have colon : Writes Anything [' ', ':', ' '] (Mark .colon) :=
      .mark [' '] ':' [' '] rfl (by decide) (by decide)
    have types : ∀ t ∈ o.operandTypes, t.Regular := by
      intro t ht
      obtain ⟨v, hv, rfl⟩ := List.mem_map.1 ht
      exact (h.operands v hv).type
    have blank : Writes Anything [' '] fun ts rest => rest = ts := .blank (by decide)
    rw [e]
    refine ((Writes.lexeme hword).append (blank.append ((writes_names h.operands).append
      (colon.append (Ty.writes_listText (by simpa [Operation.operandTypes] using hne) types)
      ?_) ?_) ?_) ?_).imp ?_
    · exact fun _ _ => trivial
    · exact fun _ _ => boundary_cons.2 (by decide)
    · exact fun _ _ => trivial
    · exact fun _ _ => boundary_cons.2 (by decide)
    · rintro ts rest ⟨ts₁, hw, _, rfl, ts₂, hn, ts₃, hc, ht⟩ hs
      refine ⟨_, ts₂, hw, hn (hc.startsWith.not (by decide))
        (hc.startsWith.not (by decide)), ?_⟩
      rw [if_neg hne]
      exact ⟨ts₃, hc, ht hs.comma⟩

/-- The text up to the region is read as the form of the kind. -/
theorem writes_headText {kind : OpKind} {o : Operation} (h : kind.Regular o) :
    Writes Boundary (kind.headText o).toList fun ts rest => kind.Stops o rest →
      kind.ReadsForm ts o rest := by
  cases kind with
  | moduleOp =>
    have hword : Lexeme .bareIdentifier "module".toList := lexeme_name .moduleOp (by simp)
    exact (Writes.lexeme hword).imp fun ts rest hw _ => hw
  | funcOp style s => exact (writes_funcText h).imp fun ts rest hf hs => hf hs.arrow
  | returnOp => exact writes_returnText h
  | instr i => exact (writes_genericText h).imp fun ts rest hg _ => hg

end Op

end BrilIR
