import BrilIR.Proofs.Diagnostic.Rendering
import BrilIR.Proofs.Source.Scoping
import BrilIR.Proofs.Verify.Charging

/-!
Diagnostics of a source point at the op that they are about: at the first character of its text.
-/

namespace BrilIR

open Token Production TokenStream

/-- An operation begins with its first result. Without results it begins with its name, which
instructions have in quotes. -/
def Operation.BeginsWith (o : Operation) (t : Token) : Prop :=
  match o.results with
  | [] => t.kind = .bareIdentifier ∧ t.lexeme = o.name ∨
      t.kind = .string ∧ t.lexeme = "\"" ++ o.name ++ "\""
  | v :: _ => t.kind = .percentIdentifier ∧ t.lexeme = v.name

variable {us : List Token}

theorem Production.exists_cons_of_mem_mul {p : Token → Prop} {l : Language Token}
    (h : us ∈ one p * l) : ∃ t ts, us = t :: ts ∧ p t := by
  obtain ⟨_, ⟨t, rfl, ht⟩, ts, -, rfl⟩ := Language.mem_mul.1 h
  exact ⟨t, ts, rfl, ht⟩

theorem Operation.exists_cons_of_mem_nameTokens {v : Value} {vs : List Value} {l : Language Token}
    (h : us ∈ nameTokens (v :: vs) * l) :
    ∃ t ts, us = t :: ts ∧ t.kind = .percentIdentifier ∧ t.lexeme = v.name := by
  cases vs with
  | nil => exact exists_cons_of_mem_mul h
  | cons w vs =>
    have hnames : nameTokens (v :: w :: vs) =
        word .percentIdentifier v.name * (mark .comma * nameTokens (w :: vs)) := rfl
    rw [hnames, mul_assoc] at h
    exact exists_cons_of_mem_mul h

theorem OpKind.exists_cons_of_mem_formTokens {kind : OpKind} {o : Operation}
    (hs : kind.Shows o) (hn : o.name = kind.name) (h : us ∈ kind.formTokens o) :
    ∃ t ts, us = t :: ts ∧ o.BeginsWith t := by
  have hword {t : Token} (hr : o.results = []) (hk : t.kind = .bareIdentifier)
      (hl : t.lexeme = kind.name) : o.BeginsWith t := by
    unfold Operation.BeginsWith
    rw [hr, hn]
    exact .inl ⟨hk, hl⟩
  cases kind with
  | moduleOp =>
    obtain ⟨t, rfl, hk, hl⟩ := h
    exact ⟨t, [], rfl, hword (by rw [hs]) hk hl⟩
  | funcOp style signature =>
    obtain ⟨t, ts, rfl, hk, hl⟩ := exists_cons_of_mem_mul h
    exact ⟨t, ts, rfl, hword (by rw [hs.1]) hk hl⟩
  | returnOp =>
    obtain ⟨t, ts, rfl, hk, hl⟩ := exists_cons_of_mem_mul h
    exact ⟨t, ts, rfl, hword (by rw [hs]) hk hl⟩
  | instr i =>
    simp only [formTokens, Operation.genericTokens] at h
    obtain ⟨as, ha, bs, hb, rfl⟩ := Language.mem_mul.1 h
    cases hr : o.results with
    | nil =>
      cases ha with
      | inl ha =>
        obtain ⟨t, ts, rfl, hk, hl⟩ := exists_cons_of_mem_mul hb
        refine ⟨t, ts, by rw [ha.2, List.nil_append], ?_⟩
        unfold Operation.BeginsWith
        rw [hr, hn]
        exact .inr ⟨hk, hl⟩
      | inr ha =>
        obtain ⟨_, hnames, -⟩ := Language.mem_mul.1 ha
        rw [hr] at hnames
        cases hnames
    | cons v vs =>
      rw [hr] at ha
      cases ha with
      | inl ha => cases ha.1
      | inr ha =>
        obtain ⟨t, ts, rfl, ht⟩ := Operation.exists_cons_of_mem_nameTokens ha
        refine ⟨t, ts ++ bs, rfl, ?_⟩
        unfold Operation.BeginsWith
        rw [hr]
        exact ht

namespace Op

/-- The text of an op begins with its word, and the op is where the word is. -/
theorem exists_cons_of_mem_tokens {op : Op} (h : us ∈ op.tokens) :
    ∃ t ts, us = t :: ts ∧ op.operation.BeginsWith t ∧
      op.operation.location = some t.location := by
  have hhead {kind : OpKind} {o : Operation} {as : List Token} (ha : as ∈ kind.headTokens o) :
      ∃ t ts, as = t :: ts ∧ o.BeginsWith t ∧ o.location = some t.location := by
    obtain ⟨hn, hs, hl, hf⟩ := ha
    obtain ⟨t, ts, rfl, ht⟩ := OpKind.exists_cons_of_mem_formTokens hs hn hf
    exact ⟨t, ts, rfl, ht, hl⟩
  obtain ⟨kind, o, r⟩ := op
  cases r with
  | none =>
    simp only [Op.tokens] at h
    exact hhead h.2
  | some r =>
    simp only [Op.tokens] at h
    obtain ⟨as, ha, bs, -, rfl⟩ := Language.mem_mul.1 h.2
    obtain ⟨t, ts, rfl, ht⟩ := hhead ha
    exact ⟨t, ts ++ bs, rfl, ht⟩

theorem kind_ofTopLevel (ops : List Op) : (ofTopLevel ops).kind = .moduleOp := by
  cases ofTopLevel_cases ops with
  | inl hm =>
    obtain ⟨t, rfl, ht⟩ := hm
    rw [ofTopLevel_of_module ht, ht]
  | inr hm =>
    rw [hm.2]
    rfl

/-- In a source whose strings stay on their lines each diagnostic has a place, under any limit. It
is the place of the first token of an op with the name of the diagnostic: as many lines down as line
feeds stand in front of the token, and as far to the right as it is from the last of them. That line
is what is shown, and the caret points to the first character of the token. -/
theorem ofSource_pointing {source : String} {s : TokenStream} {top : Op} {limit : Nat}
    {d : Diagnostic} (hs : TokenStream.scan source = .ok s) (hlines : OneLined s.tokens)
    (h : ofSource source = .ok top) (hd : d ∈ (top.verify limit).kept) :
    ∃ path op us t ts ws before c after, top.descend? path = some op ∧ d.op = op.name ∧
      s.tokens = us ++ (t :: ts ++ ws) ∧ t :: ts ∈ op.tokens ∧ op.operation.BeginsWith t ∧
      t.lexeme.toList.head? = some c ∧
      source.toList = before ++ (t.lexeme.toList ++ after) ∧
      Cuts .origin source.toList us t.location (t.lexeme.toList ++ after) ∧
      d.location = some t.location ∧ t.location = Text.placeBehind before ∧
      d.PointsTo source t.location c := by
  obtain ⟨ops, hr, rfl⟩ := ofSource_ok_iff.1 h
  obtain ⟨s', hs', ht, -⟩ := readAll_ok_iff_tokens.1 hr
  cases hs.symm.trans hs'
  -- No diagnostic is about the module, which has no text of its own where the source is bare ops.
  obtain ⟨path, op, hop, ⟨hname, hlocation⟩, hpath⟩ := charges_of_mem_kept_verify hd
  obtain ⟨n, tail, rfl⟩ : ∃ n tail, path = n :: tail :=
    List.exists_cons_of_ne_nil fun e => hpath e (kind_ofTopLevel ops)
  obtain ⟨vs, hv, us, ws, hall⟩ := occurs_ofTopLevel ht hop
  obtain ⟨t, ts, rfl, hbegins, hplace⟩ := exists_cons_of_mem_tokens hv
  rw [List.append_assoc] at hall
  obtain ⟨before, after, hsource, hcuts, hbehind⟩ := exists_before hs hlines hall.symm
  obtain ⟨c, hc, hfeed⟩ := exists_head hs hlines (show t ∈ s.tokens by simp [← hall])
  rw [hplace] at hlocation
  have hpoints : d.PointsTo source t.location c := by
    rw [hbehind] at hlocation ⊢
    exact Diagnostic.pointsTo_placeBehind hlocation hsource (by simp [hc]) hfeed
  exact ⟨n :: tail, op, us, t, ts, ws, before, c, after, hop, hname, hall.symm, hv, hbegins, hc,
    hsource, hcuts, hlocation, hbehind, hpoints⟩

def narrowReturn : String :=
  "// Too narrow.\nfunc.func @f(%a : i32) -> i64 \x7b\n  return %a : i32\n\x7d"

/-- What is wrong with it: its `return`, in the third line behind two spaces. -/
def narrowReturnDiagnostic : Diagnostic where
  location := some ⟨2, 2⟩
  op := "return"
  kind := .typeMismatch
  message :=
    "type of return operand 0 ('i32') doesn't match function result type ('i64') in function @f"

theorem ofSource_pointing_narrowReturn : ∃ s top, TokenStream.scan narrowReturn = .ok s ∧
    OneLined s.tokens ∧ ofSource narrowReturn = .ok top ∧
    narrowReturnDiagnostic ∈ (top.verify 0).kept ∧
    ∃ path op us t ts ws before c after, top.descend? path = some op ∧ "return" = op.name ∧
      s.tokens = us ++ (t :: ts ++ ws) ∧ t :: ts ∈ op.tokens ∧ op.operation.BeginsWith t ∧
      t.lexeme.toList.head? = some c ∧
      narrowReturn.toList = before ++ (t.lexeme.toList ++ after) ∧
      Cuts .origin narrowReturn.toList us t.location (t.lexeme.toList ++ after) ∧
      some ⟨2, 2⟩ = some t.location ∧ t.location = Text.placeBehind before ∧
      narrowReturnDiagnostic.PointsTo narrowReturn t.location c := by
  obtain ⟨ops, hr, htest⟩ := exists_readAll narrowReturn
    (fun ops => decide (narrowReturnDiagnostic ∈ ((ofTopLevel ops).verify 0).kept))
    (by decide +kernel)
  obtain ⟨s, hs, hfeeds⟩ : ∃ s, TokenStream.scan narrowReturn = .ok s ∧
      s.tokens.all (!·.lexeme.toList.contains '\n') = true :=
    exists_ok_of_test (by decide +kernel)
  have hlines : OneLined s.tokens := by
    intro t ht _ hfeed
    have := List.all_eq_true.1 hfeeds t ht
    simp [hfeed] at this
  have h : ofSource narrowReturn = .ok (ofTopLevel ops) := ofSource_ok_iff.2 ⟨ops, hr, rfl⟩
  have hd := of_decide_eq_true htest
  exact ⟨s, ofTopLevel ops, hs, hlines, h, hd, ofSource_pointing hs hlines h hd⟩

end Op

end BrilIR
