import BrilIR.Proofs.Lexical.Offset
import BrilIR.Proofs.Source.Pointing

/-!
The places of ops tell them apart. The ops of a source, met in the order of the walk through its
tree, begin at tokens that stand one behind another, and the places of tokens grow.
-/

namespace BrilIR

open Token Production

/-- The op is written in the tokens, and it is at the place of the first token of its text. -/
def Op.StandsAt (us : List Token) (op : Op) (t : Token) : Prop :=
  op.operation.location = some t.location ∧ op.operation.BeginsWith t ∧
    ∃ ts, t :: ts ∈ op.tokens ∧ t :: ts <:+: us

/-- The ops of a walk begin at tokens that stand one behind another. -/
def Walks (us : List Token) (walk : List Op) : Prop :=
  ∃ firsts, firsts.Sublist us ∧ List.Forall₂ (fun op t => op.StandsAt us t) walk firsts

theorem Op.StandsAt.mono {us vs : List Token} {op : Op} {t : Token} (h : op.StandsAt us t)
    (hi : us <:+: vs) : op.StandsAt vs t := by
  obtain ⟨hplace, hbegins, ts, hts, hus⟩ := h
  exact ⟨hplace, hbegins, ts, hts, hus.trans hi⟩

namespace Walks

variable {us vs : List Token} {walk walk' : List Op}

theorem nil : Walks us [] := ⟨[], List.nil_sublist us, .nil⟩

theorem append (h : Walks us walk) (h' : Walks vs walk') : Walks (us ++ vs) (walk ++ walk') := by
  obtain ⟨firsts, hsub, hall⟩ := h
  obtain ⟨firsts', hsub', hall'⟩ := h'
  have hfront : us <:+: us ++ vs := (List.prefix_append us vs).isInfix
  have hbehind : vs <:+: us ++ vs := (List.suffix_append us vs).isInfix
  exact ⟨firsts ++ firsts', hsub.append hsub', List.rel_append (hall.imp fun _ _ h => h.mono hfront)
    (hall'.imp fun _ _ h => h.mono hbehind)⟩

theorem front (h : Walks us walk) : Walks (us ++ vs) walk := by
  have hnil : Walks vs [] := nil
  simpa using h.append hnil

theorem behind (h : Walks vs walk) : Walks (us ++ vs) walk := by
  have hnil : Walks us [] := nil
  simpa using hnil.append h

theorem cons {op : Op} {t : Token} {ts : List Token} (h : t :: ts ∈ op.tokens)
    (hw : Walks ts walk) : Walks (t :: ts) (op :: walk) := by
  obtain ⟨t', ts', e, hbegins, hplace⟩ := Op.exists_cons_of_mem_tokens h
  cases e
  obtain ⟨firsts, hsub, hall⟩ := hw
  have hrest : ts <:+: t :: ts := (List.suffix_cons t ts).isInfix
  exact ⟨t :: firsts, hsub.cons_cons t,
    .cons ⟨hplace, hbegins, ts, h, List.infix_rfl⟩ (hall.imp fun _ _ h => h.mono hrest)⟩

end Walks

theorem Op.mem_tokens_region {kind : OpKind} {o : Operation} {r : List Block} {us : List Token}
    (h : us ∈ (Op.mk kind o (some r)).tokens) :
    us ∈ kind.headTokens o * (mark .lbrace * (Region.tokens true r * mark .rbrace)) := by
  simp only [Op.tokens] at h
  exact h.2

/-! The text of a tree holds the texts of its ops in the order of the walk. -/

mutual

theorem Op.walks_preorder : {op : Op} → {us : List Token} → (depth : Nat) → us ∈ op.tokens →
    Walks us ((op.preorder depth).map (·.2))
  | .mk kind o none, us, depth, h => by
    obtain ⟨t, ts, rfl, -⟩ := Op.exists_cons_of_mem_tokens h
    exact Walks.cons h .nil
  | .mk kind o (some r), us, depth, h => by
    obtain ⟨as, hhead, body, hbody, rfl⟩ := Language.mem_mul.1 (Op.mem_tokens_region h)
    obtain ⟨t, ts, rfl, -⟩ :=
      OpKind.exists_cons_of_mem_formTokens hhead.2.1 hhead.1 hhead.2.2.2
    obtain ⟨brace, -, inner, hinner, rfl⟩ := Language.mem_mul.1 hbody
    obtain ⟨bs, hr, _, -, rfl⟩ := Language.mem_mul.1 hinner
    simp only [Op.preorder, List.map_cons]
    exact Walks.cons h (Region.walks_preorder (depth + 1) hr).front.behind.behind

theorem Region.walks_preorder : {r : List Block} → {us : List Token} → {first : Bool} →
    (depth : Nat) → us ∈ Region.tokens first r → Walks us ((Region.preorder depth r).map (·.2))
  | [], us, first, depth, h => .nil
  | .mk label ops :: r, us, first, depth, h => by
    simp only [Region.tokens] at h
    obtain ⟨as, -, rest, hrest, rfl⟩ := Language.mem_mul.1 h
    obtain ⟨bs, hops, cs, hr, rfl⟩ := Language.mem_mul.1 hrest
    simp only [Region.preorder, List.map_append]
    exact ((Block.walks_preorder depth hops).append (Region.walks_preorder depth hr)).behind

theorem Block.walks_preorder : {ops : List Op} → {us : List Token} → (depth : Nat) →
    us ∈ Block.tokens ops → Walks us ((Block.preorder depth ops).map (·.2))
  | [], us, depth, h => .nil
  | op :: ops, us, depth, h => by
    simp only [Block.tokens] at h
    obtain ⟨as, hop, bs, hops, rfl⟩ := Language.mem_mul.1 h
    simp only [Block.preorder, List.map_append]
    exact (Op.walks_preorder depth hop).append (Block.walks_preorder depth hops)

end

namespace Op

theorem location_of_parse {p q : ParserState} {op : Op} (h : parse p = .ok op q) :
    op.operation.location = some p.peek.location := by
  obtain ⟨hderives, -⟩ := denotes_parse.apply_ok h
  obtain ⟨mid, hhead⟩ := hderives.exists_head
  obtain ⟨t, ht⟩ := hhead.beyond
  obtain ⟨u, us, e⟩ : ∃ u us, p.ahead = u :: us :=
    List.exists_cons_of_ne_nil fun e => by simp [e] at ht
  rw [hhead.location_eq, ParserState.peek, ParserState.peekAt, e]
  rfl

def LocatedBefore (a b : Op) : Prop :=
  ∃ l m, a.operation.location = some l ∧ b.operation.location = some m ∧ l.Before m

theorem pairwise_locatedBefore {s : TokenStream} {source : String} {walk : List Op}
    {firsts : List Token} (hs : TokenStream.scan source = .ok s) (hsub : firsts.Sublist s.tokens)
    (hall : List.Forall₂ (fun op t => op.StandsAt s.tokens t) walk firsts) :
    walk.Pairwise LocatedBefore := by
  have hbefore : firsts.Pairwise fun t u => t.location.Before u.location :=
    (TokenStream.pairwise_before hs).sublist (hsub.trans (List.sublist_append_left _ _))
  have hplaces : walk.map (·.operation.location) = firsts.map (some ·.location) := by
    have heq := List.forall₂_map_left_iff.2 (List.forall₂_map_right_iff.2
      (hall.imp fun _ _ h => h.1))
    rwa [List.forall₂_eq_eq_eq] at heq
  have hgrow : (walk.map (·.operation.location)).Pairwise
      fun a b => ∃ l m, a = some l ∧ b = some m ∧ l.Before m := by
    rw [hplaces, List.pairwise_map]
    exact hbefore.imp fun h => ⟨_, _, rfl, rfl, h⟩
  rwa [List.pairwise_map] at hgrow

theorem LocatedBefore.location_ne {a b : Op} (h : LocatedBefore a b) :
    a.operation.location ≠ b.operation.location := by
  obtain ⟨l, m, ha, hb, hlm⟩ := h
  rw [ha, hb]
  intro e
  cases e
  unfold Location.Before at hlm
  omega

/-- In the order of the walk the ops of a source are at the places of the tokens that they begin
with, which grow, so no two of them are at one place. Only a module that was put around the ops has
no place. The place is that of the token that was next when the op was read. -/
theorem ofSource_places {source : String} {top : Op} (h : ofSource source = .ok top) :
    (∀ p op q, parse p = .ok op q → op.operation.location = some p.peek.location) ∧
    ∃ s ops wrapper parsed firsts, TokenStream.scan source = .ok s ∧ readAll source = .ok ops ∧
      (top.preorder 0).map (·.2) = wrapper ++ parsed ∧
      (wrapper = [] ∧ ops = [top] ∧ top.kind = .moduleOp ∨
        wrapper = [top] ∧ top = moduleOf ops ∧ ¬ ∃ m : Op, ops = [m] ∧ m.kind = .moduleOp) ∧
      firsts.Sublist s.tokens ∧
      List.Forall₂ (fun op t => op.StandsAt s.tokens t) parsed firsts ∧
      parsed.Pairwise LocatedBefore ∧ (parsed.map (·.operation.location)).Nodup := by
  obtain ⟨ops, hr, rfl⟩ := ofSource_ok_iff.1 h
  obtain ⟨s, hs, ht, -⟩ := readAll_ok_iff_tokens.1 hr
  refine ⟨fun _ _ _ => location_of_parse, s, ops, ?_⟩
  have distinct {walk : List Op} (hw : walk.Pairwise LocatedBefore) :
      (walk.map (·.operation.location)).Nodup := by
    rw [List.nodup_iff_pairwise_ne, List.pairwise_map]
    exact hw.imp LocatedBefore.location_ne
  cases ofTopLevel_cases ops with
  | inl hm =>
    obtain ⟨m, rfl, hkind⟩ := hm
    obtain ⟨firsts, hsub, hall⟩ := Block.walks_preorder 0 ht
    have hgrow := pairwise_locatedBefore hs hsub hall
    rw [ofTopLevel_of_module hkind]
    refine ⟨[], _, firsts, hs, hr, ?_, .inl ⟨rfl, rfl, hkind⟩, hsub, hall, hgrow, distinct hgrow⟩
    simp [Block.preorder]
  | inr hm =>
    obtain ⟨hnot, e⟩ := hm
    obtain ⟨firsts, hsub, hall⟩ := Block.walks_preorder 1 ht
    have hgrow := pairwise_locatedBefore hs hsub hall
    rw [e]
    refine ⟨[moduleOf ops], _, firsts, hs, hr, ?_, .inr ⟨rfl, rfl, hnot⟩, hsub, hall, hgrow,
      distinct hgrow⟩
    simp [moduleOf, ofOperation, Op.preorder, Region.preorder]

def spreadOps : String :=
  "// Two.\n\"bril.nop\"() \x7bnote = \"a\\\nb\"\x7d : () -> () func.func @f() \x7b\n  return\n\x7d"

theorem ofSource_places_spreadOps : ∃ top parsed, ofSource spreadOps = .ok top ∧
    (top.preorder 0).map (·.2) = top :: parsed ∧
    parsed.map (·.operation.location) = [some ⟨1, 0⟩, some ⟨1, 40⟩, some ⟨2, 2⟩] ∧
    parsed.Pairwise LocatedBefore := by
  obtain ⟨ops, hr, htest⟩ := exists_readAll spreadOps
    (fun ops => ops.length = 2 ∧ ((ofTopLevel ops).preorder 0).map (·.2.operation.location) =
      [none, some ⟨1, 0⟩, some ⟨1, 40⟩, some ⟨2, 2⟩])
    (by decide +kernel)
  obtain ⟨hlength, hplaces⟩ := of_decide_eq_true htest
  have h : ofSource spreadOps = .ok (ofTopLevel ops) := ofSource_ok_iff.2 ⟨ops, hr, rfl⟩
  obtain ⟨-, s, ops', wrapper, parsed, firsts, hs, hr', hwalk, hwrapper, -, -, hgrow, -⟩ :=
    ofSource_places h
  cases hr.symm.trans hr'
  cases hwrapper with
  | inl hm =>
    rw [hm.2.1] at hlength
    cases hlength
  | inr hm =>
    have hall : ((ofTopLevel ops).preorder 0).map (·.2) = ofTopLevel ops :: parsed := by
      rw [hwalk, hm.1, List.singleton_append]
    refine ⟨ofTopLevel ops, parsed, h, hall, ?_, hgrow⟩
    have hmap := congrArg (List.map (·.operation.location)) hall
    rw [List.map_map] at hmap
    exact (List.cons.inj (hmap.symm.trans hplaces)).2

end Op

end BrilIR
