import BrilIR.Proofs.Grammar.Recognition
import BrilIR.Proofs.Parser.Cursor

/-!
Types and their text. The text of a type tells which type it is, a type without an integer of no
width is read back, and what was read as a type is its text up to zeros in front of widths.
-/

namespace BrilIR

open Token BrilIR.Parser TokenStream

namespace Parser

variable {α β : Type} {x : Parser α} {f : α → Parser β} {p q : ParserState} {a : α}
  {e : ParseError} {kind : Kind} {t : Token} {ts : List Token}

def Fails (x : Parser α) (p : ParserState) (e : ParseError) : Prop :=
  ∃ q, x p = .error e q

theorem Fails.bind (h : Fails x p e) : Fails (x >>= f) p e := by
  obtain ⟨q, h⟩ := h
  exact ⟨q, by rw [bind_apply, h]⟩

theorem Fails.after (hx : x p = .ok a q) (h : Fails (f a) q e) : Fails (x >>= f) p e := by
  obtain ⟨r, h⟩ := h
  refine ⟨r, ?_⟩
  rw [bind_apply, hx]
  exact h

theorem fails_peek_bind {f : Token → Parser β} (hp : p.ahead = t :: ts) (h : Fails (f t) p e) :
    Fails (peek >>= f) p e := by
  refine .after ?_ h
  show EStateM.Result.ok (p.ahead.getD 0 (.atEnd p.stop)) p = .ok t p
  rw [hp, List.getD_cons_zero]

theorem fails_expect_bind {f : Token → Parser β} (hp : p.ahead = t :: ts) (hk : t.kind = kind)
    (h : Fails (f t) { p with previous := t, ahead := ts } e) : Fails (expect kind >>= f) p e :=
  .after (expect_ok_iff.2 ⟨ts, hp, hk, rfl⟩) h

theorem fails_discard_expect_bind {f : Unit → Parser β} (hp : p.ahead = t :: ts)
    (hk : t.kind = kind)
    (h : Fails (f ()) { p with previous := t, ahead := ts } e) :
    Fails (discard (expect kind) >>= f) p e :=
  .after (discard_ok.2 ⟨t, expect_ok_iff.2 ⟨ts, hp, hk, rfl⟩⟩) h

end Parser

/-- The kind and the text of a token, the text without the zeros in front of a width. -/
def Token.withoutZeros (t : Token) : Kind × String :=
  (t.kind, if t.kind = .intType then
    "i" ++ String.ofList (t.lexeme.toList.tail.dropWhile (· == '0')) else t.lexeme)

namespace Ty

theorem words_injective : Function.Injective words := by
  intro t u h
  induction t generalizing u with
  | int width =>
    cases u with
    | int width' =>
      have hw : (int width).text = (int width').text := congrArg Prod.snd (List.cons.inj h).1
      have hd : Nat.toDigits 10 width.toNat = Nat.toDigits 10 width'.toNat := by
        simpa [text] using congrArg String.toList hw
      have hn := congrArg numeralValue hd
      rw [numeralValue_toDigits, numeralValue_toDigits] at hn
      rw [UInt32.toNat_inj.1 hn]
    | _ => cases congrArg Prod.fst (List.cons.inj h).1
  | float format =>
    cases u with
    | float format' =>
      have hw : (float format).text = (float format').text :=
        congrArg Prod.snd (List.cons.inj h).1
      have hread := congrArg floatOfText hw
      rw [floatOfText_text, floatOfText_text] at hread
      exact Except.ok.inj hread
    | _ => cases congrArg Prod.fst (List.cons.inj h).1
  | ptr p ih =>
    cases u with
    | ptr p' =>
      simp only [words, List.cons.injEq, true_and] at h
      rw [ih (List.append_cancel_right h)]
    | _ => cases congrArg Prod.fst (List.cons.inj h).1

/-- The text of a type is cut into its words. -/
theorem exists_scan_text (t : Ty) :
    ∃ s, scan t.text = .ok s ∧ s.tokens.map Token.content = t.words := by
  obtain ⟨s, hs, us, hus, hw⟩ := (writes_spelled t).exists_scan (by simp [Boundary])
  rw [List.append_nil] at hus
  exact ⟨s, hs, hus ▸ hw⟩

theorem text_injective : Function.Injective text := by
  intro t u h
  obtain ⟨s, hs, ht⟩ := exists_scan_text t
  obtain ⟨s', hs', hu⟩ := exists_scan_text u
  rw [h, hs'] at hs
  cases hs
  exact words_injective (ht.symm.trans hu)

/-! An integer of no width. -/

def noWidth : ParseError := ⟨.typeText (.zeroWidth "i0"), none⟩

theorem fails_parseWithin {t : Ty} (h : ¬ t.Regular) {n : Nat} (hn : t.depth < n) {p : ParserState}
    {rest : List Token} (hp : Spelled t.words p.ahead rest) :
    Fails (parseWithin n) p noWidth := by
  -- the innermost type is the integer; each pointer around it takes one turn of the bound
  obtain ⟨m, rfl⟩ := Nat.exists_eq_add_one_of_ne_zero (Nat.ne_zero_of_lt hn)
  induction t generalizing m p rest with
  | int width =>
    obtain rfl : width = 0 := Classical.not_not.1 h
    obtain ⟨u, e, hk, hw⟩ := spelled_one.1 hp
    have hread : intOfText u.lexeme = .error (.zeroWidth "i0") := by
      rw [hw]
      rfl
    refine fails_peek_bind e ?_
    simp only [hk]
    refine fails_expect_bind e hk ?_
    rw [hread]
    exact ⟨_, rfl⟩
  | float format => exact absurd trivial h
  | ptr pointee ih =>
    obtain ⟨bang, name, less, mid, greater, e, hb, hname, hl, hmid, -⟩ := spelled_ptr.1 hp
    have hb : bang.kind = .exclamation := congrArg Prod.fst hb
    have hlexeme : name.lexeme = "bril.ptr" := congrArg Prod.snd hname
    obtain ⟨k, rfl⟩ := Nat.exists_eq_add_one_of_ne_zero
      (Nat.ne_zero_of_lt (Nat.lt_of_succ_lt_succ hn))
    refine fails_peek_bind e ?_
    simp only [hb]
    refine fails_discard_expect_bind e hb ?_
    refine fails_expect_bind rfl (congrArg Prod.fst hname) ?_
    rw [if_pos hlexeme]
    refine fails_discard_expect_bind rfl (congrArg Prod.fst hl) (.bind ?_)
    exact ih h hmid k (Nat.lt_of_succ_lt_succ hn)

theorem length_words (t : Ty) : t.words.length = 4 * t.depth + 1 := by
  induction t with
  | int width => rfl
  | float format => rfl
  | ptr pointee ih =>
    simp only [words, depth, List.length_cons, List.length_append, List.length_nil, ih]
    omega

theorem Spelled.depth_lt {t : Ty} {ts rest : List Token} (h : Spelled t.words ts rest) :
    t.depth < ts.length := by
  obtain ⟨us, rfl, hus⟩ := h
  have hlength := congrArg List.length hus
  rw [List.length_map, length_words] at hlength
  rw [List.length_append]
  omega

/-! Zeros in front of a width. -/

theorem markKind?_inj {c d : Char} {kind : Kind} (hc : markKind? c = some kind)
    (hd : markKind? d = some kind) : c = d := by
  unfold markKind? at hc hd
  split at hc <;> cases hc <;> split at hd <;> cases hd <;> rfl

theorem withoutZeros_of_ne {t : Token} (h : t.kind ≠ .intType) : t.withoutZeros = t.content := by
  rw [Token.withoutZeros, if_neg h, Token.content]

theorem lexeme_eq_of_markKind? {kind : Kind} {c : Char} {w : String}
    (hc : markKind? c = some kind) (h : Lexeme kind w.toList) : w = String.singleton c := by
  have hw : ∃ d, w.toList = [d] ∧ markKind? d = some kind := by
    unfold markKind? at hc
    split at hc <;> cases hc <;> exact h
  obtain ⟨d, e, hd⟩ := hw
  obtain rfl : d = c := markKind?_inj hd hc
  rw [← String.toList_inj, e, String.toList_singleton]

theorem withoutZeros_mark {t : Token} {kind : Kind} {c : Char} (hc : markKind? c = some kind)
    (hk : t.kind = kind) (h : Lexeme t.kind t.lexeme.toList) :
    t.withoutZeros = (kind, String.singleton c) := by
  have hne : t.kind ≠ .intType := by
    intro hi
    rw [hk.symm.trans hi] at hc
    unfold markKind? at hc
    split at hc <;> cases hc
  have hlexeme : t.lexeme = String.singleton c := lexeme_eq_of_markKind? hc (hk ▸ h)
  rw [withoutZeros_of_ne hne, Token.content, hk, hlexeme]

/-- The tokens that were read as a type are its words up to zeros in front of widths. -/
theorem Reads.exists_words {t : Ty} {ts rest : List Token} (hl : Lexical ts)
    (h : t.Reads ts rest) :
    ∃ used, ts = used ++ rest ∧ used.map Token.withoutZeros = t.words := by
  induction t generalizing ts rest with
  | int width =>
    obtain ⟨u, rfl, hk, ht⟩ := h
    have hw : Lexeme .intType u.lexeme.toList := hk ▸ hl u (by simp)
    obtain ⟨ds, hs, hd⟩ := lexeme_intType_iff.1 hw
    obtain ⟨hz, hv⟩ := (intOfText_ok_iff hs hd).1 ht
    have hne : numeralValue ds ≠ 0 := fun h0 => hz (UInt32.toNat_inj.1 (hv.symm.trans h0))
    have hdigits : ds.dropWhile (· == '0') = Nat.toDigits 10 width.toNat := by
      rw [← hv, toDigits_numeralValue hd.2 hne]
    refine ⟨[u], rfl, ?_⟩
    simp [Token.withoutZeros, hk, hs, hdigits, words, text, ← String.toList_inj]
  | float format =>
    obtain ⟨u, rfl, hk, ht⟩ := h
    refine ⟨[u], rfl, ?_⟩
    simp [Token.withoutZeros, hk, words, floatOfText_ok_iff.1 ht]
  | ptr pointee ih =>
    obtain ⟨bang, name, less, mid, greater, rfl, hb, hn, hp, hls, hr, hg⟩ := h
    have hmid : Lexical mid := hl.mono ⟨[bang, name, less], rfl⟩
    obtain ⟨used, rfl, hused⟩ := ih hmid hr
    -- tokens are read by their kind, which tells the text of a mark
    have mark {t : Token} {kind : Kind} {c : Char} (hc : markKind? c = some kind)
        (hk : t.kind = kind) (ht : t ∈ bang :: name :: less :: (used ++ greater :: rest)) :
        t.withoutZeros = (kind, String.singleton c) := withoutZeros_mark hc hk (hl t ht)
    have hname : name.withoutZeros = (.bareIdentifier, "bril.ptr") := by
      rw [withoutZeros_of_ne (by simp [hn]), Token.content, hn, hp]
    refine ⟨bang :: name :: less :: (used ++ [greater]), by simp, ?_⟩
    rw [List.map_cons, List.map_cons, List.map_cons, List.map_append, hused, List.map_singleton,
      hname, mark (c := '!') rfl hb (by simp), mark (c := '<') rfl hls (by simp),
      mark (c := '>') rfl hg (by simp)]
    rfl

/-- Types and their text correspond. No other type has the text of a type, which is cut into tokens
that are read as the type, all of them; only if an integer in it has no width is that an error. And
whatever is read as the type at any place of a source is cut from its text too, up to zeros in front
of widths. -/
theorem text_corresponds (t : Ty) :
    (∀ u : Ty, u.text = t.text ↔ u = t) ∧
      (∃ s, scan t.text = .ok s ∧ ∀ p : ParserState, p.At s 0 →
        (t.Regular → ∃ q, parse p = .ok t q ∧ q.isAtEnd = true) ∧
        (¬ t.Regular → ∃ q, parse p = .error ⟨.typeText (.zeroWidth "i0"), none⟩ q)) ∧
      ∀ (source : String) (s : TokenStream) (n : Nat) (p q : ParserState),
        scan source = .ok s → p.At s n → parse p = .ok t q →
          ∃ used s', p.ahead = used ++ q.ahead ∧ scan t.text = .ok s' ∧
            s'.tokens.map Token.content = used.map Token.withoutZeros := by
  obtain ⟨s, hs, hw⟩ := exists_scan_text t
  refine ⟨fun u => text_injective.eq_iff, ⟨s, hs, fun p hp => ?_⟩,
    fun source s' n p q hs' hp h => ?_⟩
  · have ha : Spelled t.words p.ahead [] := by
      rw [hp.ahead, List.drop_zero]
      exact ⟨s.tokens, (List.append_nil _).symm, hw⟩
    constructor
    · intro hr
      obtain ⟨q, hq, -, hend⟩ := denotes_parse.exists_ok (s := p) ⟨rfl, ha.reads hr⟩
      exact ⟨q, hq, List.isEmpty_iff.2 hend⟩
    · intro hr
      exact fails_parseWithin hr ha.depth_lt ha
  · have hl : Lexical s'.tokens := lexeme_of_scan hs'
    have hl : Lexical p.ahead := hp.ahead ▸ hl.mono (List.drop_suffix _ _)
    obtain ⟨used, e, hused⟩ := Reads.exists_words hl (denotes_parse.apply_ok h).2
    exact ⟨used, s, e, hs, hw.trans hused.symm⟩

def zerosInFront : TokenStream where
  tokens := [⟨.exclamation, "!", ⟨0, 0⟩⟩, ⟨.bareIdentifier, "bril.ptr", ⟨0, 1⟩⟩,
    ⟨.less, "<", ⟨0, 9⟩⟩, ⟨.intType, "i0064", ⟨0, 10⟩⟩, ⟨.greater, ">", ⟨0, 15⟩⟩]
  stop := ⟨0, 16⟩

theorem text_corresponds_zerosInFront :
    scan "!bril.ptr<i0064>" = .ok zerosInFront ∧
      (∃ q, parse (.ofTokens zerosInFront) = .ok (ptr (int 64)) q ∧ ∃ used s,
        zerosInFront.tokens = used ++ q.ahead ∧ scan (ptr (int 64)).text = .ok s ∧
          s.tokens.map Token.content = used.map Token.withoutZeros) ∧
      (∃ s q, scan (ptr (int 64)).text = .ok s ∧ parse (.ofTokens s) = .ok (ptr (int 64)) q) ∧
      ∃ s q, scan (ptr (int 0)).text = .ok s ∧
        parse (.ofTokens s) = .error ⟨.typeText (.zeroWidth "i0"), none⟩ q := by
  have hs : scan "!bril.ptr<i0064>" = .ok zerosInFront := scan_eq_of_toOption (by decide +kernel)
  have hr : (ptr (int 64)).Reads zerosInFront.tokens [] :=
    ⟨_, _, _, _, _, rfl, rfl, rfl, rfl, rfl, ⟨_, rfl, rfl, by rfl⟩, rfl⟩
  obtain ⟨q, hq, -⟩ := denotes_parse.exists_ok (s := .ofTokens zerosInFront) ⟨rfl, hr⟩
  obtain ⟨-, ⟨s, hscan, hback⟩, hread⟩ := text_corresponds (ptr (int 64))
  obtain ⟨-, ⟨s₀, hscan₀, hback₀⟩, -⟩ := text_corresponds (ptr (int 0))
  obtain ⟨q₁, hq₁, -⟩ := (hback _ (ParserState.at_ofTokens s)).1 (by simp [Regular])
  obtain ⟨q₀, hq₀⟩ := (hback₀ _ (ParserState.at_ofTokens s₀)).2 (by simp [Regular])
  exact ⟨hs, ⟨q, hq, hread _ _ 0 _ q hs (ParserState.at_ofTokens _) hq⟩, ⟨s, q₁, hscan, hq₁⟩,
    s₀, q₀, hscan₀, hq₀⟩

end Ty

end BrilIR
