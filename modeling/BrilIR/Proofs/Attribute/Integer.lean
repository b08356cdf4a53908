import Mathlib.Algebra.Group.Int.Defs
import BrilIR.Proofs.Grammar.Recognition
import BrilIR.Proofs.Printing.Survival

/-!
Integer attributes at the limits of their range. A sign and digits stand for a number of any size;
it is read exactly if 64 bits hold it, and refused at its digits otherwise.
-/

namespace BrilIR

open Token TokenStream BrilIR.Parser

theorem Token.Digits.exists_zeros {cs : List Char} (h : Digits cs) :
    ∃ zeros n, cs = List.replicate zeros '0' ++ Nat.toDigits 10 n := by
  obtain ⟨hne, hd⟩ := h
  induction cs with
  | nil => exact absurd rfl hne
  | cons c cs ih =>
    obtain ⟨hc, hcs⟩ := List.forall_mem_cons.1 hd
    by_cases hz : c = '0'
    · subst hz
      cases cs with
      | nil => exact ⟨0, 0, rfl⟩
      | cons d ds =>
        obtain ⟨zeros, n, e⟩ := ih (by simp) hcs
        exact ⟨zeros + 1, n, by rw [e, List.replicate_succ, List.cons_append]⟩
    · have hvalue : numeralValue (c :: cs) ≠ 0 := by
        intro h0
        have hle := le_foldl_numeral (10 * 0 + digitValue c) cs
        have hdigit : digitValue c = 0 := by
          rw [numeralValue, List.foldl_cons] at h0
          omega
        exact hz (by rw [← digitChar_digitValue hc, hdigit]; rfl)
      refine ⟨0, numeralValue (c :: cs), ?_⟩
      rw [toDigits_numeralValue hd hvalue, List.dropWhile_cons_of_neg (by simpa using hz)]
      rfl

theorem numeralValue_zeros (zeros n : Nat) :
    numeralValue (List.replicate zeros '0' ++ Nat.toDigits 10 n) = n := by
  rw [numeralValue_append, numeralValue_replicate_zero, numeralValue_toDigits]
  omega

def signedValue (negative : Bool) (n : Nat) : Int := if negative then -(n : Int) else n

theorem int64?_eq_none_iff {negative : Bool} {ds : List Char} : int64? negative ds = none ↔
    ¬ (-2 ^ 63 ≤ signedValue negative (numeralValue ds) ∧
      signedValue negative (numeralValue ds) ≤ 2 ^ 63 - 1) := by
  have hhalf : UInt64.size / 2 = 2 ^ 63 := rfl
  unfold int64? signedValue
  cases negative with
  | true =>
    simp only [hhalf, if_true, ite_eq_right_iff, reduceCtorEq, imp_false]
    omega
  | false =>
    simp only [hhalf, Bool.false_eq_true, if_false, ite_eq_right_iff, reduceCtorEq, imp_false]
    omega

namespace Attribute

variable {p q : ParserState} {negative : Bool} {t colon : Token} {ts : List Token} {u : Ty}

theorem parse_eq_parseNumber (hs : ReadsSign p.ahead negative (t :: ts)) (hk : t.kind = .integer) :
    parse p = parseNumber negative t { p with previous := t, ahead := ts } := by
  cases negative with
  | true =>
    obtain ⟨m, e, hm⟩ := hs
    have hpeek : peek p = .ok m p := by
      show EStateM.Result.ok p.peek p = _
      simp [ParserState.peek, ParserState.peekAt, e]
    have hminus : discard (expect .minus) p =
        .ok () { p with previous := m, ahead := t :: ts } :=
      discard_ok.2 ⟨m, expect_ok_iff.2 ⟨_, e, hm, rfl⟩⟩
    unfold parse
    rw [bind_apply, hpeek]
    simp only [hm, parseNegative]
    rw [bind_apply, hminus]
    rfl
  | false =>
    have e : p.ahead = t :: ts := Eq.symm hs
    have hpeek : peek p = .ok t p := by
      show EStateM.Result.ok p.peek p = _
      simp [ParserState.peek, ParserState.peekAt, e]
    have hdigits : expect .integer p = .ok t { p with previous := t, ahead := ts } :=
      expect_ok_iff.2 ⟨_, e, hk, rfl⟩
    unfold parse
    rw [bind_apply, hpeek]
    simp only [hk]
    rw [bind_apply, hdigits]

theorem parseTyped_ok {number : Ty → Attribute} (e : p.ahead = colon :: ts)
    (hc : colon.kind = .colon) (hu : Ty.parse { p with previous := colon, ahead := ts } = .ok u q) :
    parseTyped number p = .ok (number u) q :=
  bind_ok.2 ⟨(), _, discard_ok.2 ⟨colon, expect_ok_iff.2 ⟨ts, e, hc, rfl⟩⟩,
    bind_ok.2 ⟨u, q, hu, rfl⟩⟩

theorem parse_of_int64? {value : Int64} (hs : ReadsSign p.ahead negative (t :: colon :: ts))
    (hk : t.kind = .integer) (h : int64? negative t.lexeme.toList = some value)
    (hc : colon.kind = .colon) (hu : Ty.parse { p with previous := colon, ahead := ts } = .ok u q) :
    parse p = .ok (int value u) q := by
  have hrun := parse_eq_parseNumber hs hk
  have htyped : parseTyped (int value) { p with previous := t, ahead := colon :: ts } =
      .ok (int value u) q := parseTyped_ok rfl hc hu
  unfold parseNumber at hrun
  simp only [hk, h] at hrun
  exact hrun.trans htyped

/-- The range is looked at in front of the colon. -/
theorem parse_of_int64?_none (hs : ReadsSign p.ahead negative (t :: ts)) (hk : t.kind = .integer)
    (h : int64? negative t.lexeme.toList = none) :
    ∃ q', parse p = .error ⟨.integerRange ((if negative then "-" else "") ++ t.lexeme),
      some t.location⟩ q' := by
  have hrun := parse_eq_parseNumber hs hk
  unfold parseNumber at hrun
  simp only [hk, h] at hrun
  exact ⟨_, hrun⟩

/-- The digits of a number behind zeros, with a sign or none and a type, are read exactly if 64 bits
hold the number, and then as the number. Otherwise the error says so at the digits. What is printed
is read back, the number without a positive counterpart not excepted. -/
theorem parse_integer (hs : ReadsSign p.ahead negative (t :: colon :: ts))
    (hk : t.kind = .integer) (hd : Digits t.lexeme.toList) (hc : colon.kind = .colon)
    (hu : Ty.parse { p with previous := colon, ahead := ts } = .ok u q) :
    ∃ zeros n, t.lexeme.toList = List.replicate zeros '0' ++ Nat.toDigits 10 n ∧
      ((∃ a q', parse p = .ok a q') ↔
        -2 ^ 63 ≤ signedValue negative n ∧ signedValue negative n ≤ 2 ^ 63 - 1) ∧
      (∀ a q', parse p = .ok a q' →
        q' = q ∧ ∃ value : Int64, a = .int value u ∧ value.toInt = signedValue negative n) ∧
      (¬ (-2 ^ 63 ≤ signedValue negative n ∧ signedValue negative n ≤ 2 ^ 63 - 1) →
        ∃ q', parse p = .error ⟨.integerRange ((if negative then "-" else "") ++ t.lexeme),
          some t.location⟩ q') ∧
      ∀ value : Int64, ∃ s q', scan (int value u).text = .ok s ∧
        parse (.ofTokens s) = .ok (int value u) q' ∧ q'.isAtEnd = true := by
  obtain ⟨zeros, n, e⟩ := hd.exists_zeros
  have hvalue : numeralValue t.lexeme.toList = n := by rw [e, numeralValue_zeros]
  have hregular : u.Regular := (Ty.denotes_parse.apply_ok hu).2.regular
  have hprint (value : Int64) : ∃ s r, scan (int value u).text = .ok s ∧
      parse (.ofTokens s) = .ok (int value u) r ∧ r.isAtEnd = true :=
    exists_parse_text (a := int value u) hregular
  refine ⟨zeros, n, e, ?_⟩
  cases h : int64? negative t.lexeme.toList with
  | none =>
    -- the error comes in front of the colon, so the type does not matter
    have hout := int64?_eq_none_iff.1 h
    obtain ⟨q', herror⟩ := parse_of_int64?_none hs hk h
    have hnever (a : Attribute) (r : ParserState) : parse p ≠ .ok a r := by
      rw [herror]
      simp
    rw [hvalue] at hout
    exact ⟨⟨fun ⟨a, r, ha⟩ => absurd ha (hnever a r), fun hin => absurd hin hout⟩,
      fun a r ha => absurd ha (hnever a r), fun _ => ⟨q', herror⟩,
      hprint⟩
  | some value =>
    have hok := parse_of_int64? hs hk h hc hu
    have hexact : value.toInt = signedValue negative n := by
      rw [int64?_eq_some_iff.1 h, hvalue]
      rfl
    have hin : -2 ^ 63 ≤ signedValue negative n ∧ signedValue negative n ≤ 2 ^ 63 - 1 := by
      have hlo := value.le_toInt
      have hhi := value.toInt_lt
      omega
    refine ⟨⟨fun _ => hin, fun _ => ⟨_, _, hok⟩⟩, ?_, fun hout => absurd hin hout,
      hprint⟩
    intro a r ha
    cases hok.symm.trans ha
    exact ⟨rfl, value, rfl, hexact⟩

def lowestTokens : List Token :=
  [⟨.minus, "-", ⟨0, 0⟩⟩, ⟨.integer, "009223372036854775808", ⟨0, 2⟩⟩, ⟨.colon, ":", ⟨0, 24⟩⟩,
    ⟨.intType, "i64", ⟨0, 26⟩⟩]

/-- Behind its sign the number is in range, and its digits alone are not. -/
theorem parse_lowest : scan "- 009223372036854775808 : i64" = .ok ⟨lowestTokens, ⟨0, 29⟩⟩ ∧
    (∃ q, parse (.ofTokens ⟨lowestTokens, ⟨0, 29⟩⟩) =
      .ok (int (-9223372036854775808) (.int 64)) q) ∧
    ∃ q, parse (.ofTokens ⟨lowestTokens.tail, ⟨0, 29⟩⟩) =
      .error ⟨.integerRange "009223372036854775808", some ⟨0, 2⟩⟩ q := by
  have hdigits : Digits "009223372036854775808".toList :=
    ⟨by decide, List.all_eq_true.1 (by decide)⟩
  have number {zeros n : Nat} (e : "009223372036854775808".toList =
      List.replicate zeros '0' ++ Nat.toDigits 10 n) : n = 9223372036854775808 := by
    rw [← numeralValue_zeros zeros n, ← e]
    decide
  refine ⟨by decide, ?_, ?_⟩
  · obtain ⟨zeros, n, e, hiff, hok, -⟩ :=
      parse_integer (p := .ofTokens ⟨lowestTokens, ⟨0, 29⟩⟩) (u := .int 64)
        (show ReadsSign _ true _ from ⟨_, rfl, rfl⟩) rfl hdigits rfl rfl
    cases number e
    obtain ⟨a, q, h⟩ := hiff.2 (by decide)
    obtain ⟨-, value, rfl, hvalue⟩ := hok a q h
    have hlowest : value = -9223372036854775808 := Int64.toInt_inj.1 (hvalue.trans (by decide))
    exact ⟨q, by rw [h, hlowest]⟩
  · obtain ⟨zeros, n, e, -, -, hout, -⟩ :=
      parse_integer (p := .ofTokens ⟨lowestTokens.tail, ⟨0, 29⟩⟩) (u := .int 64)
        (show ReadsSign _ false _ from rfl) rfl hdigits rfl rfl
    cases number e
    exact hout (by decide)

end Attribute

end BrilIR
