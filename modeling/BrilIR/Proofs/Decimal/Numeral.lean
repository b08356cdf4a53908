import BrilIR.Decimal.Numeral

/-! Numerals read back: digits stand for the number that they were written for. -/

namespace BrilIR

variable {cs ds : List Char}

theorem numeralValue_eq_ofDigitChars (cs : List Char) :
    numeralValue cs = Nat.ofDigitChars 10 cs 0 := by
  rw [Nat.ofDigitChars_eq_foldl]
  rfl

theorem numeralValue_append (cs ds : List Char) :
    numeralValue (cs ++ ds) = numeralValue cs * Nat.pow 10 ds.length + numeralValue ds := by
  simp only [numeralValue_eq_ofDigitChars, Nat.ofDigitChars_append, Nat.pow_eq]
  rw [Nat.ofDigitChars_eq_ofDigitChars_zero, Nat.mul_comm]

theorem numeralValue_toDigits (n : Nat) : numeralValue (Nat.toDigits 10 n) = n := by
  rw [numeralValue_eq_ofDigitChars, Nat.ofDigitChars_ten_toDigits]

theorem numeralValue_replicate_zero (n : Nat) : numeralValue (List.replicate n '0') = 0 := by
  rw [numeralValue_eq_ofDigitChars, Nat.ofDigitChars_replicate_zero, Nat.mul_zero]

theorem isDigit_of_mem_toDigits {n : Nat} : ∀ c ∈ Nat.toDigits 10 n, c.isDigit = true :=
  fun _ h => Nat.isDigit_of_mem_toDigits (by decide) (by decide) h

theorem le_foldl_numeral (n : Nat) (cs : List Char) :
    n ≤ cs.foldl (fun n c => 10 * n + digitValue c) n := by
  induction cs generalizing n with
  | nil => exact Nat.le_refl n
  | cons c cs ih =>
    have := ih (10 * n + digitValue c)
    rw [List.foldl_cons]
    omega

theorem readDigits_ok {bound n : Nat} (hd : ∀ c ∈ cs, c.isDigit = true)
    (hb : cs.foldl (fun n c => 10 * n + digitValue c) n ≤ bound) :
    readDigits bound n cs = .ok (cs.foldl (fun n c => 10 * n + digitValue c) n) := by
  induction cs generalizing n with
  | nil => rfl
  | cons c cs ih =>
    obtain ⟨hc, hcs⟩ := List.forall_mem_cons.1 hd
    have hle : 10 * n + digitValue c ≤ bound := Nat.le_trans (le_foldl_numeral _ cs) hb
    simp only [readDigits, hc, if_true, if_pos hle, List.foldl_cons]
    exact ih hcs hb

theorem eq_of_readDigits {bound n m : Nat} (h : readDigits bound n cs = .ok m) :
    m = cs.foldl (fun n c => 10 * n + digitValue c) n := by
  induction cs generalizing n with
  | nil =>
    cases h
    rfl
  | cons c cs ih =>
    simp only [readDigits] at h
    split at h
    · split at h
      · exact ih h
      · cases h
    · cases h

theorem le_bound_of_readNumeral {bound n : Nat} (h : readNumeral bound cs = .ok n) : n ≤ bound := by
  unfold readNumeral at h
  split at h
  · cases h
  · cases h
  · exact le_bound_of_readDigits (Nat.zero_le _) h
  · exact le_bound_of_readDigits (Nat.zero_le _) h

theorem readNumeral_toDigits {bound n : Nat} (h : n ≤ bound) :
    readNumeral bound (Nat.toDigits 10 n) = .ok n := by
  have hv : (Nat.toDigits 10 n).foldl (fun n c => 10 * n + digitValue c) 0 = n :=
    numeralValue_toDigits n
  have hle : (Nat.toDigits 10 n).foldl (fun n c => 10 * n + digitValue c) 0 ≤ bound := by rwa [hv]
  have hr := readDigits_ok isDigit_of_mem_toDigits hle
  rw [hv] at hr
  have hd := @isDigit_of_mem_toDigits n
  cases hs : Nat.toDigits 10 n with
  | nil => exact absurd hs Nat.toDigits_ne_nil
  | cons c cs =>
    rw [hs] at hr hd
    have hc : c ≠ '+' := by
      rintro rfl
      exact absurd (hd '+' (by simp)) (by decide)
    unfold readNumeral
    split
    · next e => cases e
    · next e => exact absurd (List.cons.inj e).1 hc
    · next e => exact absurd (List.cons.inj e).1 hc
    · exact hr

theorem digitValue_lt {c : Char} (h : c.isDigit = true) : digitValue c < 10 := by
  simp only [Char.isDigit_iff_toNat] at h
  have hnine : '9'.toNat = '0'.toNat + 9 := rfl
  unfold digitValue
  omega

theorem digitChar_digitValue {c : Char} (h : c.isDigit = true) : (digitValue c).digitChar = c := by
  have hlt := digitValue_lt h
  have hzero : '0'.toNat = 48 := rfl
  have hle : '0'.toNat ≤ c.toNat := (Char.isDigit_iff_toNat.1 h).1
  have hval : digitValue c = c.toNat - '0'.toNat := rfl
  apply Char.toNat_inj.1
  rw [Nat.toNat_digitChar_of_lt_ten hlt]
  omega

theorem toDigits_foldl {n : Nat} (hn : 0 < n) (hd : ∀ c ∈ cs, c.isDigit = true) :
    Nat.toDigits 10 (cs.foldl (fun n c => 10 * n + digitValue c) n) = Nat.toDigits 10 n ++ cs := by
  induction cs generalizing n with
  | nil => rw [List.foldl_nil, List.append_nil]
  | cons c cs ih =>
    obtain ⟨hc, hcs⟩ := List.forall_mem_cons.1 hd
    have hlt := digitValue_lt hc
    rw [List.foldl_cons, ih (by omega) hcs, ← Nat.toDigits_append_toDigits (by decide) hn hlt,
      Nat.toDigits_of_lt_base hlt, digitChar_digitValue hc, List.append_assoc,
      List.singleton_append]

/-- The digits of a number that is not zero are those that it was read from, without the zeros in
front. -/
theorem toDigits_numeralValue (hd : ∀ c ∈ cs, c.isDigit = true) (h : numeralValue cs ≠ 0) :
    Nat.toDigits 10 (numeralValue cs) = cs.dropWhile (· == '0') := by
  induction cs with
  | nil => exact absurd rfl h
  | cons c cs ih =>
    obtain ⟨hc, hcs⟩ := List.forall_mem_cons.1 hd
    by_cases hz : c = '0'
    · subst hz
      rw [List.dropWhile_cons_of_pos (by simp)]
      exact ih hcs h
    · have hlt := digitValue_lt hc
      have hpos : 0 < digitValue c := by
        refine Nat.pos_of_ne_zero fun h0 => hz ?_
        rw [← digitChar_digitValue hc, h0]
        rfl
      have hvalue : numeralValue (c :: cs) =
          cs.foldl (fun n c => 10 * n + digitValue c) (digitValue c) := by
        rw [numeralValue, List.foldl_cons, Nat.mul_zero, Nat.zero_add]
      rw [List.dropWhile_cons_of_neg (by simpa using hz), hvalue, toDigits_foldl hpos hcs,
        Nat.toDigits_of_lt_base hlt, digitChar_digitValue hc, List.singleton_append]

theorem toString_int (i : Int) :
    toString i = (if i < 0 then "-" else "") ++ toString i.natAbs := by
  cases i with
  | ofNat n =>
    rw [if_neg (by simp), String.empty_append]
    rfl
  | negSucc n =>
    rw [if_pos (Int.negSucc_lt_zero n)]
    rfl

end BrilIR
