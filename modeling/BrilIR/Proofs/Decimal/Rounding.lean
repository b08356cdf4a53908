import BrilIR.Decimal.Shortest
import BrilIR.Proofs.Decimal.Numeral

/-!
Rounding depends on values only: fractions that are equal are rounded alike, decimal numbers that
differ in zeros at the end too, and a double is rounded to itself.
-/

namespace BrilIR

namespace Binary64

theorem roundHalfEven_mul (num den : Nat) {k : Nat} (hk : 0 < k) :
    roundHalfEven (num * k) (den * k) = roundHalfEven num den := by
  have hlt (a b : Nat) : a * k < b * k ↔ a < b := Nat.mul_lt_mul_right hk
  simp only [roundHalfEven, Nat.mul_div_mul_right _ _ hk, Nat.mul_mod_mul_right, ← Nat.mul_assoc,
    hlt]

theorem codeOfUnits_mul (num den : Nat) {k : Nat} (hk : 0 < k) :
    codeOfUnits (num * k) (den * k) = codeOfUnits num den := by
  simp only [codeOfUnits, Nat.mul_div_mul_right _ _ hk]
  rw [Nat.mul_right_comm, roundHalfEven_mul _ _ hk]

theorem codeOfUnits_congr {num den num' den' : Nat} (hd : 0 < den) (hd' : 0 < den')
    (h : num * den' = num' * den) : codeOfUnits num den = codeOfUnits num' den' := by
  rw [← codeOfUnits_mul num den hd', ← codeOfUnits_mul num' den' hd, h, Nat.mul_comm den]

theorem roundHalfEven_one (n : Nat) : roundHalfEven n 1 = n := by
  simp [roundHalfEven, Nat.mod_one]

/-- Every finite code is the code of its units. -/
theorem codeOfUnits_units {code : Nat} (h : code < infinityCode) :
    codeOfUnits (units code) 1 = code := by
  have hmin : min code infinityCode = code := Nat.min_eq_left (Nat.le_of_lt h)
  by_cases hs : code < 2 ^ 52
  · have hlog : code.log2 - 52 = 0 := by
      by_cases hz : code = 0
      · rw [hz]
        rfl
      · have := (Nat.log2_lt hz).2 hs
        omega
    simp only [units, Nat.pow_eq, if_pos hs, codeOfUnits, Nat.div_one, hlog, Nat.zero_mul,
      Nat.pow_zero, Nat.mul_one, roundHalfEven_one, Nat.zero_add, hmin]
  · -- a mantissa of 53 binary digits, shifted
    obtain ⟨s, hq⟩ : ∃ s, code / 2 ^ 52 = s + 1 := ⟨code / 2 ^ 52 - 1, by omega⟩
    have hcode : code = (s + 1) * 2 ^ 52 + code % 2 ^ 52 := by
      rw [← hq, Nat.mul_comm]
      exact (Nat.div_add_mod code (2 ^ 52)).symm
    have hm : code % 2 ^ 52 < 2 ^ 52 := Nat.mod_lt _ (by decide)
    have hu : units code = (2 ^ 52 + code % 2 ^ 52) * 2 ^ s := by
      simp only [units, Nat.pow_eq, if_neg hs, hq, Nat.add_sub_cancel]
    generalize code % 2 ^ 52 = m at hcode hm hu
    have hpos : 0 < 2 ^ s := Nat.two_pow_pos s
    have hlog : ((2 ^ 52 + m) * 2 ^ s).log2 = s + 52 := by
      have hne : (2 ^ 52 + m) * 2 ^ s ≠ 0 := Nat.ne_of_gt (Nat.mul_pos (by omega) hpos)
      have hlow : 2 ^ (s + 52) = 2 ^ 52 * 2 ^ s := by rw [Nat.pow_add, Nat.mul_comm]
      have hhigh : 2 ^ (s + 52 + 1) = 2 ^ 53 * 2 ^ s := by
        rw [Nat.add_assoc, Nat.pow_add, Nat.mul_comm]
      rw [Nat.log2_eq_iff hne, hlow, hhigh]
      exact ⟨Nat.mul_le_mul_right _ (by omega), (Nat.mul_lt_mul_right hpos).2 (by omega)⟩
    have hround : roundHalfEven ((2 ^ 52 + m) * 2 ^ s) (1 * 2 ^ s) = 2 ^ 52 + m := by
      rw [roundHalfEven_mul _ _ hpos, roundHalfEven_one]
    simp only [codeOfUnits, Nat.pow_eq, Nat.div_one, hu, hlog, Nat.add_sub_cancel, hround]
    rw [← Nat.add_assoc, ← Nat.succ_mul, ← hcode, hmin]

theorem codeOfUnits_eq_infinity {num den m : Nat} (hd : 0 < den) (hm : 2099 ≤ m)
    (h : den * Nat.pow 2 m ≤ num) : codeOfUnits num den = infinityCode := by
  have hle : 2 ^ m ≤ num / den := (Nat.le_div_iff_mul_le hd).2 (by rwa [Nat.mul_comm])
  have hne : num / den ≠ 0 := Nat.ne_of_gt (Nat.lt_of_lt_of_le (Nat.two_pow_pos _) hle)
  have hlog : m ≤ (num / den).log2 := (Nat.le_log2 hne).2 hle
  refine Nat.min_eq_right (Nat.le_trans ?_ (Nat.le_add_right _ _))
  exact Nat.mul_le_mul_right _ (by omega)

end Binary64

namespace Decimal

open Binary64

def pad (d : Decimal) (k : Nat) : Decimal := ⟨d.digits * Nat.pow 10 k, d.exponent - k⟩

theorem pad_zero (d : Decimal) : d.pad 0 = d := by
  obtain ⟨n, e⟩ := d
  simp [pad]

theorem length_toString (n : Nat) : (toString n).length = (Nat.toDigits 10 n).length := by
  rw [← String.length_toList]
  simp

theorem length_toDigits_mul {n : Nat} (hn : 0 < n) (k : Nat) :
    (Nat.toDigits 10 (n * Nat.pow 10 k)).length = (Nat.toDigits 10 n).length + k := by
  rw [Nat.pow_eq]
  induction k with
  | zero => simp
  | succ k ih =>
    have hpos : 0 < n * 10 ^ k := Nat.mul_pos hn (Nat.pow_pos (by decide))
    have h := Nat.toDigits_append_toDigits (b := 10) (d := 0) (by decide) hpos (by decide)
    rw [Nat.pow_succ, ← Nat.mul_assoc, Nat.mul_comm _ 10]
    rw [Nat.add_zero, Nat.toDigits_zero] at h
    rw [← h, List.length_append, ih]
    rfl

theorem ten_pow_pad (e : Int) (k : Nat) :
    Nat.pow 10 k * Nat.pow 10 (e - k).toNat * Nat.pow 10 (-e).toNat =
      Nat.pow 10 e.toNat * Nat.pow 10 (-(e - k)).toNat := by
  simp only [Nat.pow_eq]
  rw [← Nat.pow_add, ← Nat.pow_add, ← Nat.pow_add]
  congr 1
  omega

/-- A number beyond the range stays there however many zeros its digits take over. -/
theorem codeOfUnits_pad_eq_infinity {n : Nat} (hn : 0 < n) {e : Int} (he : 400 < e) (k : Nat) :
    codeOfUnits (n * Nat.pow 10 k * Nat.pow 10 (e - k).toNat * unitsPerOne)
      (Nat.pow 10 (-(e - k)).toNat) = infinityCode := by
  have hbits := unitBits_eq
  refine codeOfUnits_eq_infinity (Nat.pow_pos (by decide)) (m := 3 * e.toNat + unitBits)
    (by omega) ?_
  have hpow : 2 ^ (3 * e.toNat) ≤ 10 ^ e.toNat := by
    rw [Nat.pow_mul]
    exact Nat.pow_le_pow_left (by decide) _
  have hexp : 10 ^ e.toNat * 10 ^ (-(e - k)).toNat = 10 ^ k * 10 ^ (e - k).toNat := by
    have hzero : (-e).toNat = 0 := by omega
    have h := ten_pow_pad e k
    simp only [Nat.pow_eq, hzero, Nat.pow_zero, Nat.mul_one] at h
    exact h.symm
  have hunit : 2 ^ (3 * e.toNat + unitBits) = 2 ^ (3 * e.toNat) * unitsPerOne := by
    rw [Nat.pow_add, unitsPerOne, Nat.pow_eq]
  simp only [Nat.pow_eq]
  calc 10 ^ (-(e - k)).toNat * 2 ^ (3 * e.toNat + unitBits)
      = 2 ^ (3 * e.toNat) * 10 ^ (-(e - k)).toNat * unitsPerOne := by
        rw [hunit, ← Nat.mul_assoc, Nat.mul_comm (10 ^ _)]
    _ ≤ 10 ^ e.toNat * 10 ^ (-(e - k)).toNat * unitsPerOne :=
        Nat.mul_le_mul_right _ (Nat.mul_le_mul_right _ hpow)
    _ = 10 ^ k * 10 ^ (e - k).toNat * unitsPerOne := by rw [hexp]
    _ ≤ n * (10 ^ k * 10 ^ (e - k).toNat * unitsPerOne) := Nat.le_mul_of_pos_left _ hn
    _ = n * 10 ^ k * 10 ^ (e - k).toNat * unitsPerOne := by simp only [Nat.mul_assoc]

theorem codeOfUnits_pad (n : Nat) (e : Int) (k : Nat) :
    codeOfUnits (n * Nat.pow 10 k * Nat.pow 10 (e - k).toNat * unitsPerOne)
        (Nat.pow 10 (-(e - k)).toNat) =
      codeOfUnits (n * Nat.pow 10 e.toNat * unitsPerOne) (Nat.pow 10 (-e).toNat) := by
  refine codeOfUnits_congr (Nat.pow_pos (by decide)) (Nat.pow_pos (by decide)) ?_
  have hexp := ten_pow_pad e k
  calc n * Nat.pow 10 k * Nat.pow 10 (e - k).toNat * unitsPerOne * Nat.pow 10 (-e).toNat
      = n * (Nat.pow 10 k * Nat.pow 10 (e - k).toNat * Nat.pow 10 (-e).toNat) * unitsPerOne := by
        rw [Nat.mul_right_comm]
        simp only [Nat.mul_assoc]
    _ = n * (Nat.pow 10 e.toNat * Nat.pow 10 (-(e - k)).toNat) * unitsPerOne := by rw [hexp]
    _ = n * Nat.pow 10 e.toNat * unitsPerOne * Nat.pow 10 (-(e - k)).toNat := by
        rw [Nat.mul_right_comm _ unitsPerOne]
        simp only [Nat.mul_assoc]

theorem codeOfDecimal_pad (d : Decimal) (k : Nat) : codeOfDecimal (d.pad k) = codeOfDecimal d := by
  obtain ⟨n, e⟩ := d
  by_cases hn : n = 0
  · simp [pad, codeOfDecimal, hn]
  · have hpos : 0 < n := Nat.pos_of_ne_zero hn
    have hn' : n * Nat.pow 10 k ≠ 0 := Nat.ne_of_gt (Nat.mul_pos hpos (Nat.pow_pos (by decide)))
    have hlen : e - k + (toString (n * Nat.pow 10 k)).length = e + (toString n).length := by
      have h := length_toDigits_mul hpos k
      rw [length_toString, length_toString, h]
      omega
    have hpad : (⟨n, e⟩ : Decimal).pad k = ⟨n * Nat.pow 10 k, e - k⟩ := rfl
    rw [hpad]
    simp only [codeOfDecimal, if_neg hn, if_neg hn', hlen]
    by_cases hk : 400 < e - k
    · rw [if_pos hk, if_pos (by omega)]
    rw [if_neg hk]
    by_cases he : 400 < e
    · rw [if_pos he, if_neg (by omega), codeOfUnits_pad_eq_infinity hpos he]
    rw [if_neg he, codeOfUnits_pad]

theorem ten_pow_le_five_pow {k m : Nat} (h : 3 * k ≤ 2 * m) : Nat.pow 10 k ≤ Nat.pow 5 m := by
  have hsquare : (10 ^ k) ^ 2 ≤ (5 ^ m) ^ 2 := by
    calc (10 ^ k) ^ 2 = (10 ^ 2) ^ k := Nat.pow_right_comm ..
      _ ≤ (5 ^ 3) ^ k := Nat.pow_le_pow_left (by decide) k
      _ = 5 ^ (3 * k) := (Nat.pow_mul ..).symm
      _ ≤ 5 ^ (2 * m) := Nat.pow_le_pow_right (by decide) h
      _ = (5 ^ m) ^ 2 := by rw [Nat.mul_comm, Nat.pow_mul]
  exact (Nat.pow_le_pow_iff_left (by decide)).1 hsquare

theorem exact_digits (code : Nat) : (exact code).digits = units code * Nat.pow 5 unitBits := rfl

theorem lt_length_exact {code k : Nat} (hu : 0 < units code) (hk : 0 < k)
    (h : 3 * k ≤ 2 * unitBits) : k < (toString (exact code).digits).length := by
  rw [length_toString, ← Nat.not_le, Nat.length_toDigits_le_iff (by decide) hk, Nat.not_lt,
    exact_digits]
  exact Nat.le_trans (ten_pow_le_five_pow h) (Nat.le_mul_of_pos_left _ hu)

theorem codeOfDecimal_exact {code : Nat} (hne : code ≠ 0) (h : code < infinityCode) :
    codeOfDecimal (exact code) = code := by
  have hu : 0 < units code := by
    unfold units
    split
    · exact Nat.pos_of_ne_zero hne
    · exact Nat.mul_pos (Nat.add_pos_left (Nat.two_pow_pos 52) _) (Nat.two_pow_pos _)
  have hbits := unitBits_eq
  have hexp : (exact code).exponent = -unitBits := rfl
  have hup : (exact code).exponent.toNat = 0 := by omega
  have hdown : (-(exact code).exponent).toNat = unitBits := by omega
  have hdigits : (exact code).digits ≠ 0 := by
    rw [exact_digits]
    exact Nat.ne_of_gt (Nat.mul_pos hu (Nat.pow_pos (by decide)))
  -- enough digits for the number not to be taken for one below the range
  have hlarge : ¬ (exact code).exponent + (toString (exact code).digits).length < -400 := by
    have hlen := lt_length_exact hu (k := 673) (by decide) (by omega)
    omega
  have hten : 5 ^ unitBits * unitsPerOne = 10 ^ unitBits := by
    rw [unitsPerOne, Nat.pow_eq, ← Nat.mul_pow]
  unfold codeOfDecimal
  rw [if_neg hdigits, if_neg (by omega), if_neg hlarge, hup, hdown, exact_digits]
  simp only [Nat.pow_eq]
  rw [Nat.pow_zero, Nat.mul_one, Nat.mul_assoc, hten]
  have hcode := codeOfUnits_mul (units code) 1 (Nat.pow_pos (by decide) : 0 < 10 ^ unitBits)
  rw [Nat.one_mul] at hcode
  rw [hcode, codeOfUnits_units h]

theorem codeOfDecimal_of_ofDigits? {code n : Nat} {d : Decimal} (h : ofDigits? code n = some d) :
    codeOfDecimal d = code := by
  simp only [ofDigits?] at h
  split at h
  · next hb =>
    split at h
    · next ha =>
      cases h
      exact ha.1
    · cases h
      exact hb
  · split at h
    · next ha =>
      cases h
      exact ha
    · cases h

/-- The digits that are written read back. -/
theorem codeOfDecimal_shortest {code : Nat} (hne : code ≠ 0) (h : code < infinityCode) :
    codeOfDecimal (shortest code) = code := by
  unfold shortest
  cases hs : (List.range 17).findSome? fun n => ofDigits? code (n + 1) with
  | none => exact codeOfDecimal_exact hne h
  | some d =>
    obtain ⟨n, -, hn⟩ := List.exists_of_findSome?_eq_some hs
    exact codeOfDecimal_of_ofDigits? hn

end Decimal

end BrilIR
