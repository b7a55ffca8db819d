import Mathlib.Algebra.Order.Ring.Int
import Terracoin.Primitives.Compact

/-!
# The form `GetCompact` gives a number

`GetCompact` keeps the size of a number in bytes and its leading bytes, in a form that `SetCompact`
and `GetCompact` give back (`getCompact_compactValue`). What is cut off is less than a `2 ^ 15`-th
of the number.
-/

namespace Terracoin

open Mantissa

variable {n : Nat}

/-! ## Size and mantissa -/

/-- The mantissa, without sign, that `GetCompact` keeps. -/
def compactWord (n : Nat) : Nat :=
  if 2 ^ 23 ≤ leadingBytes n then leadingBytes n / 2 ^ 8 else leadingBytes n

/-- The size `GetCompact` keeps beside it. -/
def compactSize (n : Nat) : Nat := if 2 ^ 23 ≤ leadingBytes n then numBytes n + 1 else numBytes n

def signedCompact (fNegative : Bool) (nSize nWord : Nat) : UInt32 :=
  UInt32.ofNat (nWord + (if fNegative then 2 ^ 23 else 0) + nSize * 2 ^ 24)

theorem getCompact_eq (bn : Int) :
    getCompact bn = signedCompact (bn < 0) (compactSize bn.natAbs) (compactWord bn.natAbs) := by
  have hcarry : leadingBytes bn.natAbs / 2 ^ 23 % 2 = 1 ↔ 2 ^ 23 ≤ leadingBytes bn.natAbs := by
    have := leadingBytes_lt bn.natAbs
    omega
  have hget : getCompact bn = UInt32.ofNat
      ((if leadingBytes bn.natAbs / 2 ^ 23 % 2 = 1 then leadingBytes bn.natAbs / 2 ^ 8
          else leadingBytes bn.natAbs) +
        (if bn < 0 then 2 ^ 23 else 0) +
        (if leadingBytes bn.natAbs / 2 ^ 23 % 2 = 1 then numBytes bn.natAbs + 1
          else numBytes bn.natAbs) * 2 ^ 24) := rfl
  unfold signedCompact compactSize compactWord
  rw [hget]
  by_cases h : 2 ^ 23 ≤ leadingBytes bn.natAbs
  · rw [if_pos (hcarry.mpr h), if_pos (hcarry.mpr h), if_pos h, if_pos h]
    simp only [decide_eq_true_eq]
  · rw [if_neg (mt hcarry.mp h), if_neg (mt hcarry.mp h), if_neg h, if_neg h]
    simp only [decide_eq_true_eq]

theorem toNat_signedCompact (fNegative : Bool) {nSize nWord : Nat} (hsize : nSize < 2 ^ 8)
    (hword : nWord < 2 ^ 23) : (signedCompact fNegative nSize nWord).toNat =
      nWord + (if fNegative then 2 ^ 23 else 0) + nSize * 2 ^ 24 := by
  refine UInt32.toNat_ofNat_of_lt' ?_
  change _ < 2 ^ 32
  split <;> omega

theorem setCompact_signedCompact {fNegative : Bool} {nSize nWord : Nat} (hsize : nSize < 2 ^ 8)
    (hword : nWord < 2 ^ 23) :
    setCompact (signedCompact fNegative nSize nWord) =
      if fNegative then -(compactValue nSize nWord : Int) else compactValue nSize nWord := by
  have hnat := toNat_signedCompact fNegative hsize hword
  unfold setCompact
  dsimp only
  rw [hnat]
  cases fNegative with
  | false =>
    simp only [Bool.false_eq_true, if_false, Nat.add_zero]
    rw [show (nWord + nSize * 2 ^ 24) / 2 ^ 24 = nSize by omega,
      show (nWord + nSize * 2 ^ 24) % 2 ^ 23 = nWord by omega, if_neg (by omega)]
    rfl
  | true =>
    simp only [if_true]
    rw [show (nWord + 2 ^ 23 + nSize * 2 ^ 24) / 2 ^ 24 = nSize by omega,
      show (nWord + 2 ^ 23 + nSize * 2 ^ 24) % 2 ^ 23 = nWord by omega, if_pos (by omega)]
    rfl

theorem leadingBytes_eq (n : Nat) : leadingBytes n = n * 2 ^ 24 / 2 ^ (8 * numBytes n) := by
  unfold leadingBytes
  split
  · rename_i h
    have hpow : (2 : Nat) ^ 24 = 2 ^ (8 * (3 - numBytes n)) * 2 ^ (8 * numBytes n) := by
      rw [← pow_add]
      congr 1
      omega
    rw [hpow, ← mul_assoc, Nat.mul_div_cancel _ (Nat.two_pow_pos _)]
  · rename_i h
    have hpow : (2 : Nat) ^ (8 * numBytes n) = 2 ^ (8 * (numBytes n - 3)) * 2 ^ 24 := by
      rw [← pow_add]
      congr 1
      omega
    rw [hpow, Nat.mul_div_mul_right _ _ (Nat.two_pow_pos _)]

/-! ## Canonical forms -/

/-- What `GetCompact` keeps of a number other than zero: the mantissa has at least two significant
bytes, and no digits below the point. -/
structure IsCompactForm (nSize nWord : Nat) : Prop where
  low : 2 ^ 15 ≤ nWord
  high : nWord < 2 ^ 23
  whole : compactValue nSize nWord * 2 ^ 24 = nWord * 2 ^ (8 * nSize)

theorem compactWord_lt (n : Nat) : compactWord n < 2 ^ 23 := by
  have := leadingBytes_lt n
  unfold compactWord
  split <;> omega

theorem compactValue_whole {nSize nWord : Nat}
    (h : nSize ≤ 3 → 2 ^ (8 * (3 - nSize)) ∣ nWord) :
    compactValue nSize nWord * 2 ^ 24 = nWord * 2 ^ (8 * nSize) := by
  unfold compactValue
  split
  · rename_i h3
    have hpow : (2 : Nat) ^ 24 = 2 ^ (8 * (3 - nSize)) * 2 ^ (8 * nSize) := by
      rw [← pow_add]
      congr 1
      omega
    rw [hpow, ← mul_assoc, Nat.div_mul_cancel (h h3)]
  · rename_i h3
    have hpow : (2 : Nat) ^ (8 * nSize) = 2 ^ (8 * (nSize - 3)) * 2 ^ 24 := by
      rw [← pow_add]
      congr 1
      omega
    rw [hpow, mul_assoc]

theorem isCompactForm_getCompact (hpos : 0 < n) : IsCompactForm (compactSize n) (compactWord n) := by
  have hlead : 2 ^ 16 ≤ leadingBytes n := by
    obtain ⟨k, hk⟩ : ∃ k, numBytes n = k + 1 := by
      refine ⟨numBytes n - 1, ?_⟩
      have : 0 < numBytes n := lt_numBytes_iff.mpr hpos
      omega
    have hlow : 2 ^ (8 * k) ≤ n := lt_numBytes_iff.mp (by omega)
    rw [leadingBytes_eq, hk, Nat.le_div_iff_mul_le (Nat.two_pow_pos _)]
    calc 2 ^ 16 * 2 ^ (8 * (k + 1)) = 2 ^ (8 * k) * 2 ^ 24 := by rw [← pow_add, ← pow_add]; congr 1; omega
      _ ≤ n * 2 ^ 24 := Nat.mul_le_mul_right _ hlow
  have hexact : numBytes n ≤ 3 → leadingBytes n = n * 2 ^ (8 * (3 - numBytes n)) := by
    intro h3
    unfold leadingBytes
    rw [if_pos h3]
  refine ⟨?_, compactWord_lt n, compactValue_whole ?_⟩
  · unfold compactWord
    split <;> omega
  · unfold compactSize compactWord
    split
    · intro h3
      have hsplit : 2 ^ (8 * (3 - numBytes n)) = 2 ^ (8 * (3 - (numBytes n + 1))) * 2 ^ 8 := by
        rw [← pow_add]
        congr 1
        omega
      rw [hexact (by omega), hsplit, ← mul_assoc, Nat.mul_div_cancel _ (by decide)]
      exact Nat.dvd_mul_left _ _
    · intro h3
      rw [hexact h3]
      exact Nat.dvd_mul_left _ _

/-- `GetCompact` gives a canonical form back. -/
theorem IsCompactForm.size_word {nSize nWord : Nat} (h : IsCompactForm nSize nWord) :
    compactSize (compactValue nSize nWord) = nSize ∧
      compactWord (compactValue nSize nWord) = nWord := by
  obtain ⟨hlow, hhigh, hwhole⟩ := h
  generalize compactValue nSize nWord = v at hwhole
  obtain ⟨k, rfl⟩ : ∃ k, nSize = k + 1 := by
    refine ⟨nSize - 1, ?_⟩
    by_contra h0
    obtain rfl : nSize = 0 := by omega
    omega
  have hpow : (2 : Nat) ^ (8 * (k + 1)) = 2 ^ (8 * k) * 2 ^ 8 := by
    rw [← pow_add]
    rfl
  have hP : 0 < 2 ^ (8 * k) := Nat.two_pow_pos _
  by_cases h16 : 2 ^ 16 ≤ nWord
  · have hbytes : numBytes v = k + 1 := by
      refine le_antisymm (numBytes_le_iff.mpr ?_) (lt_numBytes_iff.mpr ?_)
      · rw [hpow] at hwhole ⊢
        nlinarith
      · rw [hpow] at hwhole
        nlinarith
    have hlead : leadingBytes v = nWord := by
      rw [leadingBytes_eq, hbytes, hwhole, Nat.mul_div_cancel _ (Nat.two_pow_pos _)]
    unfold compactSize compactWord
    rw [hlead, if_neg (by omega), if_neg (by omega)]
    exact ⟨hbytes, rfl⟩
  · have hbytes : numBytes v = k := by
      refine le_antisymm (numBytes_le_iff.mpr ?_) ?_
      · rw [hpow] at hwhole
        nlinarith
      · cases k with
        | zero => exact Nat.zero_le _
        | succ j =>
          have hpow' : (2 : Nat) ^ (8 * (j + 1)) = 2 ^ (8 * j) * 2 ^ 8 := by
            rw [← pow_add]
            rfl
          refine lt_numBytes_iff.mpr ?_
          rw [hpow, hpow'] at hwhole
          nlinarith
    have hlead : leadingBytes v = nWord * 2 ^ 8 := by
      rw [leadingBytes_eq, hbytes, hwhole, hpow, Nat.mul_comm (2 ^ (8 * k)), ← mul_assoc,
        Nat.mul_div_cancel _ hP]
    unfold compactSize compactWord
    rw [hlead, if_pos (by omega), if_pos (by omega), Nat.mul_div_cancel _ (by decide), hbytes]
    exact ⟨rfl, rfl⟩

/-! ## The range of the size -/

/-- The bits of the numbers whose size, after the mantissa gave up a byte, fits one byte. -/
def compactBits : Nat := 2039

theorem compactSize_le {k : Nat} (h : n * 2 < 2 ^ (8 * k)) : compactSize n ≤ k := by
  have hle : numBytes n ≤ k := numBytes_le_iff.mpr (by omega)
  unfold compactSize
  split
  · rename_i hlead
    by_contra hsize
    obtain rfl : numBytes n = k := by omega
    rw [leadingBytes_eq, Nat.le_div_iff_mul_le (Nat.two_pow_pos _)] at hlead
    omega
  · exact hle

theorem compactSize_lt (h : n < 2 ^ compactBits) : compactSize n < 2 ^ 8 := by
  have hbits : compactBits + 1 = 8 * 255 := rfl
  have htwice : n * 2 < 2 ^ (compactBits + 1) := by
    rw [pow_succ]
    omega
  rw [hbits] at htwice
  exact Nat.lt_succ_of_le (compactSize_le htwice)

theorem compactValue_lt {nSize nWord k : Nat} (hsize : nSize ≤ k + 3) (hword : nWord < 2 ^ 23) :
    compactValue nSize nWord < 2 ^ (23 + 8 * k) := by
  rw [pow_add]
  unfold compactValue
  split
  · exact lt_of_le_of_lt (Nat.div_le_self _ _)
      (hword.trans_le (Nat.le_mul_of_pos_right _ (Nat.two_pow_pos _)))
  · exact Nat.mul_lt_mul_of_lt_of_le hword (Nat.pow_le_pow_right (by decide) (by omega))
      (Nat.two_pow_pos _)

/-- The numbers a compact form can stand for, with its size in one byte. -/
theorem natAbs_setCompact_lt (nCompact : UInt32) :
    (setCompact nCompact).natAbs < 2 ^ compactBits := by
  have hsize : nCompact.toNat / 2 ^ 24 ≤ 252 + 3 := by
    have := nCompact.toNat_lt
    omega
  have habs : (setCompact nCompact).natAbs =
      compactValue (nCompact.toNat / 2 ^ 24) (nCompact.toNat % 2 ^ 23) := by
    unfold setCompact
    dsimp only
    split
    · exact Int.natAbs_neg _
    · rfl
  have hbits : compactBits = 23 + 8 * 252 := rfl
  rw [habs, hbits]
  exact compactValue_lt hsize (Nat.mod_lt _ (by decide))

/-- A number whose size fits its byte: what `GetCompact` returns is given back. -/
theorem getCompact_setCompact_getCompact {bn : Int} (h : bn.natAbs < 2 ^ compactBits) :
    getCompact (setCompact (getCompact bn)) = getCompact bn := by
  rcases Nat.eq_zero_or_pos bn.natAbs with hzero | hpos
  · obtain rfl : bn = 0 := Int.natAbs_eq_zero.mp hzero
    decide
  · have hform := isCompactForm_getCompact hpos
    obtain ⟨hsize, hword⟩ := hform.size_word
    have hvalue : 0 < compactValue (compactSize bn.natAbs) (compactWord bn.natAbs) := by
      have hwhole := hform.whole
      have hlow : 0 < compactWord bn.natAbs := lt_of_lt_of_le (by decide) hform.low
      by_contra h0
      have := Nat.mul_pos hlow (Nat.two_pow_pos (8 * compactSize bn.natAbs))
      omega
    rw [getCompact_eq bn, setCompact_signedCompact (compactSize_lt h) hform.high]
    generalize hv : compactValue (compactSize bn.natAbs) (compactWord bn.natAbs) = v at *
    by_cases hneg : bn < 0
    · rw [decide_eq_true hneg, if_pos rfl, getCompact_eq, Int.natAbs_neg, Int.natAbs_natCast, hsize,
        hword, decide_eq_true (by omega)]
    · rw [decide_eq_false hneg, if_neg (by decide), getCompact_eq, Int.natAbs_natCast, hsize,
        hword, decide_eq_false (by omega)]

/-- The part below the exponent is small against the number. -/
theorem sub_chop_lt (hpos : 0 < n) :
    (n - chop (2 ^ 8) (compactExponent n) n) * 2 ^ 15 < n := by
  have hexp := isExponent_compactExponent n
  have hsub : n - chop (2 ^ 8) (compactExponent n) n = n % (2 ^ 8) ^ compactExponent n := by
    rw [chop, Nat.mul_comm]
    exact (Nat.mod_eq_sub_mul_div ..).symm
  rw [hsub]
  cases he : compactExponent n with
  | zero =>
    rw [pow_zero, Nat.mod_one, Nat.zero_mul]
    exact hpos
  | succ e =>
    have hlow := hexp.least e (by omega)
    rw [Nat.le_div_iff_mul_le (Nat.pow_pos (by decide))] at hlow
    have hrest : n % (2 ^ 8) ^ (e + 1) < (2 ^ 8) ^ (e + 1) := Nat.mod_lt _ (Nat.pow_pos (by decide))
    calc n % (2 ^ 8) ^ (e + 1) * 2 ^ 15 < (2 ^ 8) ^ (e + 1) * 2 ^ 15 :=
          Nat.mul_lt_mul_of_pos_right hrest (by decide)
      _ = 2 ^ 23 * (2 ^ 8) ^ e := by
          rw [pow_succ, mul_assoc, mul_comm]
          rfl
      _ ≤ n := hlow

/-- Rounding goes down, by less than a `2 ^ 15`-th of the number, and keeps the order; the form
`GetCompact` gives is given back, and one round through both functions settles every compact
number. -/
theorem getCompact_rounds_down :
    (∀ x : Int, 0 ≤ x → x < 2 ^ 256 → setCompact (getCompact x) ≤ x ∧
      (0 < x → (x - setCompact (getCompact x)) * 2 ^ 15 < x)) ∧
    (∀ x y : Int, 0 ≤ x → x ≤ y → y < 2 ^ 256 →
      setCompact (getCompact x) ≤ setCompact (getCompact y)) ∧
    (∀ x : Int, x.natAbs < 2 ^ compactBits → getCompact (setCompact (getCompact x)) = getCompact x) ∧
    (∀ nCompact : UInt32, getCompact (setCompact (getCompact (setCompact nCompact))) =
      getCompact (setCompact nCompact)) := by
  refine ⟨fun x h0 hx => ⟨setCompact_getCompact_le h0 hx, fun hpos => ?_⟩,
    fun x y h0 hxy hy => setCompact_getCompact_mono h0 hxy hy,
    fun x hx => getCompact_setCompact_getCompact hx,
    fun nCompact => getCompact_setCompact_getCompact (natAbs_setCompact_lt nCompact)⟩
  obtain ⟨n, rfl⟩ := Int.eq_ofNat_of_zero_le h0
  have hle : chop (2 ^ 8) (compactExponent n) n ≤ n := chop_le
  have hlt := sub_chop_lt (n := n) (by omega)
  rw [setCompact_getCompact (by exact_mod_cast hx)]
  omega

end Terracoin
