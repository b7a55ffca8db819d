import Terracoin.Primitives.Block
import Terracoin.Lib.Mantissa

/-!
# Compact targets

`CBigNum::GetCompact` and its relation to `SetCompact`. A compact target has a mantissa of 23 bits
and an exponent in bytes; `GetCompact` cuts the rest off, so it gives the greatest compact target
that is at most the number (`le_setCompact_getCompact`).
-/

namespace Terracoin

open Mantissa

def numBytes (n : Nat) : Nat := if n = 0 then 0 else n.log2 / 8 + 1

/-- `CBigNum::GetCompact`. -/
def getCompact (bn : Int) : UInt32 :=
  let n := bn.natAbs
  let nSize := numBytes n
  let nCompact := if nSize ≤ 3 then n * 2 ^ (8 * (3 - nSize)) else n / 2 ^ (8 * (nSize - 3))
  -- the bit 0x00800000 denotes the sign: a mantissa that has it set gives up its last byte
  let fCarry := nCompact / 2 ^ 23 % 2 = 1
  let nWord := if fCarry then nCompact / 2 ^ 8 else nCompact
  let nSize := if fCarry then nSize + 1 else nSize
  UInt32.ofNat (nWord + (if bn < 0 then 2 ^ 23 else 0) + nSize * 2 ^ 24)

theorem numBytes_le_iff {n k : Nat} : numBytes n ≤ k ↔ n < 2 ^ (8 * k) := by
  unfold numBytes
  split
  · rename_i h
    simp [h]
  · rename_i h
    rw [← Nat.log2_lt h]
    omega

theorem lt_numBytes_iff {n k : Nat} : k < numBytes n ↔ 2 ^ (8 * k) ≤ n := by
  rw [← not_le, numBytes_le_iff, not_lt]

/-- A compact target without sign. -/
def compact (nSize nWord : Nat) : UInt32 := UInt32.ofNat (nWord + nSize * 2 ^ 24)

/-- The value of the mantissa `nWord` at the size `nSize`. -/
def compactValue (nSize nWord : Nat) : Nat :=
  if nSize ≤ 3 then nWord / 2 ^ (8 * (3 - nSize)) else nWord * 2 ^ (8 * (nSize - 3))

theorem setCompact_compact {nSize nWord : Nat} (hsize : nSize < 2 ^ 8) (hword : nWord < 2 ^ 23) :
    setCompact (compact nSize nWord) = compactValue nSize nWord := by
  have hnat : (compact nSize nWord).toNat = nWord + nSize * 2 ^ 24 :=
    UInt32.toNat_ofNat_of_lt' (by show _ < 2 ^ 32; omega)
  unfold setCompact
  dsimp only
  rw [hnat, show (nWord + nSize * 2 ^ 24) / 2 ^ 24 = nSize by omega,
    show (nWord + nSize * 2 ^ 24) % 2 ^ 23 = nWord by omega,
    if_neg (by omega)]
  rfl

/-- Every target that is not negative has a mantissa of 23 bits. -/
theorem representable_setCompact {nCompact : UInt32} {n : Nat} (h : setCompact nCompact = n) :
    Representable (2 ^ 8) (2 ^ 23) n := by
  have hword : nCompact.toNat % 2 ^ 23 < 2 ^ 23 := Nat.mod_lt _ (by decide)
  have habs : n = compactValue (nCompact.toNat / 2 ^ 24) (nCompact.toNat % 2 ^ 23) := by
    have := congrArg Int.natAbs h
    unfold setCompact at this
    dsimp only at this
    split at this
    · rw [Int.natAbs_neg] at this
      exact this.symm
    · exact this.symm
  rw [habs]
  unfold compactValue
  split
  · exact ⟨_, 0, lt_of_le_of_lt (Nat.div_le_self _ _) hword, by rw [pow_zero, mul_one]⟩
  · exact ⟨_, nCompact.toNat / 2 ^ 24 - 3, hword, by rw [pow_mul]⟩

/-! ## Rounding -/

def leadingBytes (n : Nat) : Nat :=
  if numBytes n ≤ 3 then n * 2 ^ (8 * (3 - numBytes n)) else n / 2 ^ (8 * (numBytes n - 3))

/-- The exponent at which `GetCompact` cuts a number. -/
def compactExponent (n : Nat) : Nat :=
  if 2 ^ 23 ≤ leadingBytes n then numBytes n - 2 else numBytes n - 3

variable {n : Nat}

theorem leadingBytes_lt (n : Nat) : leadingBytes n < 2 ^ 24 := by
  have hlt : n < 2 ^ (8 * numBytes n) := numBytes_le_iff.mp le_rfl
  unfold leadingBytes
  split
  · rename_i h
    calc n * 2 ^ (8 * (3 - numBytes n))
        < 2 ^ (8 * numBytes n) * 2 ^ (8 * (3 - numBytes n)) :=
          Nat.mul_lt_mul_of_pos_right hlt (Nat.two_pow_pos _)
      _ = 2 ^ 24 := by rw [← pow_add]; congr 1; omega
  · rename_i h
    rw [Nat.div_lt_iff_lt_mul (Nat.two_pow_pos _), ← pow_add]
    exact lt_of_lt_of_le hlt (Nat.pow_le_pow_right (by decide) (by omega))

theorem getCompact_natCast (n : Nat) : getCompact n =
    if 2 ^ 23 ≤ leadingBytes n then compact (numBytes n + 1) (leadingBytes n / 2 ^ 8)
    else compact (numBytes n) (leadingBytes n) := by
  have hcarry : leadingBytes n / 2 ^ 23 % 2 = 1 ↔ 2 ^ 23 ≤ leadingBytes n := by
    have := leadingBytes_lt n
    omega
  have hget : getCompact n = UInt32.ofNat
      ((if leadingBytes n / 2 ^ 23 % 2 = 1 then leadingBytes n / 2 ^ 8 else leadingBytes n) +
        (if (n : Int) < 0 then 2 ^ 23 else 0) +
        (if leadingBytes n / 2 ^ 23 % 2 = 1 then numBytes n + 1 else numBytes n) * 2 ^ 24) := rfl
  rw [hget, if_neg (show ¬ (n : Int) < 0 by omega), Nat.add_zero]
  by_cases h : 2 ^ 23 ≤ leadingBytes n
  · rw [if_pos (hcarry.mpr h), if_pos (hcarry.mpr h), if_pos h]
    rfl
  · rw [if_neg (mt hcarry.mp h), if_neg (mt hcarry.mp h), if_neg h]
    rfl

/-- `compactExponent` is the least exponent at which the number fits 23 bits. -/
theorem isExponent_compactExponent (n : Nat) :
    IsExponent (2 ^ 8) (2 ^ 23) n (compactExponent n) := by
  have hlt : n < 2 ^ (8 * numBytes n) := numBytes_le_iff.mp le_rfl
  by_cases hsize : numBytes n ≤ 3
  · -- up to three bytes: only a number of 24 bits loses a byte
    by_cases hn : n < 2 ^ 23
    · have he : compactExponent n = 0 := by
        unfold compactExponent
        split
        · rename_i hlead
          by_contra h
          have h3 : numBytes n = 3 := by omega
          unfold leadingBytes at hlead
          rw [h3] at hlead
          simp at hlead
          omega
        · omega
      rw [he]
      exact ⟨by rw [pow_zero, Nat.div_one]; exact hn, fun k hk => absurd hk (Nat.not_lt_zero k)⟩
    · have h3 : numBytes n = 3 :=
        le_antisymm hsize (lt_numBytes_iff.mpr (le_trans (by decide) (not_lt.mp hn)))
      have he : compactExponent n = 1 := by
        unfold compactExponent leadingBytes
        rw [h3]
        simp
        omega
      rw [h3] at hlt
      rw [he]
      refine ⟨by omega, fun k hk => ?_⟩
      obtain rfl : k = 0 := by omega
      rw [pow_zero, Nat.div_one]
      exact not_lt.mp hn
  · obtain ⟨k, hk⟩ : ∃ k, numBytes n = k + 4 := ⟨numBytes n - 4, by omega⟩
    have hlead : leadingBytes n = n / 2 ^ (8 * (k + 1)) := by
      unfold leadingBytes
      rw [if_neg hsize, hk]
      rfl
    have hlow : 2 ^ (8 * (k + 3)) ≤ n := lt_numBytes_iff.mp (by omega)
    have hdiv : ∀ j ≤ k, 2 ^ 23 ≤ n / (2 ^ 8) ^ j := by
      intro j hj
      rw [Nat.le_div_iff_mul_le (Nat.pow_pos (by decide)), ← pow_mul, ← pow_add]
      exact le_trans (Nat.pow_le_pow_right (by decide) (by omega)) hlow
    unfold compactExponent
    rw [hlead, hk]
    split
    · rename_i hcarry
      refine ⟨?_, fun j hj => ?_⟩
      · rw [Nat.div_lt_iff_lt_mul (Nat.pow_pos (by decide)), ← pow_mul, ← pow_add]
        rw [hk] at hlt
        exact lt_of_lt_of_le hlt (Nat.pow_le_pow_right (by decide) (by omega))
      · rcases Nat.lt_or_ge j (k + 1) with hj' | hj'
        · exact hdiv j (by omega)
        · obtain rfl : j = k + 1 := by omega
          rw [← pow_mul]
          exact hcarry
    · rename_i hcarry
      refine ⟨?_, fun j hj => hdiv j (by omega)⟩
      rw [show k + 4 - 3 = k + 1 by omega, ← pow_mul]
      omega

theorem setCompact_getCompact (h : n < 2 ^ (8 * 32)) :
    setCompact (getCompact n) = chop (2 ^ 8) (compactExponent n) n := by
  have hsize : numBytes n ≤ 32 := numBytes_le_iff.mpr h
  have hlead := leadingBytes_lt n
  have hexact : numBytes n ≤ 3 → leadingBytes n = n * 2 ^ (8 * (3 - numBytes n)) := by
    intro h3
    unfold leadingBytes
    rw [if_pos h3]
  have hcut : 3 ≤ numBytes n → leadingBytes n = n / 2 ^ (8 * (numBytes n - 3)) := by
    intro h3
    unfold leadingBytes
    split
    · rw [show numBytes n = 3 by omega]
      simp
    · rfl
  rw [getCompact_natCast]
  unfold compactExponent
  split
  · rename_i hcarry
    rw [setCompact_compact (by omega) (by omega)]
    unfold compactValue
    split
    · rename_i h2
      rw [hexact (by omega), Nat.div_div_eq_div_mul, ← pow_add,
        show 8 + 8 * (3 - (numBytes n + 1)) = 8 * (3 - numBytes n) by omega,
        Nat.mul_div_cancel _ (Nat.two_pow_pos _), show numBytes n - 2 = 0 by omega, chop_zero]
    · rename_i h2
      rw [hcut (by omega), Nat.div_div_eq_div_mul, ← pow_add,
        show 8 * (numBytes n - 3) + 8 = 8 * (numBytes n - 2) by omega,
        show numBytes n + 1 - 3 = numBytes n - 2 by omega, chop, ← pow_mul]
  · rename_i hcarry
    rw [setCompact_compact (by omega) (by omega)]
    unfold compactValue
    split
    · rename_i h3
      rw [hexact h3, Nat.mul_div_cancel _ (Nat.two_pow_pos _), show numBytes n - 3 = 0 by omega,
        chop_zero]
    · rename_i h3
      rw [hcut (by omega), chop, ← pow_mul]

theorem setCompact_getCompact_le {bn : Int} (h0 : 0 ≤ bn) (h : bn < 2 ^ (8 * 32)) :
    setCompact (getCompact bn) ≤ bn := by
  obtain ⟨n, rfl⟩ := Int.eq_ofNat_of_zero_le h0
  rw [setCompact_getCompact (by exact_mod_cast h)]
  exact_mod_cast chop_le

theorem setCompact_getCompact_nonneg {bn : Int} (h0 : 0 ≤ bn) (h : bn < 2 ^ (8 * 32)) :
    0 ≤ setCompact (getCompact bn) := by
  obtain ⟨n, rfl⟩ := Int.eq_ofNat_of_zero_le h0
  rw [setCompact_getCompact (by exact_mod_cast h)]
  exact Int.natCast_nonneg _

theorem le_setCompact_getCompact {nBits : UInt32} {bn : Int} (h0 : 0 ≤ setCompact nBits)
    (hle : setCompact nBits ≤ bn) (h : bn < 2 ^ (8 * 32)) :
    setCompact nBits ≤ setCompact (getCompact bn) := by
  obtain ⟨n, rfl⟩ := Int.eq_ofNat_of_zero_le (h0.trans hle)
  obtain ⟨m, hm⟩ := Int.eq_ofNat_of_zero_le h0
  rw [setCompact_getCompact (by exact_mod_cast h), hm]
  rw [hm] at hle
  exact_mod_cast (isExponent_compactExponent n).le_chop (by decide) (by decide)
    (representable_setCompact hm) (by exact_mod_cast hle)

theorem setCompact_getCompact_mono {bn bn' : Int} (h0 : 0 ≤ bn) (hle : bn ≤ bn')
    (h : bn' < 2 ^ (8 * 32)) : setCompact (getCompact bn) ≤ setCompact (getCompact bn') :=
  le_setCompact_getCompact (setCompact_getCompact_nonneg h0 (hle.trans_lt h))
    ((setCompact_getCompact_le h0 (hle.trans_lt h)).trans hle) h

end Terracoin
