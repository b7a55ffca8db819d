import Terracoin.Primitives.Compact
import Terracoin.Serialize.VarInt

/-!
# Numbers on the script stack

`CBigNum::setvch`, `getvch` and `getint` of `bignum.h`, and the casts of stack elements in
`script.cpp`. A number is stored in little endian, without leading zeros, and with its sign in the
top bit.
-/

namespace Terracoin

/-- `valtype`: an element of the stack. -/
abbrev valtype := List UInt8

def vchFalse : valtype := []
def vchTrue : valtype := [1]

namespace CBigNum

/-- The bytes as an unsigned number in little endian. -/
def unsigned : valtype → Nat
  | [] => 0
  | b :: vch => b.toNat + 256 * unsigned vch

/-- `setvch`, by way of `BN_mpi2bn`: the top bit is the sign. -/
def setVch (vch : valtype) : Int :=
  let n := unsigned vch
  if n < 2 ^ (8 * vch.length - 1) then n else -((n - 2 ^ (8 * vch.length - 1) : Nat) : Int)

/-- `getvch`, by way of `BN_bn2mpi`: there is a byte more if the top bit is taken. -/
def getVch (bn : Int) : valtype :=
  let n := bn.natAbs
  let nSize := if n < 2 ^ (8 * numBytes n - 1) then numBytes n else numBytes n + 1
  littleEndian nSize (if bn < 0 then n + 2 ^ (8 * nSize - 1) else n)

/-- `getint`. -/
def getInt (bn : Int) : Int :=
  if 0 ≤ bn then min bn (2 ^ 31 - 1) else if bn < -(2 ^ 31 - 1) then -2 ^ 31 else bn

/-! ## The encoding -/

theorem unsigned_lt (vch : valtype) : unsigned vch < 2 ^ (8 * vch.length) := by
  induction vch with
  | nil => exact Nat.one_pos
  | cons b vch ih =>
    have hb := b.toNat_lt
    rw [unsigned, List.length_cons, Nat.mul_add, Nat.pow_add]
    omega

theorem unsigned_littleEndian {nSize n : Nat} (h : n < 2 ^ (8 * nSize)) :
    unsigned (littleEndian nSize n) = n := by
  induction nSize generalizing n with
  | zero =>
    have : n = 0 := by simpa using h
    exact this.symm
  | succ nSize ih =>
    rw [Nat.mul_add, Nat.pow_add] at h
    rw [littleEndian, unsigned, ih (by omega), UInt8.toNat_ofNat']
    omega

theorem lt_of_size {n : Nat} :
    n < 2 ^ (8 * (if n < 2 ^ (8 * numBytes n - 1) then numBytes n else numBytes n + 1) - 1) := by
  split
  · assumption
  · have h : n < 2 ^ (8 * numBytes n) := numBytes_le_iff.mp (Nat.le_refl _)
    exact Nat.lt_of_lt_of_le h (Nat.pow_le_pow_right Nat.two_pos (by omega))

theorem setVch_littleEndian {nSize n : Nat} (fNegative : Bool) (hn : n < 2 ^ (8 * nSize - 1))
    (hsign : fNegative = true → 0 < n) :
    setVch (littleEndian nSize (if fNegative then n + 2 ^ (8 * nSize - 1) else n)) =
      if fNegative then -(n : Int) else n := by
  have hsize : 2 ^ (8 * nSize - 1) ≤ 2 ^ (8 * nSize) :=
    Nat.pow_le_pow_right Nat.two_pos (Nat.sub_le _ 1)
  cases fNegative with
  | false =>
    rw [setVch, length_littleEndian]
    simp only [Bool.false_eq_true, if_false]
    rw [unsigned_littleEndian (by omega), if_pos hn]
  | true =>
    have hpos : 0 < nSize := by
      cases nSize with
      | zero =>
        have := hsign rfl
        simp at hn
        omega
      | succ nSize => exact Nat.succ_pos nSize
    have htwo : 2 ^ (8 * nSize) = 2 * 2 ^ (8 * nSize - 1) := by
      rw [← Nat.pow_succ']
      congr 1
      omega
    rw [setVch, length_littleEndian]
    simp only [if_true]
    rw [unsigned_littleEndian (by omega), if_neg (by omega), Nat.add_sub_cancel]

theorem setVch_getVch (bn : Int) : setVch (getVch bn) = bn := by
  have h := setVch_littleEndian (decide (bn < 0)) (lt_of_size (n := bn.natAbs)) fun hneg => by
    have := of_decide_eq_true hneg
    omega
  rw [getVch]
  simp only [decide_eq_true_eq] at h
  rw [h]
  split <;> omega

theorem natAbs_setVch_lt (vch : valtype) : (setVch vch).natAbs < 2 ^ (8 * vch.length - 1) := by
  have h := unsigned_lt vch
  rw [setVch]
  split
  · omega
  · cases vch with
    | nil => simp_all
    | cons b vch =>
      have htwo : 2 ^ (8 * (b :: vch).length) = 2 * 2 ^ (8 * (b :: vch).length - 1) := by
        rw [← Nat.pow_succ']
        congr 1
      omega

theorem length_getVch_le {bn : Int} {k : Nat} (h : bn.natAbs < 2 ^ (8 * k)) :
    (getVch bn).length ≤ k + 1 := by
  have hk : numBytes bn.natAbs ≤ k := numBytes_le_iff.mpr h
  rw [getVch, length_littleEndian]
  split <;> omega

theorem getInt_of_lt {bn : Int} (h : bn.natAbs < 2 ^ 31) : getInt bn = bn := by
  rw [getInt]
  split
  · omega
  · split <;> omega

end CBigNum

/-- `CastToBool`: zero, also with a sign, is false. -/
def castToBool : valtype → Bool
  | [] => false
  | b :: vch => if b ≠ 0 then !(vch.isEmpty && b == 0x80) else castToBool vch

def nMaxNumSize : Nat := 4

end Terracoin
