import Terracoin.Lib.Codec
import Terracoin.Primitives.Transaction

/-!
# Variable-length integers

`WriteVarInt`, `ReadVarInt` and `GetSizeOfVarInt` of `serialize.h`, and `WriteCompactSize` with
its reader. Both kinds are read back (`decodes_writeVarInt`, `decodes_writeCompactSize`); a
varint only if it is not negative, and a negative one is written as the single byte of its lowest
seven bits (`writeVarInt_of_neg`).
-/

namespace Terracoin

open Codec

/-! ## Varints -/

/-- The bytes of `tmp`, the last one written first; `mark` is 128 for all but the first of them.
The loop ends when `n <= 0x7F`. Every round makes a larger `n` smaller, so `n` itself is enough
fuel. -/
def writeVarIntFrom : Nat → Nat → Int → List UInt8
  | 0, mark, n => [UInt8.ofNat ((n % 128).toNat + mark)]
  | fuel + 1, mark, n =>
    if n ≤ 0x7F then [UInt8.ofNat ((n % 128).toNat + mark)]
    else writeVarIntFrom fuel 128 (n / 128 - 1) ++ [UInt8.ofNat ((n % 128).toNat + mark)]

/-- `WriteVarInt` for an integer of any of its types; `n & 0x7F` and `n >> 7` are those of two's
complement. -/
def writeVarInt (n : Int) : List UInt8 := writeVarIntFrom n.toNat 0 n

def sizeOfVarIntFrom : Nat → Int → Nat
  | 0, _ => 1
  | fuel + 1, n => if n ≤ 0x7F then 1 else sizeOfVarIntFrom fuel (n / 128 - 1) + 1

def getSizeOfVarInt (n : Int) : Nat := sizeOfVarIntFrom n.toNat n

/-- `ReadVarInt` from the value `n` read so far, in a type of `w` bits. -/
def readVarIntFrom (w : Nat) : Nat → Reader Nat
  | _, [] => none
  | n, chData :: s =>
    let n := (n * 128 + chData.toNat % 128) % 2 ^ w
    if 128 ≤ chData.toNat then readVarIntFrom w ((n + 1) % 2 ^ w) s else some (n, s)

/-- `ReadVarInt<unsigned int>` for `w = 32`, `ReadVarInt<uint64>` for `w = 64`. -/
def readVarInt (w : Nat) : Reader Nat := readVarIntFrom w 0

def readVarIntInt : Reader Int32 := (fun n => Int32.ofNat n) <$> readVarInt 32

theorem length_writeVarIntFrom (fuel mark : Nat) (n : Int) :
    (writeVarIntFrom fuel mark n).length = sizeOfVarIntFrom fuel n := by
  induction fuel generalizing mark n with
  | zero => rfl
  | succ fuel ih =>
    unfold writeVarIntFrom sizeOfVarIntFrom
    split
    · rfl
    · rw [List.length_append, ih]
      rfl

theorem length_writeVarInt (n : Int) : (writeVarInt n).length = getSizeOfVarInt n :=
  length_writeVarIntFrom _ _ _

theorem readVarIntFrom_cons {w n m mark : Nat} {s : List UInt8} (hmark : mark = 0 ∨ mark = 128)
    (hm : m < 2 ^ w) (hn : n = m / 128) :
    readVarIntFrom w n (UInt8.ofNat (m % 128 + mark) :: s) =
      if mark = 128 then readVarIntFrom w ((m + 1) % 2 ^ w) s else some (m, s) := by
  have hlow : (UInt8.ofNat (m % 128 + mark)).toNat = m % 128 + mark := by
    rw [UInt8.toNat_ofNat']
    omega
  have hvalue : (n * 128 + (m % 128 + mark) % 128) % 2 ^ w = m := by
    have : n * 128 + (m % 128 + mark) % 128 = m := by omega
    rw [this, Nat.mod_eq_of_lt hm]
  rw [readVarIntFrom, hlow]
  simp only [hvalue]
  rcases hmark with rfl | rfl
  · rw [if_neg (by omega), if_neg (by omega)]
  · rw [if_pos (by omega), if_pos rfl]

/-- Reading marked bytes leaves one more than the number they stand for. -/
theorem readVarIntFrom_marked {w fuel : Nat} {m : Nat} {s : List UInt8} (hfuel : m ≤ fuel)
    (hm : m + 1 < 2 ^ w) :
    readVarIntFrom w 0 (writeVarIntFrom fuel 128 m ++ s) = readVarIntFrom w (m + 1) s := by
  induction fuel generalizing m s with
  | zero =>
    obtain rfl : m = 0 := by omega
    have h := readVarIntFrom_cons (w := w) (n := 0) (m := 0) (s := s) (.inr rfl) (by omega) rfl
    rw [if_pos rfl, Nat.mod_eq_of_lt hm] at h
    exact h
  | succ fuel ih =>
    have hbyte : ((m : Int) % 128).toNat = m % 128 := by omega
    unfold writeVarIntFrom
    rw [hbyte]
    split
    · rename_i hle
      have hle : m ≤ 127 := by omega
      have h := readVarIntFrom_cons (w := w) (n := 0) (s := s) (.inr rfl) (Nat.lt_of_succ_lt hm)
        (by omega : 0 = m / 128)
      rw [if_pos rfl, Nat.mod_eq_of_lt hm] at h
      exact h
    · rename_i hgt
      have hcast : (m : Int) / 128 - 1 = ((m / 128 - 1 : Nat) : Int) := by omega
      rw [hcast, List.append_assoc, ih (by omega) (by omega)]
      have hstep : m / 128 - 1 + 1 = m / 128 := by omega
      have h := readVarIntFrom_cons (w := w) (s := s) (.inr rfl) (Nat.lt_of_succ_lt hm)
        (rfl : m / 128 = m / 128)
      rw [if_pos rfl, Nat.mod_eq_of_lt hm] at h
      rw [hstep]
      exact h

/-- A number that fits the type is read back. -/
theorem decodes_writeVarInt {w n : Nat} (hn : n < 2 ^ w) :
    Decodes (readVarInt w) (writeVarInt n) n := by
  intro rest
  have hbyte : ((n : Int) % 128).toNat = n % 128 := by omega
  have hlast : ∀ k, k = n / 128 → readVarIntFrom w k (UInt8.ofNat (n % 128 + 0) :: rest) =
      some (n, rest) := by
    intro k hk
    rw [readVarIntFrom_cons (.inl rfl) hn hk, if_neg (by omega)]
  unfold readVarInt writeVarInt
  rw [Int.toNat_natCast]
  cases n with
  | zero => exact hlast 0 rfl
  | succ n =>
    unfold writeVarIntFrom
    rw [hbyte]
    split
    · exact hlast 0 (by omega)
    · rename_i hgt
      have hcast : ((n + 1 : Nat) : Int) / 128 - 1 = (((n + 1) / 128 - 1 : Nat) : Int) := by omega
      have hstep : (n + 1) / 128 - 1 + 1 = (n + 1) / 128 := by omega
      rw [hcast, List.append_assoc, readVarIntFrom_marked (by omega) (by omega), hstep]
      exact hlast _ rfl

theorem writeVarInt_of_neg {n : Int} (h : n < 0) : writeVarInt n = [UInt8.ofNat (n % 128).toNat] := by
  rw [writeVarInt, Int.toNat_of_nonpos (by omega), writeVarIntFrom, Nat.add_zero]

/-! ## Signed varints -/

/-- What a 32-bit number is read back as: a negative one keeps its lowest seven bits. -/
def varIntValue (n : Int32) : Int32 := if 0 ≤ n then n else Int32.ofNat (n.toInt % 128).toNat

theorem varIntValue_nonneg (n : Int32) : 0 ≤ varIntValue n := by
  unfold varIntValue
  split
  · assumption
  · rw [Int32.le_iff_toInt_le, Int32.toInt_ofNat_of_lt (by omega)]
    simp

theorem varIntValue_eq_self {n : Int32} : varIntValue n = n ↔ 0 ≤ n := by
  constructor
  · intro h
    rw [← h]
    exact varIntValue_nonneg n
  · intro h
    rw [varIntValue, if_pos h]

theorem writeVarInt_of_lt {n : Nat} (h : n < 128) : writeVarInt n = [UInt8.ofNat n] := by
  have hmod : ((n : Int) % 128).toNat = n := by omega
  rw [writeVarInt, Int.toNat_natCast]
  cases n with
  | zero => rfl
  | succ n => rw [writeVarIntFrom, if_pos (by omega), hmod, Nat.add_zero]

theorem decodes_writeVarInt_int (n : Int32) :
    Decodes readVarIntInt (writeVarInt n.toInt) (varIntValue n) := by
  have hsign : 0 ≤ n ↔ 0 ≤ n.toInt := by
    rw [Int32.le_iff_toInt_le]
    simp
  unfold varIntValue
  split
  · rename_i h
    have h0 := hsign.mp h
    have hlt : n.toInt < 2 ^ 31 := by
      have := Int32.toInt_lt n
      simpa using this
    obtain ⟨k, hk⟩ := Int.eq_ofNat_of_zero_le h0
    have hdec := (decodes_writeVarInt (w := 32) (n := k) (by omega)).map fun n => Int32.ofNat n
    have hof : Int32.ofNat k = n := by
      rw [← Int32.toInt_inj, hk, Int32.toInt_ofNat_of_lt (by omega)]
    rw [hof] at hdec
    rw [hk]
    exact hdec
  · rename_i h
    have h0 : n.toInt < 0 := by
      rw [hsign] at h
      omega
    have hdec := (decodes_writeVarInt (w := 32) (n := (n.toInt % 128).toNat) (by omega)).map
      fun n => Int32.ofNat n
    rw [writeVarInt_of_lt (by omega)] at hdec
    rw [writeVarInt_of_neg h0]
    exact hdec

/-! ## Compact sizes -/

/-- `MAX_SIZE`: no vector read from a stream is longer. -/
def maxSize : Nat := 0x02000000

def littleEndian : Nat → Nat → List UInt8
  | 0, _ => []
  | k + 1, n => UInt8.ofNat (n % 256) :: littleEndian k (n / 256)

def readLittleEndian : Nat → Reader Nat
  | 0 => pure 0
  | k + 1 => do
    let b ← readByte
    let n ← readLittleEndian k
    pure (b.toNat + 256 * n)

def writeCompactSize (nSize : Nat) : List UInt8 :=
  if nSize < 253 then [UInt8.ofNat nSize]
  else if nSize ≤ 0xFFFF then 253 :: littleEndian 2 nSize
  else if nSize ≤ 0xFFFFFFFF then 254 :: littleEndian 4 nSize
  else 255 :: littleEndian 8 nSize

/-- The number after the first byte `chSize`. -/
def readCompactSizeAfter (chSize : UInt8) : Reader Nat :=
  if chSize < 253 then pure chSize.toNat
  else if chSize = 253 then readLittleEndian 2
  else if chSize = 254 then readLittleEndian 4
  else readLittleEndian 8

/-- Fails, as the source throws, when the size is above `MAX_SIZE`. -/
def checkMaxSize (nSize : Nat) : Reader Nat := fun s =>
  if maxSize < nSize then none else some (nSize, s)

def readCompactSize : Reader Nat := do
  let chSize ← readByte
  let nSize ← readCompactSizeAfter chSize
  checkMaxSize nSize

theorem length_littleEndian (k n : Nat) : (littleEndian k n).length = k := by
  induction k generalizing n with
  | zero => rfl
  | succ k ih => rw [littleEndian, List.length_cons, ih]

theorem decodes_littleEndian {k n : Nat} (h : n < 256 ^ k) :
    Decodes (readLittleEndian k) (littleEndian k n) n := by
  induction k generalizing n with
  | zero =>
    obtain rfl : n = 0 := by simpa using h
    exact Decodes.pure 0
  | succ k ih =>
    have hrest := ih (n := n / 256) (Nat.div_lt_of_lt_mul (by rwa [Nat.pow_succ, Nat.mul_comm] at h))
    have hvalue : (UInt8.ofNat (n % 256)).toNat + 256 * (n / 256) = n := by
      rw [UInt8.toNat_ofNat']
      omega
    refine Decodes.bind (Decodes.byte _) ?_
    rw [← List.append_nil (littleEndian k (n / 256))]
    refine Decodes.bind hrest ?_
    rw [hvalue]
    exact Decodes.pure n

theorem length_writeCompactSize (n : Nat) : (writeCompactSize n).length = getSizeOfCompactSize n := by
  unfold writeCompactSize getSizeOfCompactSize
  split
  · rfl
  · split
    · rw [List.length_cons, length_littleEndian]
    · split <;> rw [List.length_cons, length_littleEndian]

/-- What is written after the first byte is read back, also for a size above `MAX_SIZE`. -/
theorem exists_writeCompactSize {n : Nat} (h : n < 2 ^ 64) :
    ∃ b bytes, writeCompactSize n = b :: bytes ∧ Decodes (readCompactSizeAfter b) bytes n := by
  unfold writeCompactSize readCompactSizeAfter
  split
  · rename_i hlt
    have hb : (UInt8.ofNat n).toNat = n := by
      rw [UInt8.toNat_ofNat']
      omega
    refine ⟨_, [], rfl, ?_⟩
    rw [if_pos (by rw [UInt8.lt_iff_toNat_lt, hb]; exact hlt), hb]
    exact Decodes.pure n
  · split
    · exact ⟨_, _, rfl, decodes_littleEndian (by omega)⟩
    · split
      · exact ⟨_, _, rfl, decodes_littleEndian (by omega)⟩
      · exact ⟨_, _, rfl, decodes_littleEndian (by omega)⟩

theorem decodes_writeCompactSize {n : Nat} (h : n ≤ maxSize) :
    Decodes readCompactSize (writeCompactSize n) n := by
  have hcheck : Decodes (checkMaxSize n) [] n := by
    intro rest
    rw [checkMaxSize, if_neg (by omega)]
    rfl
  have hmax : maxSize = 33554432 := rfl
  obtain ⟨b, bytes, hbytes, hread⟩ := exists_writeCompactSize (n := n) (by omega)
  rw [hbytes, ← List.singleton_append, ← List.append_nil bytes]
  exact Decodes.bind (Decodes.byte b) (Decodes.bind hread hcheck)

theorem writeCompactSize_append_inj {n m : Nat} {s t : List UInt8} (hn : n < 2 ^ 64)
    (hm : m < 2 ^ 64) (h : writeCompactSize n ++ s = writeCompactSize m ++ t) : n = m ∧ s = t := by
  obtain ⟨b, bytes, hbytes, hread⟩ := exists_writeCompactSize hn
  obtain ⟨b', bytes', hbytes', hread'⟩ := exists_writeCompactSize hm
  rw [hbytes, hbytes', List.cons_append, List.cons_append] at h
  obtain ⟨rfl, hrest⟩ := List.cons.inj h
  have hsame := (hread s).symm.trans ((congrArg _ hrest).trans (hread' t))
  exact Prod.mk.inj (Option.some.inj hsame)

def writeInt64 (n : Int64) : List UInt8 := littleEndian 8 n.toUInt64.toNat

def readInt64 : Reader Int64 := (fun n => (UInt64.ofNat n).toInt64) <$> readLittleEndian 8

theorem decodes_writeInt64 (n : Int64) : Decodes readInt64 (writeInt64 n) n := by
  have hdecodes := (decodes_littleEndian (k := 8) n.toUInt64.toNat_lt).map fun n => (UInt64.ofNat n).toInt64
  have hvalue : (UInt64.ofNat n.toUInt64.toNat).toInt64 = n := by
    rw [UInt64.ofNat_toNat]
    rfl
  rw [hvalue] at hdecodes
  exact hdecodes

def writeUint256 (a : uint256) : List UInt8 := littleEndian 32 a.toNat

def readUint256 : Reader uint256 := BitVec.ofNat 256 <$> readLittleEndian 32

theorem decodes_writeUint256 (a : uint256) : Decodes readUint256 (writeUint256 a) a := by
  have h := (decodes_littleEndian (k := 32) (n := a.toNat)
    (lt_of_lt_of_eq a.isLt (by decide))).map (BitVec.ofNat 256)
  rwa [BitVec.ofNat_toNat, BitVec.setWidth_eq] at h

def writeVector {α : Type} (write : α → List UInt8) (v : List α) : List UInt8 :=
  writeCompactSize v.length ++ v.flatMap write

def readVector {α : Type} (read : Reader α) : Reader (List α) := do
  let nSize ← readCompactSize
  readMany read nSize

theorem decodes_writeVector {α β : Type} {read : Reader β} {write : α → List UInt8}
    {value : α → β} {v : List α} (hlen : v.length ≤ maxSize)
    (h : ∀ a ∈ v, Decodes read (write a) (value a)) :
    Decodes (readVector read) (writeVector write v) (v.map value) :=
  Decodes.bind (decodes_writeCompactSize hlen) (Decodes.many h)

theorem length_writeVector {α : Type} {write : α → List UInt8} {size : α → Nat} {v : List α}
    (h : ∀ a ∈ v, (write a).length = size a) : (writeVector write v).length = vectorSize size v := by
  rw [writeVector, List.length_append, length_writeCompactSize, vectorSize, List.length_flatMap,
    List.map_congr_left h]

end Terracoin
