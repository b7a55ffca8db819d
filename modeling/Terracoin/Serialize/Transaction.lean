import Terracoin.Serialize.DiskBlockIndex
import Terracoin.Primitives.Block

/-!
# Transactions and blocks as bytes

`IMPLEMENT_SERIALIZE` makes three walks out of one list of fields: one that counts bytes, in
`unsigned int`, one that writes and one that reads. For `CTransaction` and `CBlock` reading takes
back what was written, the count is the number of bytes written as long as that fits, and whatever
is read takes no more bytes when it is written again (`roundTrips`).
-/

namespace Terracoin

open Codec

/-! ## Vectors -/

/-- `sizeof` of a class: a vector of objects grows by `5000000 / sizeof(T)` before the next ones
are read. -/
abbrev ObjectSize := { n : Nat // 0 < n ∧ n ≤ 5000000 }

/-- The sizes of the objects in memory depend on the platform. -/
class ObjectSizes where
  sizeofCTxIn : ObjectSize
  sizeofCTxOut : ObjectSize
  sizeofCTransaction : ObjectSize

/-- `nMid` grows by this. -/
def ObjectSize.step (sizeofT : ObjectSize) : Nat := 5000000 / sizeofT.val

theorem ObjectSize.step_pos (sizeofT : ObjectSize) : 0 < sizeofT.step :=
  Nat.div_pos sizeofT.property.2 sizeofT.property.1

def unserializeImpl {α : Type} (step : Nat) (read : Reader α) : Reader (List α) := do
  let nSize ← readCompactSize
  readChunks read step nSize nSize

def getSerializeSizeImpl {α : Type} (size : α → UInt32) (v : List α) : UInt32 :=
  v.foldl (fun nSize a => nSize + size a) (UInt32.ofNat (getSizeOfCompactSize v.length))

theorem unserializeImpl_eq {α : Type} {step : Nat} (hstep : 0 < step) (read : Reader α) :
    unserializeImpl step read = readVector read := by
  simp only [unserializeImpl, readVector, readChunks_eq hstep (Nat.le_refl _)]

theorem getSerializeSizeImpl_eq {α : Type} {size : α → UInt32} {size' : α → Nat}
    (h : ∀ a, size a = UInt32.ofNat (size' a)) (v : List α) :
    getSerializeSizeImpl size v = UInt32.ofNat (vectorSize size' v) := by
  have hfold : ∀ n : Nat, v.foldl (fun nSize a => nSize + size a) (UInt32.ofNat n) =
      UInt32.ofNat (n + (v.map size').sum) := by
    induction v with
    | nil => simp
    | cons a v ih =>
      intro n
      rw [List.foldl_cons, h a, ← UInt32.ofNat_add, ih, List.map_cons, List.sum_cons, Nat.add_assoc]
  exact hfold _

theorem takes_littleEndian (k : Nat) :
    Takes (readLittleEndian k) fun value n => value < 256 ^ k ∧ n = k := by
  induction k with
  | zero => exact .pure ⟨Nat.one_pos, rfl⟩
  | succ k ih =>
    refine .bind .byte fun b n hn => .bind ih fun a m hm => .pure ⟨?_, by omega⟩
    have hb := b.toNat_lt
    rw [Nat.pow_succ]
    omega

/-- A number may be read from more bytes than it needs, but not from fewer. -/
theorem takes_compactSize :
    Takes readCompactSize fun nSize n => getSizeOfCompactSize nSize ≤ n := by
  refine .bind .byte fun chSize n hn => ?_
  have hafter : Takes (readCompactSizeAfter chSize)
      fun nSize m => getSizeOfCompactSize nSize ≤ 1 + m := by
    rw [readCompactSizeAfter]
    split
    · next hlt =>
      have hlt : chSize.toNat < 253 := UInt8.lt_iff_toNat_lt.mp hlt
      refine .pure ?_
      rw [getSizeOfCompactSize, if_pos hlt]
    · split
      · exact (takes_littleEndian 2).mono fun nSize m h => by
          rw [getSizeOfCompactSize]
          split_ifs <;> omega
      · split
        · exact (takes_littleEndian 4).mono fun nSize m h => by
            rw [getSizeOfCompactSize]
            split_ifs <;> omega
        · exact (takes_littleEndian 8).mono fun nSize m h => by
            rw [getSizeOfCompactSize]
            split_ifs <;> omega
  refine .bind hafter fun nSize m hm => ?_
  intro s a rest hread
  rw [checkMaxSize] at hread
  split at hread
  · cases hread
  · cases hread
    exact ⟨[], rfl, by rw [List.length_nil]; omega⟩

theorem takes_vector {α : Type} {read : Reader α} {size : α → Nat}
    (h : Takes read fun a n => size a ≤ n) :
    Takes (readVector read) fun v n => vectorSize size v ≤ n := by
  refine .bind takes_compactSize fun nSize n hn => (Takes.many h nSize).mono ?_
  rintro v m ⟨rfl, hsum⟩
  exact Nat.add_le_add hn hsum

/-! ## The fields -/

/-- An `int64`. -/
def writeAmount (nValue : Int) : List UInt8 := littleEndian 8 (Int64.ofInt nValue).toUInt64.toNat

def readAmount : Reader Int := (fun n => (UInt64.ofNat n).toInt64.toInt) <$> readLittleEndian 8

def writeUnsigned (n : UInt32) : List UInt8 := littleEndian 4 n.toNat

def readUnsignedInt : Reader UInt32 := UInt32.ofNat <$> readLittleEndian 4

def CScript.writeUncompressed (s : CScript) : List UInt8 := writeVector (fun b => [b]) s

/-- Bytes are read in blocks of `5000000`. -/
def CScript.readUncompressed : Reader CScript := unserializeImpl 5000000 readByte

/-- `FLATDATA`: the bytes of the object in memory. -/
def COutPoint.write (o : COutPoint) : List UInt8 := writeUint256 o.hash ++ writeUnsigned o.n

def COutPoint.read : Reader COutPoint := do
  let hash ← readUint256
  let n ← readUnsignedInt
  pure ⟨hash, n⟩

def CTxIn.write (txin : CTxIn) : List UInt8 :=
  txin.prevout.write ++ (CScript.writeUncompressed txin.scriptSig ++ writeUnsigned txin.nSequence)

def CTxIn.read : Reader CTxIn := do
  let prevout ← COutPoint.read
  let scriptSig ← CScript.readUncompressed
  let nSequence ← readUnsignedInt
  pure ⟨prevout, scriptSig, nSequence⟩

def CTxOut.writeUncompressed (out : CTxOut) : List UInt8 :=
  writeAmount out.nValue ++ CScript.writeUncompressed out.scriptPubKey

def CTxOut.readUncompressed : Reader CTxOut := do
  let nValue ← readAmount
  let scriptPubKey ← CScript.readUncompressed
  pure ⟨nValue, scriptPubKey⟩

namespace CTransaction

variable [ObjectSizes]

def write (tx : CTransaction) : List UInt8 :=
  writeUnsigned tx.nVersion.toUInt32 ++ (writeVector CTxIn.write tx.vin ++
    (writeVector CTxOut.writeUncompressed tx.vout ++ writeUnsigned tx.nLockTime))

def read : Reader CTransaction := do
  let nVersion ← readUnsignedInt
  let vin ← unserializeImpl ObjectSizes.sizeofCTxIn.step CTxIn.read
  let vout ← unserializeImpl ObjectSizes.sizeofCTxOut.step CTxOut.readUncompressed
  let nLockTime ← readUnsignedInt
  pure ⟨nVersion.toInt32, vin, vout, nLockTime⟩

end CTransaction

namespace CBlock

variable [ObjectSizes]

def write (b : CBlock) : List UInt8 :=
  b.toCBlockHeader.write ++ writeVector CTransaction.write b.vtx

def read : Reader CBlock := do
  let header ← CBlockHeader.read
  let vtx ← unserializeImpl ObjectSizes.sizeofCTransaction.step CTransaction.read
  pure ⟨header, vtx⟩

end CBlock

def CTxIn.getSerializeSize32 (txin : CTxIn) : UInt32 :=
  36 + UInt32.ofNat (CScript.getSerializeSize txin.scriptSig) + 4

def CTxOut.getSerializeSize32 (out : CTxOut) : UInt32 :=
  8 + UInt32.ofNat (CScript.getSerializeSize out.scriptPubKey)

def CTransaction.getSerializeSize32 (tx : CTransaction) : UInt32 :=
  4 + getSerializeSizeImpl CTxIn.getSerializeSize32 tx.vin +
    getSerializeSizeImpl CTxOut.getSerializeSize32 tx.vout + 4

def CBlock.getSerializeSize32 (b : CBlock) : UInt32 :=
  80 + getSerializeSizeImpl CTransaction.getSerializeSize32 b.vtx

theorem CTxIn.getSerializeSize32_eq (txin : CTxIn) :
    txin.getSerializeSize32 = UInt32.ofNat txin.getSerializeSize := by
  simp [getSerializeSize32, getSerializeSize, UInt32.ofNat_add]

theorem CTxOut.getSerializeSize32_eq (out : CTxOut) :
    out.getSerializeSize32 = UInt32.ofNat out.getSerializeSize := by
  simp [getSerializeSize32, getSerializeSize, UInt32.ofNat_add]

theorem CTransaction.getSerializeSize32_eq (tx : CTransaction) :
    tx.getSerializeSize32 = UInt32.ofNat tx.getSerializeSize := by
  rw [getSerializeSize32, getSerializeSizeImpl_eq CTxIn.getSerializeSize32_eq,
    getSerializeSizeImpl_eq CTxOut.getSerializeSize32_eq]
  simp [getSerializeSize, UInt32.ofNat_add]

theorem CBlock.getSerializeSize32_eq (b : CBlock) :
    b.getSerializeSize32 = UInt32.ofNat b.getSerializeSize := by
  rw [getSerializeSize32, getSerializeSizeImpl_eq CTransaction.getSerializeSize32_eq]
  simp [getSerializeSize, UInt32.ofNat_add]

/-! ## The formats -/

theorem format_unsigned :
    Format (fun _ => True) writeUnsigned readUnsignedInt fun _ => 4 where
  decodes n _ := by
    have h := (decodes_littleEndian_uint32 n).map UInt32.ofNat
    rwa [UInt32.ofNat_toNat] at h
  length n := length_littleEndian 4 _
  takes := .map _ ((takes_littleEndian 4).mono fun _ _ h => h.2.ge)

theorem format_uint256 : Format (fun _ => True) writeUint256 readUint256 fun _ => 32 where
  decodes a _ := decodes_writeUint256 a
  length _ := length_littleEndian 32 _
  takes := .map _ ((takes_littleEndian 32).mono fun _ _ h => h.2.ge)

theorem format_amount :
    Format (fun n => -2 ^ 63 ≤ n ∧ n < 2 ^ 63) writeAmount readAmount fun _ => 8 where
  decodes n hn := by
    have h := (decodes_littleEndian (k := 8) (Int64.ofInt n).toUInt64.toNat_lt).map
      fun n => (UInt64.ofNat n).toInt64.toInt
    rwa [UInt64.ofNat_toNat, show (Int64.ofInt n).toUInt64.toInt64 = Int64.ofInt n from rfl,
      Int64.toInt_ofInt_of_le hn.1 hn.2] at h
  length n := length_littleEndian 8 _
  takes := .map _ ((takes_littleEndian 8).mono fun _ _ h => h.2.ge)

theorem format_vector {α : Type} {fits : α → Prop} {write : α → List UInt8} {read : Reader α}
    {size : α → Nat} (h : Format fits write read size) {step : Nat} (hstep : 0 < step) :
    Format (fun v => v.length ≤ maxSize ∧ ∀ a ∈ v, fits a) (writeVector write)
      (unserializeImpl step read) (vectorSize size) where
  decodes v hv := by
    rw [unserializeImpl_eq hstep]
    have hdec : Decodes (readVector read) (writeVector write v) (v.map id) :=
      decodes_writeVector hv.1 fun a ha => h.decodes a (hv.2 a ha)
    rwa [List.map_id] at hdec
  length v := length_writeVector fun a _ => h.length a
  takes := by
    rw [unserializeImpl_eq hstep]
    exact takes_vector h.takes

theorem format_script :
    Format (fun s => s.length ≤ maxSize) CScript.writeUncompressed CScript.readUncompressed CScript.getSerializeSize := by
  have hbyte : Format (fun _ => True) (fun b => [b]) readByte fun _ => 1 :=
    ⟨fun b _ => Decodes.byte b, fun _ => rfl, Takes.byte.mono fun _ _ h => h.ge⟩
  have hvector := format_vector hbyte (by decide : 0 < 5000000)
  have hsize : ∀ s : CScript, vectorSize (fun _ => 1) s = CScript.getSerializeSize s := by
    intro s
    simp [vectorSize, CScript.getSerializeSize]
  refine ⟨fun s hs => hvector.decodes s ⟨hs, fun _ _ => trivial⟩, fun s => ?_, ?_⟩
  · rw [← hsize]
    exact hvector.length s
  · exact hvector.takes.mono fun s n h => hsize s ▸ h

theorem format_header : Format (fun _ => True) CBlockHeader.write CBlockHeader.read fun _ => 80 where
  decodes header _ := header.decodes_write
  length header := by
    simp [CBlockHeader.write, writeUint256, length_littleEndian]
  takes := by
    refine .bind (takes_littleEndian 4) fun _ _ h1 => .bind format_uint256.takes fun _ _ h2 =>
      .bind format_uint256.takes fun _ _ h3 => .bind (takes_littleEndian 4) fun _ _ h4 =>
      .bind (takes_littleEndian 4) fun _ _ h5 => .bind (takes_littleEndian 4) fun _ _ h6 =>
      .pure ?_
    omega

theorem format_outpoint : Format (fun _ => True) COutPoint.write COutPoint.read fun _ => 36 where
  decodes o _ := by
    refine Decodes.bind (format_uint256.decodes o.hash trivial) ?_
    rw [← List.append_nil (writeUnsigned o.n)]
    exact Decodes.bind (format_unsigned.decodes o.n trivial) (Decodes.pure _)
  length o := by
    rw [COutPoint.write, List.length_append, format_uint256.length, format_unsigned.length]
  takes := by
    refine .bind format_uint256.takes fun _ _ h1 => .bind format_unsigned.takes fun _ _ h2 =>
      .pure ?_
    omega

/-- The script is no longer than `MAX_SIZE`. -/
def CTxIn.Fits (txin : CTxIn) : Prop := txin.scriptSig.length ≤ maxSize

/-- The script is no longer than `MAX_SIZE` and the value is an `int64`. -/
def CTxOut.Fits (out : CTxOut) : Prop :=
  out.scriptPubKey.length ≤ maxSize ∧ -2 ^ 63 ≤ out.nValue ∧ out.nValue < 2 ^ 63

theorem format_txin : Format CTxIn.Fits CTxIn.write CTxIn.read CTxIn.getSerializeSize where
  decodes txin h := by
    refine Decodes.bind (format_outpoint.decodes txin.prevout trivial) ?_
    refine Decodes.bind (format_script.decodes txin.scriptSig h) ?_
    rw [← List.append_nil (writeUnsigned txin.nSequence)]
    exact Decodes.bind (format_unsigned.decodes txin.nSequence trivial) (Decodes.pure _)
  length txin := by
    rw [CTxIn.write, List.length_append, List.length_append, format_outpoint.length,
      format_script.length, format_unsigned.length, CTxIn.getSerializeSize, Nat.add_assoc]
  takes := by
    refine .bind format_outpoint.takes fun _ _ h1 => .bind format_script.takes fun _ _ h2 =>
      .bind format_unsigned.takes fun _ _ h3 => .pure ?_
    rw [CTxIn.getSerializeSize]
    dsimp only
    omega

theorem format_txout : Format CTxOut.Fits CTxOut.writeUncompressed CTxOut.readUncompressed CTxOut.getSerializeSize where
  decodes out h := by
    refine Decodes.bind (format_amount.decodes out.nValue h.2) ?_
    rw [← List.append_nil (CScript.writeUncompressed out.scriptPubKey)]
    exact Decodes.bind (format_script.decodes out.scriptPubKey h.1) (Decodes.pure _)
  length out := by
    rw [CTxOut.writeUncompressed, List.length_append, format_amount.length, format_script.length,
      CTxOut.getSerializeSize]
  takes := by
    refine .bind format_amount.takes fun _ _ h1 => .bind format_script.takes fun _ _ h2 => .pure ?_
    rw [CTxOut.getSerializeSize]
    dsimp only
    omega

/-- No vector of the transaction has more than `MAX_SIZE` elements, and the values are `int64`. -/
structure CTransaction.Fits (tx : CTransaction) : Prop where
  vin : tx.vin.length ≤ maxSize ∧ ∀ txin ∈ tx.vin, txin.Fits
  vout : tx.vout.length ≤ maxSize ∧ ∀ out ∈ tx.vout, out.Fits

/-- No vector of the block has more than `MAX_SIZE` elements. -/
def CBlock.Fits (b : CBlock) : Prop := b.vtx.length ≤ maxSize ∧ ∀ tx ∈ b.vtx, tx.Fits

section

variable [ObjectSizes]

theorem format_transaction :
    Format CTransaction.Fits CTransaction.write CTransaction.read CTransaction.getSerializeSize := by
  have hvin := format_vector format_txin ObjectSizes.sizeofCTxIn.step_pos
  have hvout := format_vector format_txout ObjectSizes.sizeofCTxOut.step_pos
  constructor
  case decodes =>
    intro tx h
    refine Decodes.bind (format_unsigned.decodes _ trivial) ?_
    refine Decodes.bind (hvin.decodes tx.vin h.vin) ?_
    refine Decodes.bind (hvout.decodes tx.vout h.vout) ?_
    rw [← List.append_nil (writeUnsigned tx.nLockTime)]
    exact Decodes.bind (format_unsigned.decodes tx.nLockTime trivial) (Decodes.pure _)
  case length =>
    intro tx
    rw [CTransaction.write, List.length_append, List.length_append, List.length_append,
      format_unsigned.length, format_unsigned.length, hvin.length, hvout.length,
      CTransaction.getSerializeSize]
    omega
  case takes =>
    refine .bind format_unsigned.takes fun _ _ h1 => .bind hvin.takes fun _ _ h2 =>
      .bind hvout.takes fun _ _ h3 => .bind format_unsigned.takes fun _ _ h4 => .pure ?_
    rw [CTransaction.getSerializeSize]
    dsimp only
    omega

theorem format_block : Format CBlock.Fits CBlock.write CBlock.read CBlock.getSerializeSize := by
  have hvtx := format_vector format_transaction ObjectSizes.sizeofCTransaction.step_pos
  constructor
  case decodes =>
    intro b h
    refine Decodes.bind (format_header.decodes b.toCBlockHeader trivial) ?_
    rw [← List.append_nil (writeVector CTransaction.write b.vtx)]
    exact Decodes.bind (hvtx.decodes b.vtx h) (Decodes.pure _)
  case length =>
    intro b
    rw [CBlock.write, List.length_append, format_header.length, hvtx.length,
      CBlock.getSerializeSize]
  case takes =>
    refine .bind format_header.takes fun _ _ h1 => .bind hvtx.takes fun _ _ h2 => .pure ?_
    rw [CBlock.getSerializeSize]
    dsimp only
    omega

end

/-! ## The three walks -/

/-- What is written is read back with nothing left over, `GetSerializeSize` is the number of bytes
written exactly if that is below `2 ^ 32`, and what any bytes are read as takes no more bytes when
it is written again. -/
structure RoundTrips {α : Type} (fits : α → Prop) (write : α → List UInt8) (read : Reader α)
    (getSerializeSize : α → UInt32) : Prop where
  read_write : ∀ a, fits a → ∀ rest, read (write a ++ rest) = some (a, rest)
  size_iff : ∀ a, (write a).length = (getSerializeSize a).toNat ↔ (write a).length < 2 ^ 32
  write_read : ∀ s a rest, read s = some (a, rest) →
    ∃ consumed, s = consumed ++ rest ∧ (write a).length ≤ consumed.length

theorem RoundTrips.of_format {α : Type} {fits : α → Prop} {write : α → List UInt8}
    {read : Reader α} {size : α → Nat} {getSerializeSize : α → UInt32}
    (h : Format fits write read size) (hsize : ∀ a, getSerializeSize a = UInt32.ofNat (size a)) :
    RoundTrips fits write read getSerializeSize where
  read_write := h.decodes
  size_iff a := by
    rw [hsize, h.length, UInt32.toNat_ofNat']
    omega
  write_read s a rest hread := by
    obtain ⟨consumed, hs, hle⟩ := h.takes s a rest hread
    exact ⟨consumed, hs, (h.length a).trans_le hle⟩

/-- Transactions and blocks round trip, for vectors of at most `MAX_SIZE` elements. -/
theorem roundTrips [ObjectSizes] :
    RoundTrips CTransaction.Fits CTransaction.write CTransaction.read
      CTransaction.getSerializeSize32 ∧
    RoundTrips CBlock.Fits CBlock.write CBlock.read CBlock.getSerializeSize32 :=
  ⟨.of_format format_transaction CTransaction.getSerializeSize32_eq,
    .of_format format_block CBlock.getSerializeSize32_eq⟩

namespace Sample

/-- `n` inputs with scripts of `m` bytes. -/
def wideTransaction (n m : Nat) : CTransaction where
  nVersion := 1
  vin := List.replicate n ⟨.null, List.replicate m 0, 0⟩
  vout := []
  nLockTime := 0

theorem fits_wideTransaction {n m : Nat} (hn : n ≤ maxSize) (hm : m ≤ maxSize) :
    (wideTransaction n m).Fits := by
  refine ⟨⟨?_, fun txin hmem => ?_⟩, ⟨Nat.zero_le _, nofun⟩⟩
  · rwa [wideTransaction, List.length_replicate]
  · rwa [List.eq_of_mem_replicate hmem, CTxIn.Fits, List.length_replicate]

theorem mul_le_wideTransaction (n m : Nat) :
    n * m ≤ (wideTransaction n m).getSerializeSize := by
  have hvin : (wideTransaction n m).vin = List.replicate n ⟨.null, List.replicate m 0, 0⟩ := rfl
  rw [CTransaction.getSerializeSize, hvin, vectorSize, List.map_replicate, List.sum_replicate_nat,
    CTxIn.getSerializeSize, CScript.getSerializeSize, List.length_replicate]
  have hle : n * m ≤ n * (36 + (getSizeOfCompactSize m + m) + 4) :=
    Nat.mul_le_mul_left n (by omega)
  dsimp only
  rw [List.length_replicate]
  omega

/-- 128 inputs with scripts of `MAX_SIZE` bytes are more than 4 GiB: the number of bytes overflows
the `unsigned int` of `GetSerializeSize`. -/
theorem not_serializeSize : ¬ ∀ [ObjectSizes] (tx : CTransaction), tx.Fits →
    tx.write.length = tx.getSerializeSize32.toNat := by
  intro h
  let sizes : ObjectSizes := ⟨⟨72, by decide⟩, ⟨32, by decide⟩, ⟨64, by decide⟩⟩
  have hmax : maxSize = 33554432 := rfl
  have hfits := fits_wideTransaction (n := 128) (by omega) (le_refl maxSize)
  have hle := mul_le_wideTransaction 128 maxSize
  generalize wideTransaction 128 maxSize = tx at hfits hle
  have hlt := tx.getSerializeSize32.toNat_lt
  rw [← h tx hfits, format_transaction.length] at hlt
  omega

end Sample

end Terracoin
