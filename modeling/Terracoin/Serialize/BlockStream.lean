import Terracoin.Lib.ReadProgram
import Terracoin.Serialize.BufferedFile
import Terracoin.Serialize.Transaction

/-!
# Blocks from a file

`Unserialize` of a `CBlock` as a program that reads, since what a `CBufferedFile` does depends on the
sizes of the single reads. On a list of bytes it is the reader of blocks
(`CBlock.eval_unserialize`), and in a file it yields the block that is there, as long as it is not
too long for the buffer (`CBlock.attempt_unserialize`).
-/

namespace Terracoin

open Codec ReadProgram

/-! ## Numbers -/

/-- The number that bytes make, the lowest first. -/
def littleEndianValue : List UInt8 → Nat
  | [] => 0
  | b :: s => b.toNat + 256 * littleEndianValue s

theorem readLittleEndian_eq (k : Nat) (s : List UInt8) : readLittleEndian k s =
    if s.length < k then none else some (littleEndianValue (s.take k), s.drop k) := by
  induction k generalizing s with
  | zero => rfl
  | succ k ih =>
    cases s with
    | nil => rfl
    | cons b s =>
      change (readLittleEndian k s).bind _ = _
      rw [ih, List.length_cons]
      split_ifs with h h'
      · rfl
      · omega
      · omega
      · rfl

/-- `READDATA` of a number. -/
def unserializeInt (k : Nat) : Program Nat := do
  let bytes ← Program.bytes k
  pure (littleEndianValue bytes)

@[simp] theorem eval_unserializeInt (k : Nat) : (unserializeInt k).eval = readLittleEndian k := by
  funext s
  rw [readLittleEndian_eq]
  rfl

/-- `READDATA` of an `unsigned char`. -/
def unserializeByte : Program UInt8 := do
  let bytes ← Program.bytes 1
  pure (bytes.headD 0)

@[simp] theorem eval_unserializeByte : unserializeByte.eval = readByte := by
  funext s
  cases s with
  | nil => rfl
  | cons b s => rfl

/-! ## Vectors -/

def unserializeCompactSizeAfter (chSize : UInt8) : Program Nat :=
  if chSize < 253 then pure chSize.toNat
  else if chSize = 253 then unserializeInt 2
  else if chSize = 254 then unserializeInt 4
  else unserializeInt 8

def unserializeCompactSize : Program Nat := do
  let chSize ← unserializeByte
  let nSize ← unserializeCompactSizeAfter chSize
  if maxSize < nSize then .fail else pure nSize

@[simp] theorem eval_unserializeCompactSize : unserializeCompactSize.eval = readCompactSize := by
  have hafter : ∀ chSize,
      (unserializeCompactSizeAfter chSize).eval = readCompactSizeAfter chSize := by
    intro chSize
    rw [unserializeCompactSizeAfter, readCompactSizeAfter]
    split_ifs
    · rfl
    · exact eval_unserializeInt 2
    · exact eval_unserializeInt 4
    · exact eval_unserializeInt 8
  have hcheck : ∀ nSize : Nat,
      (if maxSize < nSize then .fail else pure nSize : Program Nat).eval = checkMaxSize nSize := by
    intro nSize
    funext s
    rw [checkMaxSize]
    split
    · rfl
    · rfl
  simp only [unserializeCompactSize, Program.eval_bind, eval_unserializeByte, hafter, hcheck,
    readCompactSize]

/-- `Unserialize_impl` of a vector of bytes: they are read in blocks. -/
def unserializeBytes : Program (List UInt8) := do
  let nSize ← unserializeCompactSize
  Program.chunks Program.bytes 5000000 nSize nSize

@[simp] theorem eval_unserializeBytes :
    unserializeBytes.eval = unserializeImpl 5000000 readByte := by
  have hbytes : ∀ n, (Program.bytes n).eval = readMany readByte n := fun n =>
    (Program.eval_bytes n).trans (Program.readMany_readByte n).symm
  simp only [unserializeBytes, Program.eval_bind, eval_unserializeCompactSize,
    Program.eval_chunks hbytes, unserializeImpl]

def unserializeVector {α : Type} (step : Nat) (p : Program α) : Program (List α) := do
  let nSize ← unserializeCompactSize
  Program.chunks p.many step nSize nSize

@[simp] theorem eval_unserializeVector {α : Type} (step : Nat) (p : Program α) :
    (unserializeVector step p).eval = unserializeImpl step p.eval := by
  simp only [unserializeVector, Program.eval_bind, eval_unserializeCompactSize,
    Program.eval_chunks p.eval_many, unserializeImpl]

/-! ## The fields -/

/-- `FLATDATA`: all at once. -/
def COutPoint.unserialize : Program COutPoint := do
  let bytes ← Program.bytes 36
  pure ⟨BitVec.ofNat 256 (littleEndianValue (bytes.take 32)),
    UInt32.ofNat (littleEndianValue (bytes.drop 32))⟩

@[simp] theorem COutPoint.eval_unserialize : COutPoint.unserialize.eval = COutPoint.read := by
  funext s
  have hread : COutPoint.read = (readLittleEndian 32 >>= fun hash => readLittleEndian 4 >>= fun n =>
      pure ⟨BitVec.ofNat 256 hash, UInt32.ofNat n⟩) := by
    simp only [COutPoint.read, readUint256, readUnsignedInt, bind_map_left]
  rw [hread]
  change (if s.length < 36 then none else _) = (readLittleEndian 32 s).bind fun p =>
    (readLittleEndian 4 p.2).bind _
  rw [readLittleEndian_eq]
  by_cases hhash : s.length < 32
  · rw [if_pos (by omega), if_pos hhash]
    rfl
  · rw [if_neg hhash]
    change _ = (readLittleEndian 4 (s.drop 32)).bind _
    rw [readLittleEndian_eq, List.length_drop]
    by_cases hn : s.length - 32 < 4
    · rw [if_pos (by omega), if_pos hn]
      rfl
    · rw [if_neg (by omega), if_neg hn, List.drop_drop]
      change some (COutPoint.mk (BitVec.ofNat 256 (littleEndianValue ((s.take 36).take 32)))
        (UInt32.ofNat (littleEndianValue ((s.take 36).drop 32))), s.drop 36) = _
      rw [List.take_take, List.drop_take]
      rfl

def CTxIn.unserialize : Program CTxIn := do
  let prevout ← COutPoint.unserialize
  let scriptSig ← unserializeBytes
  let nSequence ← unserializeInt 4
  pure ⟨prevout, scriptSig, UInt32.ofNat nSequence⟩

@[simp] theorem CTxIn.eval_unserialize : CTxIn.unserialize.eval = CTxIn.read := by
  simp only [CTxIn.unserialize, Program.eval_bind, COutPoint.eval_unserialize,
    eval_unserializeBytes, eval_unserializeInt, Program.eval_pure, CTxIn.read,
    CScript.readUncompressed, readUnsignedInt, bind_map_left]

def CTxOut.unserialize : Program CTxOut := do
  let nValue ← unserializeInt 8
  let scriptPubKey ← unserializeBytes
  pure ⟨(UInt64.ofNat nValue).toInt64.toInt, scriptPubKey⟩

@[simp] theorem CTxOut.eval_unserialize :
    CTxOut.unserialize.eval = CTxOut.readUncompressed := by
  simp only [CTxOut.unserialize, Program.eval_bind, eval_unserializeBytes, eval_unserializeInt,
    Program.eval_pure, CTxOut.readUncompressed, CScript.readUncompressed, readAmount, bind_map_left]

def CBlockHeader.unserialize : Program CBlockHeader := do
  let nVersion ← unserializeInt 4
  let hashPrevBlock ← unserializeInt 32
  let hashMerkleRoot ← unserializeInt 32
  let nTime ← unserializeInt 4
  let nBits ← unserializeInt 4
  let nNonce ← unserializeInt 4
  pure ⟨(UInt32.ofNat nVersion).toInt32, BitVec.ofNat 256 hashPrevBlock,
    BitVec.ofNat 256 hashMerkleRoot, UInt32.ofNat nTime, UInt32.ofNat nBits, UInt32.ofNat nNonce⟩

@[simp] theorem CBlockHeader.eval_unserialize :
    CBlockHeader.unserialize.eval = CBlockHeader.read := by
  simp only [CBlockHeader.unserialize, Program.eval_bind, eval_unserializeInt, Program.eval_pure,
    CBlockHeader.read, readUint256, bind_map_left]

section

variable [ObjectSizes]

def CTransaction.unserialize : Program CTransaction := do
  let nVersion ← unserializeInt 4
  let vin ← unserializeVector ObjectSizes.sizeofCTxIn.step CTxIn.unserialize
  let vout ← unserializeVector ObjectSizes.sizeofCTxOut.step CTxOut.unserialize
  let nLockTime ← unserializeInt 4
  pure ⟨(UInt32.ofNat nVersion).toInt32, vin, vout, UInt32.ofNat nLockTime⟩

@[simp] theorem CTransaction.eval_unserialize :
    CTransaction.unserialize.eval = CTransaction.read := by
  simp only [CTransaction.unserialize, Program.eval_bind, eval_unserializeInt,
    eval_unserializeVector, CTxIn.eval_unserialize, CTxOut.eval_unserialize, Program.eval_pure,
    CTransaction.read, readUnsignedInt, bind_map_left]

/-- The part of a block after its header. -/
def CBlock.unserializeVtx : Program (List CTransaction) :=
  unserializeVector ObjectSizes.sizeofCTransaction.step CTransaction.unserialize

def CBlock.unserialize : Program CBlock := do
  let header ← CBlockHeader.unserialize
  let vtx ← CBlock.unserializeVtx
  pure ⟨header, vtx⟩

theorem CBlock.eval_unserialize : CBlock.unserialize.eval = CBlock.read := by
  simp only [CBlock.unserialize, CBlock.unserializeVtx, Program.eval_bind,
    CBlockHeader.eval_unserialize, eval_unserializeVector, CTransaction.eval_unserialize,
    Program.eval_pure, CBlock.read]

/-- A block in the file is read, if there is room for everything but its header at once. -/
theorem CBlock.attempt_unserialize {b : CBlock} (hb : b.Fits) {src rest : List UInt8}
    {pos limit room : Nat} (hsrc : src.drop pos = b.write ++ rest)
    (hlimit : pos + b.write.length ≤ limit) (hheader : 80 ≤ room)
    (hroom : b.write.length ≤ room + 80) :
    CBlock.unserialize.attempt src limit room pos = .ok b (pos + b.write.length) := by
  have hvector := format_vector format_transaction ObjectSizes.sizeofCTransaction.step_pos
  have hlength : b.toCBlockHeader.write.length = 80 := format_header.length _
  rw [CBlock.write, List.append_assoc] at hsrc
  rw [CBlock.write, List.length_append, hlength] at hlimit hroom ⊢
  generalize hvtx : writeVector CTransaction.write b.vtx = vtx at hsrc hlimit hroom ⊢
  have hend := congrArg List.length hsrc
  rw [List.length_drop, List.length_append, List.length_append, hlength] at hend
  -- the header
  have hrest : src.drop (pos + 80) = vtx ++ rest := by
    rw [← List.drop_drop, hsrc, ← hlength, List.drop_left]
  have hread : CBlockHeader.unserialize.eval (src.drop pos)
      = some (b.toCBlockHeader, src.drop (pos + 80)) := by
    rw [CBlockHeader.eval_unserialize, hsrc, hrest]
    exact format_header.decodes _ trivial _
  -- the transactions
  have hrest1 : src.drop (pos + (80 + vtx.length)) = rest := by
    rw [← Nat.add_assoc, ← List.drop_drop, hrest, List.drop_left]
  have hread1 : CBlock.unserializeVtx.eval (src.drop (pos + 80))
      = some (b.vtx, src.drop (pos + (80 + vtx.length))) := by
    rw [CBlock.unserializeVtx, eval_unserializeVector, CTransaction.eval_unserialize, hrest,
      hrest1, ← hvtx]
    exact hvector.decodes _ hb _
  rw [CBlock.unserialize, Program.attempt_bind,
    Program.attempt_of_eval (by omega) (by omega) (by omega) (by omega) hread]
  dsimp only
  rw [Program.attempt_bind,
    Program.attempt_of_eval (by omega) (by omega) hlimit (by omega) hread1]
  rfl

end

namespace CBufferedFile

/-- `operator>>`. -/
def runOn {α : Type} : Program α → CBufferedFile → StreamResult α × CBufferedFile
  | .done a, f => (.ok a, f)
  | .fail, f => (.thrown, f)
  | .read n next, f =>
    match f.read n with
    | (.ok bytes, f) => runOn (next bytes) f
    | (.thrown, f) => (.thrown, f)
    | (.stuck, f) => (.stuck, f)

end CBufferedFile

end Terracoin
