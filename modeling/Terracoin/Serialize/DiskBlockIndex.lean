import Terracoin.Serialize.VarInt
import Terracoin.Validation.ConnectBlock

/-!
# The format of the block index

The bits of `nStatus`, and `CDiskBlockIndex` in the block tree database: some numbers as varints, the
position of the block and of its undo data only if `nStatus` says that they exist, and the header.
-/

namespace Terracoin

open Codec

/-! ## `nStatus` -/

def BLOCK_VALID_MASK : UInt32 := 7
def BLOCK_HAVE_DATA : UInt32 := 8
def BLOCK_HAVE_UNDO : UInt32 := 16
def BLOCK_FAILED_VALID : UInt32 := 32
def BLOCK_FAILED_CHILD : UInt32 := 64
def BLOCK_FAILED_MASK : UInt32 := 96

namespace BlockStatus

def toUInt32 (nStatus : BlockStatus) : UInt32 :=
  UInt32.ofNat nStatus.validity ||| (if nStatus.haveData then BLOCK_HAVE_DATA else 0) |||
    (if nStatus.haveUndo then BLOCK_HAVE_UNDO else 0) |||
    (if nStatus.failedValid then BLOCK_FAILED_VALID else 0) |||
    (if nStatus.failedChild then BLOCK_FAILED_CHILD else 0)

def Fits (nStatus : BlockStatus) : Prop := nStatus.validity < 8

/-- What the masks read off the number. -/
structure Masks (nStatus : BlockStatus) (n : UInt32) : Prop where
  validity : (n &&& BLOCK_VALID_MASK).toNat = nStatus.validity
  haveData : n &&& BLOCK_HAVE_DATA ≠ 0 ↔ nStatus.haveData = true
  haveUndo : n &&& BLOCK_HAVE_UNDO ≠ 0 ↔ nStatus.haveUndo = true
  havePos : n &&& (BLOCK_HAVE_DATA ||| BLOCK_HAVE_UNDO) ≠ 0 ↔
    nStatus.haveData = true ∨ nStatus.haveUndo = true
  failed : n &&& BLOCK_FAILED_MASK ≠ 0 ↔ nStatus.failedValid = true ∨ nStatus.failedChild = true

theorem Fits.masks {nStatus : BlockStatus} (h : nStatus.Fits) : Masks nStatus nStatus.toUInt32 := by
  obtain ⟨v, haveData, haveUndo, failedValid, failedChild⟩ := nStatus
  have hlt : v < 8 := h
  clear h
  have hv : v = 0 ∨ v = 1 ∨ v = 2 ∨ v = 3 ∨ v = 4 ∨ v = 5 ∨ v = 6 ∨ v = 7 := by omega
  constructor <;>
    rcases hv with rfl | rfl | rfl | rfl | rfl | rfl | rfl | rfl <;>
    revert haveData haveUndo failedValid failedChild <;> decide

end BlockStatus

namespace CBlockHeader

def write (header : CBlockHeader) : List UInt8 :=
  littleEndian 4 header.nVersion.toUInt32.toNat ++ (writeUint256 header.hashPrevBlock ++
    (writeUint256 header.hashMerkleRoot ++ (littleEndian 4 header.nTime.toNat ++
      (littleEndian 4 header.nBits.toNat ++ littleEndian 4 header.nNonce.toNat))))

def read : Reader CBlockHeader := do
  let nVersion ← readLittleEndian 4
  let hashPrevBlock ← readUint256
  let hashMerkleRoot ← readUint256
  let nTime ← readLittleEndian 4
  let nBits ← readLittleEndian 4
  let nNonce ← readLittleEndian 4
  pure ⟨(UInt32.ofNat nVersion).toInt32, hashPrevBlock, hashMerkleRoot, UInt32.ofNat nTime,
    UInt32.ofNat nBits, UInt32.ofNat nNonce⟩

end CBlockHeader

theorem decodes_littleEndian_uint32 (n : UInt32) :
    Decodes (readLittleEndian 4) (littleEndian 4 n.toNat) n.toNat :=
  decodes_littleEndian (lt_of_lt_of_eq n.toNat_lt (by decide))

theorem CBlockHeader.decodes_write (header : CBlockHeader) :
    Decodes CBlockHeader.read header.write header := by
  refine Decodes.bind (decodes_littleEndian_uint32 _) ?_
  refine Decodes.bind (decodes_writeUint256 _) ?_
  refine Decodes.bind (decodes_writeUint256 _) ?_
  refine Decodes.bind (decodes_littleEndian_uint32 _) ?_
  refine Decodes.bind (decodes_littleEndian_uint32 _) ?_
  rw [← List.append_nil (littleEndian 4 header.nNonce.toNat)]
  refine Decodes.bind (decodes_littleEndian_uint32 _) ?_
  simp only [UInt32.ofNat_toNat, UInt32.toInt32]
  exact Decodes.pure _

/-! ## The record -/

/-- `CDiskBlockIndex`: the header has the hash of the predecessor, 0 without one. -/
structure CDiskBlockIndex where
  nHeight : Int32
  nStatus : UInt32
  nTx : UInt32
  nFile : Int32
  nDataPos : UInt32
  nUndoPos : UInt32
  header : CBlockHeader
deriving DecidableEq, Repr

/-- `CLIENT_VERSION`. -/
def clientVersion : Int32 := 80000

namespace CDiskBlockIndex

/-- The block or its undo data has a position. -/
def hasFile (nStatus : UInt32) : Bool := nStatus &&& (BLOCK_HAVE_DATA ||| BLOCK_HAVE_UNDO) != 0

def hasData (nStatus : UInt32) : Bool := nStatus &&& BLOCK_HAVE_DATA != 0

def hasUndo (nStatus : UInt32) : Bool := nStatus &&& BLOCK_HAVE_UNDO != 0

def write (diskindex : CDiskBlockIndex) : List UInt8 :=
  writeVarInt clientVersion.toInt ++ (writeVarInt diskindex.nHeight.toInt ++
    (writeVarInt diskindex.nStatus.toNat ++ (writeVarInt diskindex.nTx.toNat ++
      ((if hasFile diskindex.nStatus then writeVarInt diskindex.nFile.toInt else []) ++
        ((if hasData diskindex.nStatus then writeVarInt diskindex.nDataPos.toNat else []) ++
          ((if hasUndo diskindex.nStatus then writeVarInt diskindex.nUndoPos.toNat else []) ++
            diskindex.header.write))))))

def readUnsigned : Reader UInt32 := UInt32.ofNat <$> readVarInt 32

/-- Read a field that is only there under a condition. -/
def readIf {α : Type} (c : Bool) (read : Reader α) (d : α) : Reader α :=
  if c then read else pure d

/-- Unserialize into `CDiskBlockIndex()`, whose positions are 0. -/
def read : Reader CDiskBlockIndex := do
  let _ ← readVarIntInt
  let nHeight ← readVarIntInt
  let nStatus ← readUnsigned
  let nTx ← readUnsigned
  let nFile ← readIf (hasFile nStatus) readVarIntInt 0
  let nDataPos ← readIf (hasData nStatus) readUnsigned 0
  let nUndoPos ← readIf (hasUndo nStatus) readUnsigned 0
  let header ← CBlockHeader.read
  pure ⟨nHeight, nStatus, nTx, nFile, nDataPos, nUndoPos, header⟩

/-- What the record is read back as: the positions that are not written are 0. -/
def readBack (diskindex : CDiskBlockIndex) : CDiskBlockIndex :=
  { diskindex with
    nFile := if hasFile diskindex.nStatus then diskindex.nFile else 0
    nDataPos := if hasData diskindex.nStatus then diskindex.nDataPos else 0
    nUndoPos := if hasUndo diskindex.nStatus then diskindex.nUndoPos else 0 }

theorem decodes_unsigned (n : UInt32) : Decodes readUnsigned (writeVarInt n.toNat) n := by
  have h := (decodes_writeVarInt (w := 32) n.toNat_lt).map UInt32.ofNat
  rwa [UInt32.ofNat_toNat] at h

theorem decodes_int {n : Int32} (h : 0 ≤ n) : Decodes readVarIntInt (writeVarInt n.toInt) n := by
  have hdec := decodes_writeVarInt_int n
  rwa [varIntValue_eq_self.mpr h] at hdec

theorem decodes_readIf {α : Type} {read : Reader α} {bytes : List UInt8} {a d : α} {c : Bool}
    (h : Decodes read bytes a) :
    Decodes (readIf c read d) (if c then bytes else []) (if c then a else d) := by
  cases c with
  | false => exact Decodes.pure d
  | true => exact h

theorem decodes_write {diskindex : CDiskBlockIndex} (hheight : 0 ≤ diskindex.nHeight)
    (hfile : 0 ≤ diskindex.nFile) : Decodes read diskindex.write diskindex.readBack := by
  refine Decodes.bind (decodes_int (by decide)) ?_
  refine Decodes.bind (decodes_int hheight) ?_
  refine Decodes.bind (decodes_unsigned _) ?_
  refine Decodes.bind (decodes_unsigned _) ?_
  refine Decodes.bind (decodes_readIf (decodes_int hfile)) ?_
  refine Decodes.bind (decodes_readIf (decodes_unsigned _)) ?_
  refine Decodes.bind (decodes_readIf (decodes_unsigned _)) ?_
  rw [← List.append_nil diskindex.header.write]
  refine Decodes.bind (CBlockHeader.decodes_write _) ?_
  exact Decodes.pure _

end CDiskBlockIndex

end Terracoin
