import Terracoin.Serialize.TxOut
import Terracoin.Coins.Coins

/-!
# The format of undo data

`CTxInUndo`, `CTxUndo` and `CBlockUndo` in the undo files. The metadata of a record is there only
if its height is not zero; `readBack` says what every record is read back as, and
`CBlockUndo.readBack_eq_self` when that is the record itself.
-/

namespace Terracoin

open Codec

namespace CTxInUndo

/-- Height and coinbase flag in one `unsigned int`. -/
def nCode (undo : CTxInUndo) : Nat :=
  ((undo.nHeight * 2 + if undo.fCoinBase then 1 else 0) % 2 ^ 32).toNat

def getSerializeSize [PublicKeys] (undo : CTxInUndo) : Nat :=
  getSizeOfVarInt undo.nCode +
    (if 0 < undo.nHeight then getSizeOfVarInt undo.nVersion.toInt else 0) +
    undo.txout.compressedSize

def write [PublicKeys] (undo : CTxInUndo) : List UInt8 :=
  writeVarInt undo.nCode ++
    ((if 0 < undo.nHeight then writeVarInt undo.nVersion.toInt else []) ++ undo.txout.write)

/-- The version that follows a height; without a height it stays that of `CTxInUndo()`. -/
def readVersion (nHeight : Nat) : Reader Int32 := if 0 < nHeight then readVarIntInt else pure 0

def read [PublicKeys] : Reader CTxInUndo := do
  let nCode ← readVarInt 32
  let nVersion ← readVersion (nCode / 2)
  let txout ← CTxOut.read
  pure ⟨txout, nCode.testBit 0, (nCode / 2 : Nat), nVersion⟩

/-- A record that spending an output may leave. -/
structure Storable (undo : CTxInUndo) : Prop where
  txout : undo.txout.Storable
  nHeight_nonneg : 0 ≤ undo.nHeight
  nHeight_lt : undo.nHeight < 2 ^ 31
  nVersion : undo.nHeight = 0 → undo.nVersion = 0

def readBack (undo : CTxInUndo) : CTxInUndo := { undo with nVersion := varIntValue undo.nVersion }

theorem length_write [PublicKeys] (undo : CTxInUndo) :
    undo.write.length = undo.getSerializeSize := by
  rw [write, List.length_append, List.length_append, length_writeVarInt, CTxOut.length_write,
    getSerializeSize, apply_ite List.length, length_writeVarInt, List.length_nil, Nat.add_assoc]

theorem Storable.readBack {undo : CTxInUndo} (h : undo.Storable) : undo.readBack.Storable := by
  refine ⟨h.txout, h.nHeight_nonneg, h.nHeight_lt, ?_⟩
  intro h0
  change varIntValue undo.nVersion = 0
  rw [h.nVersion h0]
  rfl

theorem Storable.nCode {undo : CTxInUndo} (h : undo.Storable) :
    undo.nCode < 2 ^ 32 ∧ ((undo.nCode / 2 : Nat) : Int) = undo.nHeight ∧
      undo.nCode.testBit 0 = undo.fCoinBase := by
  have h0 := h.nHeight_nonneg
  have h1 := h.nHeight_lt
  unfold CTxInUndo.nCode
  rw [Nat.testBit_zero]
  cases undo.fCoinBase
  · rw [if_neg Bool.false_ne_true, decide_eq_false_iff_not]
    omega
  · rw [if_pos rfl, decide_eq_true_eq]
    omega

theorem decodes_write [PublicKeys] [LawfulPublicKeys] {undo : CTxInUndo} (h : undo.Storable) :
    Decodes read undo.write undo.readBack := by
  obtain ⟨hlt, hheight, hcoinbase⟩ := h.nCode
  have hversion : Decodes (readVersion (undo.nCode / 2))
      (if 0 < undo.nHeight then writeVarInt undo.nVersion.toInt else [])
      (varIntValue undo.nVersion) := by
    unfold readVersion
    by_cases hpos : 0 < undo.nHeight
    · rw [if_pos hpos, if_pos (by omega)]
      exact decodes_writeVarInt_int _
    · have h0 := h.nHeight_nonneg
      rw [if_neg hpos, if_neg (by omega), h.nVersion (by omega)]
      exact Decodes.pure _
  refine Decodes.bind (decodes_writeVarInt hlt) (Decodes.bind hversion ?_)
  rw [← List.append_nil undo.txout.write]
  refine Decodes.bind (CTxOut.decodes_write h.txout) ?_
  rw [hheight, hcoinbase]
  exact Decodes.pure _

/-- Records that agree where it matters: on the metadata only if there is a height. -/
structure Agree (undo undo' : CTxInUndo) : Prop where
  txout : undo'.txout = undo.txout
  nHeight : undo'.nHeight = undo.nHeight
  metadata : 0 < undo.nHeight →
    undo'.fCoinBase = undo.fCoinBase ∧ undo'.nVersion = undo.nVersion

theorem agree_readBack {undo : CTxInUndo} :
    Agree undo undo.readBack ↔ (0 < undo.nHeight → 0 ≤ undo.nVersion) := by
  constructor
  · intro hagree hpos
    exact varIntValue_eq_self.mp (hagree.metadata hpos).2
  · intro hv
    exact ⟨rfl, rfl, fun hpos => ⟨rfl, varIntValue_eq_self.mpr (hv hpos)⟩⟩

theorem Storable.readBack_eq_self {undo : CTxInUndo} (h : undo.Storable)
    (hv : 0 < undo.nHeight → 0 ≤ undo.nVersion) : undo.readBack = undo := by
  have hnonneg : 0 ≤ undo.nVersion := by
    by_cases hpos : 0 < undo.nHeight
    · exact hv hpos
    · have h0 := h.nHeight_nonneg
      rw [h.nVersion (by omega)]
      decide
  rw [CTxInUndo.readBack, varIntValue_eq_self.mpr hnonneg]

end CTxInUndo

namespace CTxUndo

def getSerializeSize [PublicKeys] (txundo : CTxUndo) : Nat :=
  vectorSize CTxInUndo.getSerializeSize txundo.vprevout

def write [PublicKeys] (txundo : CTxUndo) : List UInt8 :=
  writeVector CTxInUndo.write txundo.vprevout

def read [PublicKeys] : Reader CTxUndo := CTxUndo.mk <$> readVector CTxInUndo.read

structure Storable (txundo : CTxUndo) : Prop where
  length_le : txundo.vprevout.length ≤ maxSize
  vprevout : ∀ undo ∈ txundo.vprevout, undo.Storable

def readBack (txundo : CTxUndo) : CTxUndo := ⟨txundo.vprevout.map CTxInUndo.readBack⟩

theorem length_write [PublicKeys] (txundo : CTxUndo) :
    txundo.write.length = txundo.getSerializeSize :=
  length_writeVector fun undo _ => undo.length_write

theorem decodes_write [PublicKeys] [LawfulPublicKeys] {txundo : CTxUndo} (h : txundo.Storable) :
    Decodes read txundo.write txundo.readBack :=
  (decodes_writeVector h.length_le fun undo hundo => CTxInUndo.decodes_write
    (h.vprevout undo hundo)).map CTxUndo.mk

theorem Storable.readBack {txundo : CTxUndo} (h : txundo.Storable) : txundo.readBack.Storable := by
  refine ⟨?_, ?_⟩
  · rw [CTxUndo.readBack, List.length_map]
    exact h.length_le
  · intro undo hundo
    obtain ⟨undo', hundo', rfl⟩ := List.mem_map.mp hundo
    exact (h.vprevout undo' hundo').readBack

end CTxUndo

namespace CBlockUndo

def getSerializeSize [PublicKeys] (blockundo : CBlockUndo) : Nat :=
  vectorSize CTxUndo.getSerializeSize blockundo.vtxundo

def write [PublicKeys] (blockundo : CBlockUndo) : List UInt8 :=
  writeVector CTxUndo.write blockundo.vtxundo

def read [PublicKeys] : Reader CBlockUndo := CBlockUndo.mk <$> readVector CTxUndo.read

structure Storable (blockundo : CBlockUndo) : Prop where
  length_le : blockundo.vtxundo.length ≤ maxSize
  vtxundo : ∀ txundo ∈ blockundo.vtxundo, txundo.Storable

def readBack (blockundo : CBlockUndo) : CBlockUndo := ⟨blockundo.vtxundo.map CTxUndo.readBack⟩

theorem length_write [PublicKeys] (blockundo : CBlockUndo) :
    blockundo.write.length = blockundo.getSerializeSize :=
  length_writeVector fun txundo _ => txundo.length_write

theorem decodes_write [PublicKeys] [LawfulPublicKeys] {blockundo : CBlockUndo}
    (h : blockundo.Storable) : Decodes read blockundo.write blockundo.readBack :=
  (decodes_writeVector h.length_le fun txundo htxundo => CTxUndo.decodes_write
    (h.vtxundo txundo htxundo)).map CBlockUndo.mk

theorem Storable.readBack {blockundo : CBlockUndo} (h : blockundo.Storable) :
    blockundo.readBack.Storable := by
  refine ⟨?_, ?_⟩
  · rw [CBlockUndo.readBack, List.length_map]
    exact h.length_le
  · intro txundo htxundo
    obtain ⟨txundo', htxundo', rfl⟩ := List.mem_map.mp htxundo
    exact (h.vtxundo txundo' htxundo').readBack

/-- As many bytes as announced are written, and they are read back as undo data with the same
records for the same transactions. -/
def RoundTrips [PublicKeys] (blockundo : CBlockUndo) : Prop :=
  blockundo.write.length = blockundo.getSerializeSize ∧
    ∃ blockundo', Decodes read blockundo.write blockundo' ∧
      List.Forall₂ (fun txundo txundo' : CTxUndo =>
        List.Forall₂ CTxInUndo.Agree txundo.vprevout txundo'.vprevout)
        blockundo.vtxundo blockundo'.vtxundo

/-- No record carries the metadata of a transaction with a negative version. -/
def VersionsNonneg (blockundo : CBlockUndo) : Prop :=
  ∀ txundo ∈ blockundo.vtxundo, ∀ undo ∈ txundo.vprevout, 0 < undo.nHeight → 0 ≤ undo.nVersion

theorem Storable.readBack_eq_self {blockundo : CBlockUndo} (h : blockundo.Storable)
    (hv : blockundo.VersionsNonneg) : blockundo.readBack = blockundo := by
  have htx : ∀ txundo ∈ blockundo.vtxundo, txundo.readBack = txundo := by
    intro txundo htxundo
    have hin : ∀ undo ∈ txundo.vprevout, undo.readBack = undo := fun undo hundo =>
      ((h.vtxundo txundo htxundo).vprevout undo hundo).readBack_eq_self (hv txundo htxundo undo hundo)
    rw [CTxUndo.readBack, List.map_congr_left hin, List.map_id']
  rw [CBlockUndo.readBack, List.map_congr_left htx, List.map_id']

theorem Storable.roundTrips_iff_versionsNonneg [PublicKeys] [LawfulPublicKeys]
    {blockundo : CBlockUndo} (h : blockundo.Storable) :
    blockundo.RoundTrips ↔ blockundo.VersionsNonneg := by
  have hdec := decodes_write h
  constructor
  · rintro ⟨-, blockundo', hdec', hagree⟩ txundo htxundo undo hundo
    obtain rfl : blockundo.readBack = blockundo' := (hdec.eq (hdec' [])).1
    rw [CBlockUndo.readBack, List.forall₂_map_right_iff, List.forall₂_same] at hagree
    have htx := hagree txundo htxundo
    rw [CTxUndo.readBack, List.forall₂_map_right_iff, List.forall₂_same] at htx
    exact CTxInUndo.agree_readBack.mp (htx undo hundo)
  · intro hv
    rw [h.readBack_eq_self hv] at hdec
    refine ⟨blockundo.length_write, blockundo, hdec, ?_⟩
    rw [List.forall₂_same]
    intro txundo htxundo
    rw [List.forall₂_same]
    exact fun undo _ => ⟨rfl, rfl, fun _ => ⟨rfl, rfl⟩⟩

end CBlockUndo

end Terracoin
