import Terracoin.Serialize.MapValue

/-!
# Wallet transactions as bytes

Five fields of a `CWalletTx` are written as items of its map: they are put into the map before a
walk that writes and are taken out of it after each walk. A wallet transaction whose map has none of
these keys is left as it was, and it is read back as long as nothing in it has more than `MAX_SIZE`
elements (`CWalletTx.roundTrip`).
-/

namespace Terracoin.WalletFile

open Codec

/-- The fields of a `CMerkleTx` that are stored. -/
structure CMerkleTx extends CTransaction where
  hashBlock : uint256
  vMerkleBranch : List uint256
  nIndex : Int32

/-- The fields of a `CWalletTx` that are not memory only. -/
structure CWalletTx extends CMerkleTx where
  vtxPrev : List CMerkleTx
  mapValue : mapValue_t
  vOrderForm : List (Text × Text)
  fTimeReceivedIsTxTime : UInt32
  nTimeReceived : UInt32
  nTimeSmart : UInt32
  fFromMe : UInt8
  strFromAccount : Text
  vfSpent : List UInt8
  nOrderPos : Int64

/-- The sizes of the objects in vectors. -/
class WalletObjectSizes extends ObjectSizes where
  sizeofCMerkleTx : ObjectSize
  sizeofPair : ObjectSize

/-! ## Merkle transactions -/

namespace CMerkleTx

variable [WalletObjectSizes]

/-- A `uint256` has 32 bytes. -/
def readBranch : Reader (List uint256) := unserializeImpl (5000000 / 32) readUint256

def write (m : CMerkleTx) : List UInt8 :=
  m.toCTransaction.write ++ (writeUint256 m.hashBlock ++
    (writeVector writeUint256 m.vMerkleBranch ++ writeUnsigned m.nIndex.toUInt32))

def read : Reader CMerkleTx := do
  let tx ← CTransaction.read
  let hashBlock ← readUint256
  let vMerkleBranch ← readBranch
  let nIndex ← readUnsignedInt
  pure { tx with hashBlock, vMerkleBranch, nIndex := nIndex.toInt32 }

omit [WalletObjectSizes] in
def getSerializeSize (m : CMerkleTx) : Nat :=
  m.toCTransaction.getSerializeSize + 32 + vectorSize (fun _ => 32) m.vMerkleBranch + 4

def getSerializeSize32 (m : CMerkleTx) : UInt32 :=
  m.toCTransaction.getSerializeSize32 + 32 + getSerializeSizeImpl (fun _ => 32) m.vMerkleBranch + 4

/-- No vector has more than `MAX_SIZE` elements. -/
structure Fits (m : CMerkleTx) : Prop where
  tx : m.toCTransaction.Fits
  vMerkleBranch : m.vMerkleBranch.length ≤ maxSize

omit [WalletObjectSizes] in
theorem getSerializeSize32_eq (m : CMerkleTx) :
    m.getSerializeSize32 = UInt32.ofNat m.getSerializeSize := by
  rw [getSerializeSize32, CTransaction.getSerializeSize32_eq,
    getSerializeSizeImpl_eq fun _ : uint256 => (rfl : (32 : UInt32) = UInt32.ofNat 32)]
  simp [getSerializeSize, UInt32.ofNat_add]

theorem format : Format Fits write read getSerializeSize := by
  have hbranch := format_vector format_uint256 (by decide : 0 < 5000000 / 32)
  constructor
  case decodes =>
    intro m h
    refine Decodes.bind (format_transaction.decodes m.toCTransaction h.tx) ?_
    refine Decodes.bind (format_uint256.decodes m.hashBlock trivial) ?_
    refine Decodes.bind (hbranch.decodes m.vMerkleBranch ⟨h.vMerkleBranch, fun _ _ => trivial⟩) ?_
    rw [← List.append_nil (writeUnsigned m.nIndex.toUInt32)]
    exact Decodes.bind (format_unsigned.decodes _ trivial) (Decodes.pure _)
  case length =>
    intro m
    rw [write, List.length_append, List.length_append, List.length_append,
      format_transaction.length, format_uint256.length, hbranch.length, format_unsigned.length,
      getSerializeSize]
    omega
  case takes =>
    refine .bind format_transaction.takes fun _ _ h1 => .bind format_uint256.takes fun _ _ h2 =>
      .bind hbranch.takes fun _ _ h3 => .bind format_unsigned.takes fun _ _ h4 => .pure ?_
    rw [getSerializeSize]
    dsimp only
    omega

end CMerkleTx

/-! ## The reserved items -/

def fromAccountKey : Text := [102, 114, 111, 109, 97, 99, 99, 111, 117, 110, 116]

def versionKey : Text := [118, 101, 114, 115, 105, 111, 110]

def spentKey : Text := [115, 112, 101, 110, 116]

def timeSmartKey : Text := [116, 105, 109, 101, 115, 109, 97, 114, 116]

/-- The keys of a map that no item of its own may have. -/
def reservedKeys : List Text := [fromAccountKey, versionKey, spentKey, orderPosKey, timeSmartKey]

namespace CWalletTx

/-- A character '0' or '1' for each output. -/
def spentString (vfSpent : List UInt8) : Text := vfSpent.map fun f => if f ≠ 0 then 49 else 48

def beforeWrite (wtx : CWalletTx) : CWalletTx :=
  let mapValue := wtx.mapValue.insert fromAccountKey wtx.strFromAccount
  let mapValue := mapValue.insert spentKey (spentString wtx.vfSpent)
  let mapValue := writeOrderPos wtx.nOrderPos mapValue
  { wtx with
    mapValue :=
      if wtx.nTimeSmart ≠ 0 then mapValue.insert timeSmartKey (decimal wtx.nTimeSmart.toNat)
      else mapValue }

def afterWalk (wtx : CWalletTx) : CWalletTx :=
  { wtx with
    mapValue := ((((wtx.mapValue.erase fromAccountKey).erase versionKey).erase spentKey).erase
      orderPosKey).erase timeSmartKey }

def fSpent (wtx : CWalletTx) : UInt8 := if wtx.vfSpent.any (· ≠ 0) then 1 else 0

section

variable [WalletObjectSizes]

/-- The bytes written and the transaction that is left. -/
def serialize (wtx : CWalletTx) : List UInt8 × CWalletTx :=
  let pthis := wtx.beforeWrite
  (pthis.toCMerkleTx.write ++ (writeVector CMerkleTx.write pthis.vtxPrev ++
    (mapValue_t.write pthis.mapValue ++
    (writeVector (writePair Text.write Text.write) pthis.vOrderForm ++
    (writeUnsigned pthis.fTimeReceivedIsTxTime ++ (writeUnsigned pthis.nTimeReceived ++
    ([pthis.fFromMe] ++ [wtx.fSpent])))))), pthis.afterWalk)

/-- The number of bytes and the transaction that is left. -/
def getSerializeSize (wtx : CWalletTx) : UInt32 × CWalletTx :=
  let pthis := wtx.beforeWrite
  let pairSize (item : Text × Text) : UInt32 :=
    UInt32.ofNat (Text.getSerializeSize item.1) + UInt32.ofNat (Text.getSerializeSize item.2)
  (pthis.toCMerkleTx.getSerializeSize32 +
    getSerializeSizeImpl CMerkleTx.getSerializeSize32 pthis.vtxPrev +
    getSerializeSizeImpl pairSize pthis.mapValue.toList +
    getSerializeSizeImpl pairSize pthis.vOrderForm + 4 + 4 + 1 + 1, pthis.afterWalk)

def unserialize : Reader CWalletTx := do
  let m ← CMerkleTx.read
  let vtxPrev ← unserializeImpl WalletObjectSizes.sizeofCMerkleTx.step CMerkleTx.read
  let mapValue ← mapValue_t.read
  let vOrderForm ← unserializeImpl WalletObjectSizes.sizeofPair.step (readPair Text.read Text.read)
  let fTimeReceivedIsTxTime ← readUnsignedInt
  let nTimeReceived ← readUnsignedInt
  let fFromMe ← readByte
  let fSpent ← readByte
  pure (afterWalk { m with
    vtxPrev, mapValue, vOrderForm, fTimeReceivedIsTxTime, nTimeReceived, fFromMe
    strFromAccount := mapValue.getD fromAccountKey []
    vfSpent := match mapValue[spentKey]? with
      | some str => str.map fun c => if c ≠ 48 then 1 else 0
      | none => List.replicate m.vout.length fSpent
    nOrderPos := readOrderPos mapValue
    nTimeSmart := match mapValue[timeSmartKey]? with
      | some str => (atoi64 str).toUInt64.toUInt32
      | none => 0 })

end

theorem getElem?_beforeWrite {wtx : CWalletTx} {k : Text} (h : k ∉ reservedKeys) :
    wtx.beforeWrite.mapValue[k]? = wtx.mapValue[k]? := by
  simp only [reservedKeys, List.mem_cons, List.not_mem_nil, or_false, not_or] at h
  obtain ⟨hfrom, -, hspent, hpos, htime⟩ := h
  have hbase : (writeOrderPos wtx.nOrderPos ((wtx.mapValue.insert fromAccountKey
      wtx.strFromAccount).insert spentKey (spentString wtx.vfSpent)))[k]? = wtx.mapValue[k]? := by
    rw [getElem?_writeOrderPos_of_ne (Ne.symm hpos), mapValue_t.getElem?_insert,
      if_neg (Ne.symm hspent), mapValue_t.getElem?_insert, if_neg (Ne.symm hfrom)]
  rw [beforeWrite]
  dsimp only
  split
  · rw [mapValue_t.getElem?_insert, if_neg (Ne.symm htime), hbase]
  · exact hbase

theorem getElem?_afterWalk {wtx : CWalletTx} {k : Text} :
    wtx.afterWalk.mapValue[k]? = if k ∈ reservedKeys then none else wtx.mapValue[k]? := by
  simp only [afterWalk, mapValue_t.getElem?_erase, reservedKeys, List.mem_cons,
    List.not_mem_nil, or_false]
  grind

theorem afterWalk_beforeWrite {wtx : CWalletTx} (h : ∀ k ∈ reservedKeys, k ∉ wtx.mapValue) :
    wtx.beforeWrite.afterWalk = wtx := by
  have hmap : wtx.beforeWrite.afterWalk.mapValue = wtx.mapValue := by
    apply Std.ExtTreeMap.ext_getElem?
    intro k
    rw [getElem?_afterWalk]
    split
    · next hk => rw [Std.ExtTreeMap.getElem?_eq_none (h k hk)]
    · next hk => exact getElem?_beforeWrite hk
  calc wtx.beforeWrite.afterWalk
      = { wtx with mapValue := wtx.beforeWrite.afterWalk.mapValue } := rfl
    _ = wtx := by rw [hmap]

/-! ## Reading the reserved items -/

theorem getElem?_beforeWrite_of_ne {wtx : CWalletTx} {k : Text} (h : timeSmartKey ≠ k) :
    wtx.beforeWrite.mapValue[k]? = (writeOrderPos wtx.nOrderPos
      ((wtx.mapValue.insert fromAccountKey wtx.strFromAccount).insert spentKey
        (spentString wtx.vfSpent)))[k]? := by
  rw [beforeWrite]
  dsimp only
  split
  · rw [mapValue_t.getElem?_insert, if_neg h]
  · rfl

theorem getD_fromAccountKey (wtx : CWalletTx) :
    wtx.beforeWrite.mapValue.getD fromAccountKey [] = wtx.strFromAccount := by
  rw [Std.ExtTreeMap.getD_eq_getD_getElem?, getElem?_beforeWrite_of_ne (by decide),
    getElem?_writeOrderPos_of_ne (by decide), mapValue_t.getElem?_insert, if_neg (by decide),
    mapValue_t.getElem?_insert, if_pos rfl]
  rfl

theorem getElem?_spentKey (wtx : CWalletTx) :
    wtx.beforeWrite.mapValue[spentKey]? = some (spentString wtx.vfSpent) := by
  rw [getElem?_beforeWrite_of_ne (by decide), getElem?_writeOrderPos_of_ne (by decide),
    mapValue_t.getElem?_insert, if_pos rfl]

theorem map_spentString {vfSpent : List UInt8} (h : ∀ f ∈ vfSpent, f = 0 ∨ f = 1) :
    (spentString vfSpent).map (fun c => if c ≠ 48 then (1 : UInt8) else 0) = vfSpent := by
  rw [spentString, List.map_map]
  apply (List.map_congr_left _).trans vfSpent.map_id
  intro f hf
  rcases h f hf with rfl | rfl
  · rfl
  · rfl

theorem readOrderPos_beforeWrite {wtx : CWalletTx} (h : ∀ k ∈ reservedKeys, k ∉ wtx.mapValue) :
    readOrderPos wtx.beforeWrite.mapValue = wtx.nOrderPos := by
  have hpos : orderPosKey ∉ (wtx.mapValue.insert fromAccountKey wtx.strFromAccount).insert
      spentKey (spentString wtx.vfSpent) := by
    have hnone := Std.ExtTreeMap.getElem?_eq_none (h orderPosKey (by decide))
    rw [Std.ExtTreeMap.mem_iff_isSome_getElem?, mapValue_t.getElem?_insert, if_neg (by decide),
      mapValue_t.getElem?_insert, if_neg (by decide), hnone]
    exact Bool.false_ne_true
  have hread := @readOrderPos_writeOrderPos wtx.nOrderPos _ hpos
  rwa [readOrderPos, ← getElem?_beforeWrite_of_ne (by decide)] at hread

theorem toUInt32_atoi64 (n : UInt32) : (atoi64 (decimal n.toNat)).toUInt64.toUInt32 = n := by
  have hlt := n.toNat_lt
  have hclamp : max (-2 ^ 63) (min (n.toNat : Int) (2 ^ 63 - 1)) = (n.toNat : Int) := by omega
  rw [atoi64_decimal, clampInt64, hclamp, Int64.ofInt_eq_ofNat, Int64.toUInt64_ofNat']
  apply UInt32.toNat_inj.mp
  rw [UInt64.toNat_toUInt32, UInt64.toNat_ofNat']
  omega

/-- Zero is not written, and is what is read where nothing was. -/
theorem timeSmart_beforeWrite {wtx : CWalletTx} (h : ∀ k ∈ reservedKeys, k ∉ wtx.mapValue) :
    (match wtx.beforeWrite.mapValue[timeSmartKey]? with
      | some str => (atoi64 str).toUInt64.toUInt32
      | none => 0) = wtx.nTimeSmart := by
  have hnone := Std.ExtTreeMap.getElem?_eq_none (h timeSmartKey (by decide))
  by_cases htime : wtx.nTimeSmart = 0
  · have hmap : wtx.beforeWrite.mapValue[timeSmartKey]? = none := by
      rw [beforeWrite]
      dsimp only
      rw [if_neg (not_not.mpr htime), getElem?_writeOrderPos_of_ne (by decide),
        mapValue_t.getElem?_insert, if_neg (by decide), mapValue_t.getElem?_insert,
        if_neg (by decide), hnone]
    rw [hmap, htime]
  · have hmap : wtx.beforeWrite.mapValue[timeSmartKey]? =
        some (decimal wtx.nTimeSmart.toNat) := by
      rw [beforeWrite]
      dsimp only
      rw [if_pos htime, mapValue_t.getElem?_insert, if_pos rfl]
    rw [hmap]
    exact toUInt32_atoi64 wtx.nTimeSmart

/-! ## The three walks -/

/-- Nothing that is written has more than `MAX_SIZE` elements, and the flags are 0 or 1. -/
structure Fits (wtx : CWalletTx) : Prop where
  merkle : wtx.toCMerkleTx.Fits
  vtxPrev : wtx.vtxPrev.length ≤ maxSize ∧ ∀ m ∈ wtx.vtxPrev, m.Fits
  mapValue : wtx.beforeWrite.mapValue.Fits
  vOrderForm : wtx.vOrderForm.length ≤ maxSize ∧
    ∀ item ∈ wtx.vOrderForm, item.1.length ≤ maxSize ∧ item.2.length ≤ maxSize
  vfSpent : ∀ f ∈ wtx.vfSpent, f = 0 ∨ f = 1

section

variable [WalletObjectSizes]

/-- A wallet transaction is read back. -/
theorem decodes_serialize {wtx : CWalletTx} (hkeys : ∀ k ∈ reservedKeys, k ∉ wtx.mapValue)
    (h : wtx.Fits) : Decodes unserialize wtx.serialize.1 wtx := by
  have hprev := format_vector CMerkleTx.format WalletObjectSizes.sizeofCMerkleTx.step_pos
  have horder := format_vector (format_pair format_text format_text)
    WalletObjectSizes.sizeofPair.step_pos
  refine Decodes.bind (CMerkleTx.format.decodes _ h.merkle) ?_
  refine Decodes.bind (hprev.decodes _ h.vtxPrev) ?_
  refine Decodes.bind (decodes_mapValue h.mapValue) ?_
  refine Decodes.bind (horder.decodes _ h.vOrderForm) ?_
  refine Decodes.bind (format_unsigned.decodes _ trivial) ?_
  refine Decodes.bind (format_unsigned.decodes _ trivial) ?_
  refine Decodes.bind (Decodes.byte _) ?_
  rw [← List.append_nil [wtx.fSpent]]
  refine Decodes.bind (Decodes.byte _) ?_
  rw [getD_fromAccountKey, getElem?_spentKey, readOrderPos_beforeWrite hkeys,
    timeSmart_beforeWrite hkeys]
  dsimp only
  rw [map_spentString h.vfSpent]
  have hafter := afterWalk_beforeWrite hkeys
  conv => enter [3]; rw [← hafter]
  exact Decodes.pure _

/-- The number of bytes, which `GetSerializeSize` counts in `unsigned int`. -/
def serializedSize (wtx : CWalletTx) : Nat :=
  wtx.toCMerkleTx.getSerializeSize + vectorSize CMerkleTx.getSerializeSize wtx.vtxPrev +
    mapValue_t.getSerializeSize wtx.beforeWrite.mapValue +
    vectorSize (fun item => Text.getSerializeSize item.1 + Text.getSerializeSize item.2)
      wtx.vOrderForm + 4 + 4 + 1 + 1

theorem length_serialize (wtx : CWalletTx) : wtx.serialize.1.length = wtx.serializedSize := by
  have hprev := (format_vector CMerkleTx.format WalletObjectSizes.sizeofCMerkleTx.step_pos).length
  have horder := (format_vector (format_pair format_text format_text)
    WalletObjectSizes.sizeofPair.step_pos).length
  rw [serialize]
  dsimp only
  rw [List.length_append, List.length_append, List.length_append, List.length_append,
    List.length_append, List.length_append, List.length_append, CMerkleTx.format.length, hprev,
    length_mapValue, horder, format_unsigned.length, format_unsigned.length,
    List.length_singleton, List.length_singleton, serializedSize]
  change wtx.toCMerkleTx.getSerializeSize + (vectorSize CMerkleTx.getSerializeSize wtx.vtxPrev +
    (_ + (vectorSize _ wtx.vOrderForm + _))) = _
  omega

omit [WalletObjectSizes] in
theorem getSerializeSize_eq (wtx : CWalletTx) :
    wtx.getSerializeSize.1 = UInt32.ofNat wtx.serializedSize := by
  have hpair : ∀ item : Text × Text,
      UInt32.ofNat (Text.getSerializeSize item.1) + UInt32.ofNat (Text.getSerializeSize item.2) =
        UInt32.ofNat (Text.getSerializeSize item.1 + Text.getSerializeSize item.2) :=
    fun _ => (UInt32.ofNat_add _ _).symm
  rw [getSerializeSize]
  dsimp only
  rw [CMerkleTx.getSerializeSize32_eq, getSerializeSizeImpl_eq CMerkleTx.getSerializeSize32_eq,
    getSerializeSizeImpl_eq hpair, getSerializeSizeImpl_eq hpair, serializedSize,
    mapValue_t.getSerializeSize]
  simp only [UInt32.ofNat_add]
  rfl

/-- A wallet transaction without reserved keys is left as it was. It is read back if nothing that
is written has more than `MAX_SIZE` elements, and its bytes are counted if they are fewer than
`2 ^ 32`. -/
theorem roundTrip (wtx : CWalletTx) (hkeys : ∀ k ∈ reservedKeys, k ∉ wtx.mapValue) :
    (wtx.Fits → ∀ rest, unserialize (wtx.serialize.1 ++ rest) = some (wtx, rest)) ∧
    (wtx.serialize.1.length = wtx.getSerializeSize.1.toNat ↔ wtx.serialize.1.length < 2 ^ 32) ∧
    wtx.serialize.2 = wtx ∧ wtx.getSerializeSize.2 = wtx := by
  refine ⟨decodes_serialize hkeys, ?_, afterWalk_beforeWrite hkeys, afterWalk_beforeWrite hkeys⟩
  rw [getSerializeSize_eq, length_serialize, UInt32.toNat_ofNat']
  omega

end

namespace Sample

/-- A wallet transaction with nothing but the transaction and a flag. -/
def flagged (tx : CTransaction) (flag : UInt8) : CWalletTx :=
  { tx with
    hashBlock := 0
    vMerkleBranch := []
    nIndex := -1
    vtxPrev := []
    mapValue := ∅
    vOrderForm := []
    fTimeReceivedIsTxTime := 0
    nTimeReceived := 0
    nTimeSmart := 5
    fFromMe := 0
    strFromAccount := []
    vfSpent := [flag]
    nOrderPos := -1 }

theorem le_serializedSize (tx : CTransaction) (flag : UInt8) :
    tx.getSerializeSize ≤ (flagged tx flag).serializedSize := by
  rw [serializedSize, CMerkleTx.getSerializeSize]
  change tx.getSerializeSize ≤ tx.getSerializeSize + _ + _ + _ + _ + _ + _ + _ + _ + _ + _
  omega

@[reducible]
def sizes : WalletObjectSizes where
  sizeofCTxIn := ⟨72, by decide⟩
  sizeofCTxOut := ⟨32, by decide⟩
  sizeofCTransaction := ⟨64, by decide⟩
  sizeofCMerkleTx := ⟨144, by decide⟩
  sizeofPair := ⟨64, by decide⟩

theorem noReserved_flagged (tx : CTransaction) (flag : UInt8) :
    ∀ k ∈ reservedKeys, k ∉ (flagged tx flag).mapValue :=
  fun _ _ => Std.ExtTreeMap.not_mem_empty

theorem fits_flagged : (flagged (Terracoin.Sample.wideTransaction 0 0) 1).Fits where
  merkle := ⟨Terracoin.Sample.fits_wideTransaction (Nat.zero_le _) (Nat.zero_le _), Nat.zero_le _⟩
  vtxPrev := ⟨Nat.zero_le _, fun _ hm => absurd hm List.not_mem_nil⟩
  mapValue := mapValue_fits (by decide +kernel)
  vOrderForm := ⟨Nat.zero_le _, fun _ hitem => absurd hitem List.not_mem_nil⟩
  vfSpent := List.forall_mem_singleton.mpr (.inr rfl)

theorem roundTrip_sample :
    @unserialize sizes ((flagged (Terracoin.Sample.wideTransaction 0 0) 1).serialize.1 ++ []) =
      some (flagged (Terracoin.Sample.wideTransaction 0 0) 1, []) :=
  (@roundTrip sizes _ (noReserved_flagged (Terracoin.Sample.wideTransaction 0 0) 1)).1 fits_flagged
    []

/-- A transaction of more than 4 GiB is not counted, and a flag that is neither 0 nor 1 is read back
as 1. -/
theorem not_roundTrip :
    (¬ ∀ wtx : CWalletTx, (∀ k ∈ reservedKeys, k ∉ wtx.mapValue) →
      wtx.serialize.1.length = wtx.getSerializeSize.1.toNat) ∧
    ¬ ∀ [WalletObjectSizes] (wtx : CWalletTx), (∀ k ∈ reservedKeys, k ∉ wtx.mapValue) →
      unserialize wtx.serialize.1 = some (wtx, []) := by
  constructor
  · intro h
    let sizes := sizes
    have hle := Terracoin.Sample.mul_le_wideTransaction 128 maxSize
    generalize Terracoin.Sample.wideTransaction 128 maxSize = tx at hle
    have hlen := h (flagged tx 0) (noReserved_flagged tx 0)
    have hlt := (flagged tx 0).getSerializeSize.1.toNat_lt
    have hmax : maxSize = 33554432 := rfl
    have hsize := le_serializedSize tx 0
    rw [← hlen, length_serialize] at hlt
    omega
  · intro h
    let sizes := sizes
    have hread := h (flagged (Terracoin.Sample.wideTransaction 0 0) 2) (noReserved_flagged _ 2)
    have hread' := decodes_serialize (noReserved_flagged _ 1) fits_flagged []
    rw [List.append_nil] at hread'
    have hbytes : (flagged (Terracoin.Sample.wideTransaction 0 0) 2).serialize.1 =
        (flagged (Terracoin.Sample.wideTransaction 0 0) 1).serialize.1 := rfl
    rw [hbytes, hread', Option.some_inj] at hread
    exact absurd (congrArg (fun p => p.1.vfSpent) hread) (by decide)

end Sample

end CWalletTx

end Terracoin.WalletFile
