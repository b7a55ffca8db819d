import Terracoin.Lib.Index
import Terracoin.Net.AddrMan
import Terracoin.Serialize.DiskBlockIndex

/-!
# `CAddrMan` in `peers.dat`

The format of `IMPLEMENT_SERIALIZE`: the entries in the "new" buckets in the order of their ids, the
tried ones, and then the "new" buckets, as indexes into the former. The tried buckets, the two
indexes of the entries and the reference counts are not written; the reader makes them again.
-/

namespace Terracoin

open Std (TreeMap)
open Codec Buckets

def writeInt (n : Int) : List UInt8 := littleEndian 4 (toUnsignedInt n).toNat

def readInt : Reader Int := (fun n => (UInt32.ofNat n).toInt32.toInt) <$> readLittleEndian 4

/-- `FLATDATA` of an array. -/
def readFlat (n : Nat) : Reader (Bytes n) := fun s =>
  if h : n ≤ s.length then some (⟨s.take n, by rw [List.length_take, Nat.min_eq_left h]⟩, s.drop n)
  else none

theorem decodes_writeInt {n : Int} (h : -2 ^ 31 ≤ n) (h' : n < 2 ^ 31) :
    Decodes readInt (writeInt n) n := by
  have hdecodes := (decodes_littleEndian_uint32 (toUnsignedInt n)).map
    fun n => (UInt32.ofNat n).toInt32.toInt
  have hvalue : (UInt32.ofNat (toUnsignedInt n).toNat).toInt32.toInt = n := by
    have hcast : (((n % 2 ^ 32).toNat : Nat) : Int) = n % 2 ^ 32 :=
      Int.toNat_of_nonneg (by omega)
    rw [UInt32.ofNat_toNat, toUnsignedInt, UInt32.toInt32_ofNat', Int32.toInt_ofNat', hcast]
    exact (Int.emod_bmod n Int32.size).trans (Int.bmod_eq_of_le h h')
  rw [hvalue] at hdecodes
  exact hdecodes

theorem decodes_flat {n : Nat} (bytes : Bytes n) : Decodes (readFlat n) bytes.1 bytes := by
  obtain ⟨bytes, rfl⟩ := bytes
  intro rest
  have hle : bytes.length ≤ (bytes ++ rest).length := by
    rw [List.length_append]
    omega
  rw [readFlat, dif_pos hle]
  simp only [List.take_left', List.drop_left']

/-! ## Entries -/

namespace CAddrInfo

/-- `CAddrInfo()`. -/
def empty : CAddrInfo := CAddrInfo.new CAddrMan.noAddress ⟨⟨List.replicate 16 0, List.length_replicate⟩⟩

def writePort (port : UInt16) : List UInt8 :=
  [UInt8.ofNat (port.toNat / 0x100), UInt8.ofNat (port.toNat % 0x100)]

def readPort : Reader UInt16 := do
  let hi ← readByte
  let lo ← readByte
  pure (UInt16.ofNat (hi.toNat * 0x100 + lo.toNat))

/-- An entry on disk. The version that `CAddress` writes is the 0 of `CAddrMan`. -/
def write (info : CAddrInfo) : List UInt8 :=
  writeInt 0 ++ (littleEndian 4 info.nTime.toNat ++ (littleEndian 8 info.nServices.toNat ++
    (info.ip.1 ++ (writePort info.port ++ (info.source.ip.1 ++ (writeInt64 info.nLastSuccess ++
      writeInt info.nAttempts.toInt))))))

/-- Unserialize into `CAddrInfo()`. -/
def read : Reader CAddrInfo := do
  let _ ← readInt
  let nTime ← readLittleEndian 4
  let nServices ← readLittleEndian 8
  let ip ← readFlat 16
  let port ← readPort
  let source ← readFlat 16
  let nLastSuccess ← readInt64
  let nAttempts ← readInt
  pure { empty with
    ip := ip
    port := port
    nServices := UInt64.ofNat nServices
    nTime := UInt32.ofNat nTime
    source := ⟨source⟩
    nLastSuccess := nLastSuccess
    nAttempts := Int32.ofInt nAttempts }

/-- What an entry is read back as: what is only kept in memory is as in a new entry. -/
def stored (info : CAddrInfo) : CAddrInfo :=
  { info with nLastTry := 0, nRefCount := 0, fInTried := false, nRandomPos := -1 }

theorem decodes_writePort (port : UInt16) : Decodes readPort (writePort port) port := by
  change Decodes readPort ([_] ++ ([_] ++ [])) port
  refine Decodes.bind (Decodes.byte _) (Decodes.bind (Decodes.byte _) ?_)
  have hlt := port.toNat_lt
  have hvalue : UInt16.ofNat ((UInt8.ofNat (port.toNat / 0x100)).toNat * 0x100 +
      (UInt8.ofNat (port.toNat % 0x100)).toNat) = port := by
    rw [UInt8.toNat_ofNat', UInt8.toNat_ofNat', Nat.mod_eq_of_lt (by omega),
      Nat.mod_eq_of_lt (by omega), Nat.div_add_mod', UInt16.ofNat_toNat]
  rw [hvalue]
  exact Decodes.pure _

theorem decodes_write (info : CAddrInfo) : Decodes read info.write info.stored := by
  refine Decodes.bind (decodes_writeInt (by decide) (by decide)) ?_
  refine Decodes.bind (decodes_littleEndian_uint32 _) ?_
  refine Decodes.bind (decodes_littleEndian info.nServices.toNat_lt) ?_
  refine Decodes.bind (decodes_flat info.ip) ?_
  refine Decodes.bind (decodes_writePort _) ?_
  refine Decodes.bind (decodes_flat info.source.ip) ?_
  refine Decodes.bind (decodes_writeInt64 _) ?_
  rw [← List.append_nil (writeInt info.nAttempts.toInt)]
  refine Decodes.bind (decodes_writeInt info.nAttempts.minValue_le_toInt info.nAttempts.toInt_lt) ?_
  simp only [UInt32.ofNat_toNat, UInt64.ofNat_toNat, Int32.ofInt_toInt]
  exact Decodes.pure _

end CAddrInfo

/-! ## The manager -/

namespace CAddrMan

/-- The loop that writes the entries with references, with the indexes that they get. -/
def newEntries (nNew : Int) : Int → (Int → Int) → List (Int × CAddrInfo) →
    (Int → Int) × List UInt8
  | _, mapUnkIds, [] => (mapUnkIds, [])
  | nIds, mapUnkIds, (n, info) :: rest =>
    if nIds = nNew then (mapUnkIds, [])
    else
      let mapUnkIds := Function.update mapUnkIds n nIds
      if info.nRefCount ≠ 0 then
        let r := newEntries nNew (nIds + 1) mapUnkIds rest
        (r.1, info.write ++ r.2)
      else newEntries nNew nIds mapUnkIds rest

def triedEntries (nTried : Int) : Int → List (Int × CAddrInfo) → List UInt8
  | _, [] => []
  | nIds, (_, info) :: rest =>
    if nIds = nTried then []
    else if info.fInTried then info.write ++ triedEntries nTried (nIds + 1) rest
    else triedEntries nTried nIds rest

def writeBucket (mapUnkIds : Int → Int) (vNew : List Int) : List UInt8 :=
  writeInt vNew.length ++ vNew.flatMap fun n => writeInt (mapUnkIds n)

def serialize (s : CAddrMan) : List UInt8 :=
  let r := newEntries s.nNew 0 (fun _ => 0) s.mapInfo.toList
  0 :: (CAddrInfo.writeBytes s.nKey ++ (writeInt s.nNew ++ (writeInt s.nTried ++
    (writeInt ADDRMAN_NEW_BUCKET_COUNT ++ (r.2 ++ (triedEntries s.nTried 0 s.mapInfo.toList ++
      s.vvNew.flatMap (writeBucket r.1)))))))

def cleared (nKey : List UInt8) (nNew nTried : Int) : CAddrMan where
  nKey := nKey
  nIdCount := 0
  mapInfo := ∅
  mapAddr := fun _ => none
  vRandom := []
  nTried := nTried
  vvTried := List.replicate ADDRMAN_TRIED_BUCKET_COUNT []
  nNew := nNew
  vvNew := List.replicate ADDRMAN_NEW_BUCKET_COUNT []

section

variable [ByteHashing]

/-- A round of the loop over the new entries, with `n`. -/
def loadNew (nUBuckets : Int) (st : CAddrMan × Int) (info : CAddrInfo) : CAddrMan × Int :=
  let s := st.1
  let n := st.2
  let info := { info with nRandomPos := s.vRandom.length }
  let s1 := { s with
    mapInfo := s.mapInfo.insert n info
    mapAddr := Function.update s.mapAddr info.toCNetAddr (some n)
    vRandom := s.vRandom ++ [n] }
  if nUBuckets ≠ ADDRMAN_NEW_BUCKET_COUNT then
    let s2 := s1.setInfo n { info with nRefCount := info.nRefCount + 1 }
    ({ s2 with
      vvNew := s2.vvNew.modify (info.getNewBucket s.nKey info.source) (setInsert n) }, n + 1)
  else (s1, n + 1)

/-- A round of the loop over the tried entries, with `nLost`. -/
def loadTried (st : CAddrMan × Int) (info : CAddrInfo) : CAddrMan × Int :=
  let s := st.1
  let nKBucket := info.getTriedBucket s.nKey
  let vTried := s.vvTried.getD nKBucket []
  if vTried.length < ADDRMAN_TRIED_BUCKET_SIZE then
    ({ s with
      mapInfo := s.mapInfo.insert s.nIdCount
        { info with nRandomPos := s.vRandom.length, fInTried := true }
      mapAddr := Function.update s.mapAddr info.toCNetAddr (some s.nIdCount)
      vRandom := s.vRandom ++ [s.nIdCount]
      vvTried := s.vvTried.set nKBucket (vTried ++ [s.nIdCount])
      nIdCount := s.nIdCount + 1 }, st.2)
  else (s, st.2 + 1)

/-- A round of the loop over the indexes of a bucket. `mapInfo[nIndex]` makes an entry if there is
none. -/
def loadIndex (nUBuckets : Int) (b : Nat) (s : CAddrMan) (nIndex : Int) : CAddrMan :=
  let info := s.mapInfo.getD nIndex CAddrInfo.empty
  if nUBuckets = ADDRMAN_NEW_BUCKET_COUNT ∧ info.nRefCount < ADDRMAN_NEW_BUCKETS_PER_ADDRESS then
    let s1 := s.setInfo nIndex { info with nRefCount := info.nRefCount + 1 }
    { s1 with vvNew := s1.vvNew.modify b (setInsert nIndex) }
  else s.setInfo nIndex info

/-- A round of the loop over the buckets, with `b`. -/
def readBucket (nUBuckets : Int) (st : CAddrMan × Nat) : Reader (CAddrMan × Nat) := do
  let nSize ← readInt
  let s ← readLoop (fun s => loadIndex nUBuckets st.2 s <$> readInt) nSize.toNat st.1
  pure (s, st.2 + 1)

def unserialize : Reader CAddrMan := do
  let _ ← readByte
  let nKey ← readVector readByte
  let nNew ← readInt
  let nTried ← readInt
  let nUBuckets ← readInt
  let r1 ← readLoop (fun st => loadNew nUBuckets st <$> CAddrInfo.read) nNew.toNat
    (cleared nKey nNew nTried, 0)
  let s1 := { r1.1 with nIdCount := nNew }
  let r2 ← readLoop (fun st => loadTried st <$> CAddrInfo.read) nTried.toNat (s1, 0)
  let s2 := { r2.1 with nTried := nTried - r2.2 }
  let r3 ← readLoop (readBucket nUBuckets) nUBuckets.toNat (s2, 0)
  pure r3.1

end

/-! ## What is written -/

def newList (s : CAddrMan) : List (Int × CAddrInfo) :=
  s.mapInfo.toList.filter fun entry => entry.2.nRefCount ≠ 0

def triedList (s : CAddrMan) : List (Int × CAddrInfo) :=
  s.mapInfo.toList.filter fun entry => entry.2.fInTried

theorem newEntries_spec {nNew nIds : Int} {l : List (Int × CAddrInfo)}
    (hnodup : (l.map Prod.fst).Nodup)
    (hcount : nIds + (l.filter fun entry => entry.2.nRefCount ≠ 0).length = nNew)
    (mapUnkIds : Int → Int) :
    (newEntries nNew nIds mapUnkIds l).2 =
        (l.filter fun entry => entry.2.nRefCount ≠ 0).flatMap (fun entry => entry.2.write) ∧
      (∀ n ∉ l.map Prod.fst, (newEntries nNew nIds mapUnkIds l).1 n = mapUnkIds n) ∧
      ∀ (i : Nat) (entry : Int × CAddrInfo),
        (l.filter fun entry => entry.2.nRefCount ≠ 0)[i]? = some entry →
        (newEntries nNew nIds mapUnkIds l).1 entry.1 = nIds + i := by
  induction l generalizing nIds mapUnkIds with
  | nil => exact ⟨rfl, fun _ _ => rfl, nofun⟩
  | cons entry l ih =>
    obtain ⟨k, info⟩ := entry
    rw [List.map_cons, List.nodup_cons] at hnodup
    unfold newEntries
    by_cases hfull : nIds = nNew
    · have hnil : (((k, info) :: l).filter fun entry => entry.2.nRefCount ≠ 0) = [] :=
        List.length_eq_zero_iff.mp (by omega)
      rw [if_pos hfull, hnil]
      exact ⟨rfl, fun _ _ => rfl, nofun⟩
    · rw [if_neg hfull]
      by_cases hr : info.nRefCount ≠ 0
      · rw [List.filter_cons_of_pos (by simpa using hr)] at hcount ⊢
        rw [List.length_cons] at hcount
        rw [if_pos hr]
        have hcount1 : nIds + 1 +
            ((l.filter fun entry => entry.2.nRefCount ≠ 0).length : Int) = nNew := by omega
        obtain ⟨hbytes, hkeep, hindex⟩ := ih hnodup.2 hcount1 (Function.update mapUnkIds k nIds)
        refine ⟨by rw [List.flatMap_cons, ← hbytes], fun n hn => ?_, fun i entry hi => ?_⟩
        · rw [List.map_cons, List.mem_cons, not_or] at hn
          exact (hkeep n hn.2).trans (Function.update_of_ne hn.1 _ _)
        · cases i with
          | zero =>
            obtain rfl := Option.some.inj hi
            refine (hkeep k hnodup.1).trans ?_
            rw [Function.update_self]
            exact (Int.add_zero _).symm
          | succ i =>
            refine (hindex i entry hi).trans ?_
            omega
      · rw [List.filter_cons_of_neg (by simpa using hr)] at hcount ⊢
        rw [if_neg hr]
        obtain ⟨hbytes, hkeep, hindex⟩ := ih hnodup.2 hcount (Function.update mapUnkIds k nIds)
        refine ⟨hbytes, fun n hn => ?_, hindex⟩
        rw [List.map_cons, List.mem_cons, not_or] at hn
        exact (hkeep n hn.2).trans (Function.update_of_ne hn.1 _ _)

theorem triedEntries_spec {nTried nIds : Int} {l : List (Int × CAddrInfo)}
    (hcount : nIds + (l.filter fun entry => entry.2.fInTried).length = nTried) :
    triedEntries nTried nIds l =
      (l.filter fun entry => entry.2.fInTried).flatMap fun entry => entry.2.write := by
  induction l generalizing nIds with
  | nil => rfl
  | cons entry l ih =>
    obtain ⟨k, info⟩ := entry
    unfold triedEntries
    by_cases hfull : nIds = nTried
    · have hnil : (((k, info) :: l).filter fun entry => entry.2.fInTried) = [] :=
        List.length_eq_zero_iff.mp (by omega)
      rw [if_pos hfull, hnil]
      rfl
    · rw [if_neg hfull]
      by_cases hf : info.fInTried = true
      · rw [List.filter_cons_of_pos (a := (k, info)) hf] at hcount ⊢
        rw [List.length_cons] at hcount
        rw [if_pos hf, List.flatMap_cons, ih (by omega)]
      · rw [List.filter_cons_of_neg (a := (k, info)) hf] at hcount ⊢
        rw [if_neg hf, ih hcount]

/-! ## What is read -/

def fileIndex (s : CAddrMan) : Int → Int := (newEntries s.nNew 0 (fun _ => 0) s.mapInfo.toList).1

section

variable [ByteHashing]

/-- What the reader makes of the file after its first loop, after the second one, and in the end. -/
def reloadedNew (s : CAddrMan) : CAddrMan × Int :=
  (s.newList.map fun entry => entry.2.stored).foldl (loadNew ADDRMAN_NEW_BUCKET_COUNT)
    (cleared s.nKey s.nNew s.nTried, 0)

def reloadedTried (s : CAddrMan) : CAddrMan × Int :=
  (s.triedList.map fun entry => entry.2.stored).foldl loadTried
    ({ s.reloadedNew.1 with nIdCount := s.nNew }, 0)

def fillBucket (st : CAddrMan × Nat) (bucket : List Int) : CAddrMan × Nat :=
  (bucket.foldl (loadIndex ADDRMAN_NEW_BUCKET_COUNT st.2) st.1, st.2 + 1)

def reloaded (s : CAddrMan) : CAddrMan :=
  ((s.vvNew.map (List.map s.fileIndex)).foldl fillBucket
    ({ s.reloadedTried.1 with nTried := s.nTried - s.reloadedTried.2 }, 0)).1

omit [ByteHashing] in
theorem decodes_bucket (st : CAddrMan × Nat) (mapUnkIds : Int → Int) {vNew : List Int}
    (hsize : vNew.length < 2 ^ 31) (hindex : ∀ n ∈ vNew, 0 ≤ mapUnkIds n ∧ mapUnkIds n < 2 ^ 31) :
    Decodes (readBucket ADDRMAN_NEW_BUCKET_COUNT st) (writeBucket mapUnkIds vNew)
      (fillBucket st (vNew.map mapUnkIds)) := by
  refine Decodes.bind (decodes_writeInt (by omega) (by omega)) ?_
  have hloop : Decodes
      (readLoop (fun s => loadIndex ADDRMAN_NEW_BUCKET_COUNT st.2 s <$> readInt) vNew.length st.1)
      (vNew.flatMap fun n => writeInt (mapUnkIds n))
      (vNew.foldl (fun s n => loadIndex ADDRMAN_NEW_BUCKET_COUNT st.2 s (mapUnkIds n)) st.1) := by
    refine Decodes.loop (fun n hn s => ?_) st.1
    obtain ⟨h0, hlt⟩ := hindex n hn
    exact (decodes_writeInt (by omega) hlt).map _
  rw [← List.append_nil (vNew.flatMap _), Int.toNat_natCast, fillBucket, List.foldl_map]
  exact Decodes.bind hloop (Decodes.pure _)

/-- The whole file is read back, when the counters are right and the numbers fit. -/
theorem decodes_serialize {s : CAddrMan} (hkey : s.nKey.length ≤ maxSize)
    (hnew : s.nNew = s.newList.length) (htried : s.nTried = s.triedList.length)
    (hnNew : s.nNew < 2 ^ 31) (hnTried : s.nTried < 2 ^ 31)
    (hlength : s.vvNew.length = ADDRMAN_NEW_BUCKET_COUNT)
    (hsize : ∀ vNew ∈ s.vvNew, vNew.length < 2 ^ 31)
    (hindex : ∀ vNew ∈ s.vvNew, ∀ n ∈ vNew, 0 ≤ s.fileIndex n ∧ s.fileIndex n < 2 ^ 31) :
    Decodes unserialize s.serialize s.reloaded := by
  have hnodup := Index.nodup_map_fst_toList s.mapInfo
  obtain ⟨hnewBytes, -, -⟩ :=
    newEntries_spec hnodup ((Int.zero_add _).trans hnew.symm) fun _ => 0
  have htriedBytes := triedEntries_spec ((Int.zero_add _).trans htried.symm)
  have hloadNew : ∀ st : CAddrMan × Int, Decodes
      (readLoop (fun st => loadNew ADDRMAN_NEW_BUCKET_COUNT st <$> CAddrInfo.read) s.nNew.toNat st)
      (s.newList.flatMap fun entry => entry.2.write)
      ((s.newList.map fun entry => entry.2.stored).foldl (loadNew ADDRMAN_NEW_BUCKET_COUNT) st) := by
    intro st
    rw [List.foldl_map, hnew, Int.toNat_natCast]
    exact Decodes.loop (fun entry _ st => (CAddrInfo.decodes_write entry.2).map _) st
  have hloadTried : ∀ st : CAddrMan × Int, Decodes
      (readLoop (fun st => loadTried st <$> CAddrInfo.read) s.nTried.toNat st)
      (s.triedList.flatMap fun entry => entry.2.write)
      ((s.triedList.map fun entry => entry.2.stored).foldl loadTried st) := by
    intro st
    rw [List.foldl_map, htried, Int.toNat_natCast]
    exact Decodes.loop (fun entry _ st => (CAddrInfo.decodes_write entry.2).map _) st
  have hloadBuckets : ∀ st : CAddrMan × Nat, Decodes
      (readLoop (readBucket ADDRMAN_NEW_BUCKET_COUNT) ADDRMAN_NEW_BUCKET_COUNT st)
      (s.vvNew.flatMap (writeBucket s.fileIndex))
      ((s.vvNew.map (List.map s.fileIndex)).foldl fillBucket st) := by
    intro st
    have hloop := Decodes.loop
      (fun vNew hv st => decodes_bucket st s.fileIndex (hsize vNew hv) (hindex vNew hv)) st
    rw [hlength] at hloop
    rw [List.foldl_map]
    exact hloop
  have hwritten : s.serialize = [0] ++ (CAddrInfo.writeBytes s.nKey ++ (writeInt s.nNew ++
      (writeInt s.nTried ++ (writeInt ADDRMAN_NEW_BUCKET_COUNT ++
        (s.newList.flatMap (fun entry => entry.2.write) ++
          (s.triedList.flatMap (fun entry => entry.2.write) ++
            (s.vvNew.flatMap (writeBucket s.fileIndex) ++ []))))))) := by
    rw [serialize, htriedBytes, List.append_nil, hnewBytes]
    rfl
  have hkeyBytes : Decodes (readVector readByte) (CAddrInfo.writeBytes s.nKey) (s.nKey.map id) :=
    decodes_writeVector hkey fun b _ => Decodes.byte b
  rw [List.map_id] at hkeyBytes
  rw [hwritten]
  refine Decodes.bind (Decodes.byte 0) (Decodes.bind hkeyBytes ?_)
  refine Decodes.bind (decodes_writeInt (by omega) hnNew) ?_
  refine Decodes.bind (decodes_writeInt (by omega) hnTried) ?_
  refine Decodes.bind (decodes_writeInt (by decide) (by decide)) ?_
  refine Decodes.bind (hloadNew _) (Decodes.bind (hloadTried _) ?_)
  exact Decodes.bind (hloadBuckets _) (Decodes.pure _)

end

end CAddrMan

end Terracoin
