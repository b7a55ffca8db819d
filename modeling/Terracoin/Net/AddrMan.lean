import Std.Data.TreeMap.Lemmas
import Terracoin.Lib.Buckets
import Terracoin.Lib.CheckedInt
import Terracoin.Lib.Run
import Terracoin.Net.NetAddr

/-!
# `CAddrMan`

The addresses a node has heard of. An entry is under an id in `mapInfo`; `mapAddr` finds the id by
the address, `vRandom` lists the ids in a random order, and an entry is either in one "tried"
bucket or in one to four of the "new" buckets.

An operation is `none` when an `assert` fails, when it uses an entry or a bucket that does not exist,
or when the counter of the ids, an `int`, overflows. The numbers of `GetRandInt` come from a sequence that is given to the operation, and what
`GetAdjustedTime()` returns is given as well. `Select_` may go through its loop as often as it
likes, here as often as its fuel says.
-/

namespace Terracoin

open Std (TreeMap)
open Buckets (setInsert)
open Checked (Int32Range)

/-! ## The entries -/

def ADDRMAN_TRIED_BUCKET_COUNT : Nat := 64
def ADDRMAN_TRIED_BUCKET_SIZE : Nat := 64
def ADDRMAN_NEW_BUCKET_COUNT : Nat := 256
def ADDRMAN_NEW_BUCKET_SIZE : Nat := 64
def ADDRMAN_TRIED_BUCKETS_PER_GROUP : Nat := 4
def ADDRMAN_NEW_BUCKETS_PER_SOURCE_GROUP : Nat := 32
def ADDRMAN_NEW_BUCKETS_PER_ADDRESS : Int := 4
def ADDRMAN_TRIED_ENTRIES_INSPECT_ON_EVICT : Nat := 4
def ADDRMAN_HORIZON_DAYS : Int := 30
def ADDRMAN_RETRIES : Int := 3
def ADDRMAN_MAX_FAILURES : Int := 10
def ADDRMAN_MIN_FAIL_DAYS : Int := 7
def ADDRMAN_GETADDR_MAX_PCT : Nat := 23
def ADDRMAN_GETADDR_MAX : Nat := 2500

structure CAddrInfo extends CAddress where
  source : CNetAddr
  nLastSuccess : Int64
  nAttempts : Int32
  nRefCount : Int
  fInTried : Bool
  nRandomPos : Int
deriving DecidableEq, Repr

/-- `GetRandInt` with the number that `RAND_bytes` made. -/
def getRandInt (nRand nMax : Nat) : Nat := if nMax = 0 then 0 else nRand % nMax

/-- The value that an `unsigned int` takes when `n` is assigned to it. -/
def toUnsignedInt (n : Int) : UInt32 := UInt32.ofNat (n % 2 ^ 32).toNat

/-- The arithmetic of `double`. -/
class DoubleArithmetic where
  double : Type
  ofDecimal : Rat → double
  ofInt : Int → double
  sqrt : double → double
  add : double → double → double
  sub : double → double → double
  mul : double → double → double
  div : double → double → double
  lt : double → double → Bool

namespace CAddrInfo

/-- `CAddrInfo(addrIn, addrSource)`. -/
def new (addr : CAddress) (addrSource : CNetAddr) : CAddrInfo :=
  { addr with
    source := addrSource
    nLastSuccess := 0
    nLastTry := 0
    nAttempts := 0
    nRefCount := 0
    fInTried := false
    nRandomPos := -1 }

section

variable [ByteHashing]

/-- `Hash(...).Get64()` of what is in a stream. -/
def hash64 (ss : List UInt8) : Nat := (ByteHashing.hash ss).toNat % 2 ^ 64

def writeBytes (v : List UInt8) : List UInt8 := writeVector (fun b => [b]) v

def getTriedBucket (info : CAddrInfo) (nKey : List UInt8) : Nat :=
  let hash1 := hash64 (writeBytes nKey ++ writeBytes info.getKey)
  let hash2 := hash64 (writeBytes nKey ++ writeBytes info.getGroup ++
    littleEndian 8 (hash1 % ADDRMAN_TRIED_BUCKETS_PER_GROUP))
  hash2 % ADDRMAN_TRIED_BUCKET_COUNT

def getNewBucket (info : CAddrInfo) (nKey : List UInt8) (src : CNetAddr) : Nat :=
  let hash1 := hash64 (writeBytes nKey ++ writeBytes info.getGroup ++ writeBytes src.getGroup)
  let hash2 := hash64 (writeBytes nKey ++ writeBytes src.getGroup ++
    littleEndian 8 (hash1 % ADDRMAN_NEW_BUCKETS_PER_SOURCE_GROUP))
  hash2 % ADDRMAN_NEW_BUCKET_COUNT

theorem getTriedBucket_lt (info : CAddrInfo) (nKey : List UInt8) :
    info.getTriedBucket nKey < ADDRMAN_TRIED_BUCKET_COUNT :=
  Nat.mod_lt _ (by decide)

theorem getNewBucket_lt (info : CAddrInfo) (nKey : List UInt8) (src : CNetAddr) :
    info.getNewBucket nKey src < ADDRMAN_NEW_BUCKET_COUNT :=
  Nat.mod_lt _ (by decide)

end

def isTerrible (info : CAddrInfo) (nNow : Int) : Bool :=
  let nLastTry := info.nLastTry.toInt
  let nTime : Int := info.nTime.toNat
  if nLastTry ≠ 0 ∧ nNow - 60 ≤ nLastTry then false
  else if nNow + 10 * 60 < nTime then true
  else if nTime = 0 ∨ ADDRMAN_HORIZON_DAYS * 86400 < nNow - nTime then true
  else if info.nLastSuccess = 0 ∧ ADDRMAN_RETRIES ≤ info.nAttempts.toInt then true
  else if ADDRMAN_MIN_FAIL_DAYS * 86400 < nNow - info.nLastSuccess.toInt ∧
      ADDRMAN_MAX_FAILURES ≤ info.nAttempts.toInt then true
  else false

open DoubleArithmetic in
def getChance [DoubleArithmetic] (info : CAddrInfo) (nNow : Int) : double :=
  let nSinceLastSeen := max 0 (nNow - info.nTime.toNat)
  let nSinceLastTry := max 0 (nNow - info.nLastTry.toInt)
  let fChance := mul (ofDecimal 1.0)
    (div (ofDecimal 600.0) (add (ofDecimal 600.0) (ofInt nSinceLastSeen)))
  let fChance := if nSinceLastTry < 60 * 10 then mul fChance (ofDecimal 0.01) else fChance
  (fun fChance => div fChance (ofDecimal 1.5))^[info.nAttempts.toInt.toNat] fChance

end CAddrInfo

/-! ## The manager -/

structure CAddrMan where
  nKey : List UInt8
  nIdCount : Int
  mapInfo : TreeMap Int CAddrInfo
  mapAddr : CNetAddr → Option Int
  vRandom : List Int
  nTried : Int
  vvTried : List (List Int)
  nNew : Int
  vvNew : List (List Int)

namespace CAddrMan

/-- `CAddrMan()` with the key that `RAND_bytes` made. -/
def init (nKey : Bytes 32) : CAddrMan where
  nKey := nKey.1
  nIdCount := 0
  mapInfo := ∅
  mapAddr := fun _ => none
  vRandom := []
  nTried := 0
  vvTried := List.replicate ADDRMAN_TRIED_BUCKET_COUNT []
  nNew := 0
  vvNew := List.replicate ADDRMAN_NEW_BUCKET_COUNT []

def find (s : CAddrMan) (addr : CNetAddr) : Option (Int × CAddrInfo) := do
  let nId ← s.mapAddr addr
  let info ← s.mapInfo[nId]?
  pure (nId, info)

def setInfo (s : CAddrMan) (nId : Int) (info : CAddrInfo) : CAddrMan :=
  { s with mapInfo := s.mapInfo.insert nId info }

def insertNext (s : CAddrMan) (info : CAddrInfo) : CAddrMan :=
  { s with
    nIdCount := s.nIdCount + 1
    mapInfo := s.mapInfo.insert s.nIdCount { info with nRandomPos := s.vRandom.length }
    mapAddr := Function.update s.mapAddr info.toCNetAddr (some s.nIdCount)
    vRandom := s.vRandom ++ [s.nIdCount] }

/-- `Create`, without the id, which is the old `nIdCount`. -/
def create (s : CAddrMan) (info : CAddrInfo) : Option CAddrMan :=
  if Int32Range (s.nIdCount + 1) then some (s.insertNext info) else none

def swapRandom (s : CAddrMan) (nRndPos1 nRndPos2 : Nat) : Option CAddrMan :=
  if nRndPos1 = nRndPos2 then some s
  else do
    let nId1 ← s.vRandom[nRndPos1]?
    let nId2 ← s.vRandom[nRndPos2]?
    let info1 ← s.mapInfo[nId1]?
    let s1 := s.setInfo nId1 { info1 with nRandomPos := nRndPos2 }
    let info2 ← s1.mapInfo[nId2]?
    let s2 := s1.setInfo nId2 { info2 with nRandomPos := nRndPos1 }
    pure { s2 with vRandom := (s.vRandom.set nRndPos1 nId2).set nRndPos2 nId1 }

/-! ### Taking entries out of buckets -/

/-- `--info.nRefCount`, and the deletion of the entry when that makes it 0. -/
def dropRef (s : CAddrMan) (nId : Int) : Option CAddrMan := do
  let info ← s.mapInfo[nId]?
  let s1 := s.setInfo nId { info with nRefCount := info.nRefCount - 1 }
  if info.nRefCount - 1 = 0 then
    let s2 ← s1.swapRandom info.nRandomPos.toNat (s1.vRandom.length - 1)
    pure { s2 with
      vRandom := s2.vRandom.dropLast
      mapAddr := Function.update s2.mapAddr info.toCNetAddr none
      mapInfo := s2.mapInfo.erase nId
      nNew := s2.nNew - 1 }
  else pure s1

/-- `vNew.erase` after the reference is dropped. -/
def dropFrom (s : CAddrMan) (nUBucket : Nat) (nId : Int) : Option CAddrMan := do
  let s1 ← s.dropRef nId
  pure { s1 with vvNew := s1.vvNew.modify nUBucket (List.erase · nId) }

/-- The first loop of `ShrinkNew`: a deletable entry of the bucket. -/
def findTerrible (s : CAddrMan) (nNow : Int) : List Int → Option (Option Int)
  | [] => some none
  | nId :: rest => do
    let info ← s.mapInfo[nId]?
    if info.isTerrible nNow then pure (some nId) else s.findTerrible nNow rest

/-- The second loop: the oldest of the entries at the positions `n`, from position `nI` on. -/
def findOldest (s : CAddrMan) (n : List Nat) : Nat → Option Int → List Int → Option (Option Int)
  | _, nOldest, [] => some nOldest
  | nI, nOldest, nId :: rest =>
    if nI ∈ n then
      match nOldest with
      | none => s.findOldest n (nI + 1) (some nId) rest
      | some m => do
        let info ← s.mapInfo[nId]?
        let oldest ← s.mapInfo[m]?
        s.findOldest n (nI + 1) (some (if info.nTime < oldest.nTime then nId else m)) rest
    else s.findOldest n (nI + 1) nOldest rest

def shrinkNew (s : CAddrMan) (nNow : Int) (rnd : Nat → Nat) (nUBucket : Nat) :
    Option CAddrMan := do
  let vNew ← s.vvNew[nUBucket]?
  let terrible ← s.findTerrible nNow vNew
  match terrible with
  | some nId => s.dropFrom nUBucket nId
  | none =>
    let n := (List.range 4).map fun i => getRandInt (rnd i) vNew.length
    let nOldest ← s.findOldest n 0 none vNew
    let nId ← nOldest
    s.dropFrom nUBucket nId

/-! ### The "tried" table -/

/-- A round of the loop in `SelectTried`. Its state is the bucket, `nOldest` and `nOldestPos`. -/
def inspectTried (s : CAddrMan) (rnd : Nat → Nat) (st : List Int × Option (Int × Nat)) (i : Nat) :
    Option (List Int × Option (Int × Nat)) := do
  let nPos := getRandInt (rnd i) (st.1.length - i) + i
  let nTemp ← st.1[nPos]?
  let nFirst ← st.1[i]?
  let vTried := (st.1.set nPos nFirst).set i nTemp
  match st.2 with
  | none => pure (vTried, some (nTemp, nPos))
  | some (nOldest, nOldestPos) =>
    let info ← s.mapInfo[nTemp]?
    let oldest ← s.mapInfo[nOldest]?
    if info.nLastSuccess < oldest.nLastSuccess then pure (vTried, some (nTemp, nPos))
    else pure (vTried, some (nOldest, nOldestPos))

/-- `SelectTried` on the bucket: the bucket afterwards and `nOldestPos`. -/
def selectTried (s : CAddrMan) (rnd : Nat → Nat) (vTried : List Int) :
    Option (List Int × Nat) := do
  let st ← (List.range (min ADDRMAN_TRIED_ENTRIES_INSPECT_ON_EVICT vTried.length)).foldlM
    (s.inspectTried rnd) (vTried, none)
  let oldest ← st.2
  pure (st.1, oldest.2)

section

variable [ByteHashing]

/-- The end of `MakeTried`: an entry of the full bucket goes back to a "new" bucket. -/
def evict (s : CAddrMan) (rnd : Nat → Nat) (info : CAddrInfo) (nId : Int) (nOrigin nKBucket : Nat)
    (vTried : List Int) : Option CAddrMan := do
  let r ← s.selectTried rnd vTried
  let nOld ← r.1[r.2]?
  let infoOld ← s.mapInfo[nOld]?
  let nUBucket := infoOld.getNewBucket s.nKey infoOld.source
  let vNew ← s.vvNew[nUBucket]?
  let s1 := s.setInfo nOld { infoOld with fInTried := false, nRefCount := 1 }
  let s2 := s1.setInfo nId { info with fInTried := true }
  pure { s2 with
    vvNew := s2.vvNew.modify (if vNew.length < ADDRMAN_NEW_BUCKET_SIZE then nUBucket else nOrigin)
      (setInsert nOld)
    nNew := s2.nNew + 1
    vvTried := s2.vvTried.set nKBucket (r.1.set r.2 nId) }

def leaveNew (s : CAddrMan) (nId : Int) (info : CAddrInfo) : CAddrMan :=
  let s1 := { s with
    vvNew := s.vvNew.map (List.erase · nId)
    nNew := s.nNew - 1 }
  s1.setInfo nId info

def makeTried (s : CAddrMan) (rnd : Nat → Nat) (nId : Int) (nOrigin : Nat) : Option CAddrMan := do
  let origin ← s.vvNew[nOrigin]?
  if nId ∉ origin then none
  else
    let found ← s.mapInfo[nId]?
    -- one reference less for every bucket that the entry was in
    let nErased := s.vvNew.countP fun vNew => decide (nId ∈ vNew)
    let info := { found with nRefCount := found.nRefCount - nErased }
    let s1 := s.leaveNew nId info
    if info.nRefCount ≠ 0 then none
    else
      let nKBucket := info.getTriedBucket s1.nKey
      let vTried ← s1.vvTried[nKBucket]?
      if vTried.length < ADDRMAN_TRIED_BUCKET_SIZE then
        let s2 := s1.setInfo nId { info with fInTried := true }
        pure { s2 with
          vvTried := s2.vvTried.set nKBucket (vTried ++ [nId])
          nTried := s2.nTried + 1 }
      else s1.evict rnd info nId nOrigin nKBucket vTried

/-! ## The operations -/

/-- The loop of `Good_`: the first bucket, from a random one on, that the entry is in. -/
def findNewBucket (s : CAddrMan) (nRnd : Nat) (nId : Int) : Option Nat :=
  ((List.range s.vvNew.length).map fun n => (n + nRnd) % s.vvNew.length).find?
    fun nB => decide (nId ∈ s.vvNew.getD nB [])

def good (s : CAddrMan) (rnd : Nat → Nat) (addr : CService) (nTime : Int64) : Option CAddrMan :=
  match s.find addr.toCNetAddr with
  | none => some s
  | some (nId, found) =>
    if found.toCService ≠ addr then some s
    else
      let info := { found with
        nLastSuccess := nTime
        nLastTry := nTime
        nTime := toUnsignedInt nTime.toInt
        nAttempts := 0 }
      let s1 := s.setInfo nId info
      if info.fInTried then some s1
      else
        match s1.findNewBucket (getRandInt (rnd 0) s1.vvNew.length) nId with
        | none => some s1
        | some nUBucket => s1.makeTried (fun k => rnd (k + 1)) nId nUBucket

/-- The end of `Add_`: a reference from the bucket of this source, unless there is one. -/
def addRef (s : CAddrMan) (nNow : Int) (rnd : Nat → Nat) (nId : Int) (source : CNetAddr) :
    Option CAddrMan := do
  let info ← s.mapInfo[nId]?
  let nUBucket := info.getNewBucket s.nKey source
  let vNew ← s.vvNew[nUBucket]?
  if nId ∈ vNew then pure s
  else
    let s1 := s.setInfo nId { info with nRefCount := info.nRefCount + 1 }
    let s2 ← if vNew.length = ADDRMAN_NEW_BUCKET_SIZE then s1.shrinkNew nNow rnd nUBucket
      else pure s1
    pure { s2 with vvNew := s2.vvNew.modify nUBucket (setInsert nId) }

/-- What `Add_` changes in a known entry in any case: `nTime` and `nServices`. -/
def refresh (nNow : Int) (info : CAddrInfo) (addr : CAddress) (nTimePenalty : Int) : CAddrInfo :=
  let fCurrentlyOnline := nNow - addr.nTime.toNat < 24 * 60 * 60
  let nUpdateInterval : Int := if fCurrentlyOnline then 60 * 60 else 24 * 60 * 60
  { info with
    nTime :=
      if addr.nTime ≠ 0 ∧ (info.nTime = 0 ∨
          (info.nTime.toNat : Int) < addr.nTime.toNat - nUpdateInterval - nTimePenalty) then
        toUnsignedInt (max 0 (addr.nTime.toNat - nTimePenalty))
      else info.nTime
    nServices := info.nServices ||| addr.nServices }

/-- `Add_` of a known entry returns before it looks at the buckets. -/
def keepsRefs (rnd : Nat → Nat) (info : CAddrInfo) (addr : CAddress) : Bool :=
  if addr.nTime = 0 ∨ (info.nTime ≠ 0 ∧ addr.nTime ≤ info.nTime) then true
  else if info.fInTried then true
  else if info.nRefCount = ADDRMAN_NEW_BUCKETS_PER_ADDRESS then true
  else
    let nFactor := 2 ^ info.nRefCount.toNat
    1 < nFactor && getRandInt (rnd 0) nFactor ≠ 0

/-- The entry that `Add_` makes of an unknown address. -/
def newInfo (addr : CAddress) (source : CNetAddr) (nTimePenalty : Int) : CAddrInfo :=
  let info := CAddrInfo.new addr source
  { info with nTime := toUnsignedInt (max 0 (info.nTime.toNat - nTimePenalty)) }

def createNew (s : CAddrMan) (info : CAddrInfo) : Option CAddrMan :=
  (s.create info).map fun s1 => { s1 with nNew := s1.nNew + 1 }

/-- `Add_`, with `fNew`. -/
def addOne (s : CAddrMan) (nNow : Int) (rnd : Nat → Nat) (addr : CAddress) (source : CNetAddr)
    (nTimePenalty : Int) : Option (CAddrMan × Bool) :=
  if !addr.isRoutable then some (s, false)
  else
    match s.find addr.toCNetAddr with
    | some (nId, found) =>
      let info := refresh nNow found addr nTimePenalty
      let s1 := s.setInfo nId info
      if keepsRefs rnd info addr then some (s1, false)
      else (s1.addRef nNow (fun k => rnd (k + 1)) nId source).map fun s2 => (s2, false)
    | none => do
      let s1 ← s.createNew (newInfo addr source nTimePenalty)
      let s2 ← s1.addRef nNow (fun k => rnd (k + 1)) s.nIdCount source
      pure (s2, true)

/-- A round of the loop in `Add`, with `nAdd`. -/
def addNext (nNow : Int) (rnd : Nat → Nat → Nat) (source : CNetAddr) (nTimePenalty : Int)
    (r : CAddrMan × Nat) (addr : CAddress × Nat) : Option (CAddrMan × Nat) := do
  let r1 ← r.1.addOne nNow (rnd addr.2) addr.1 source nTimePenalty
  pure (r1.1, if r1.2 then r.2 + 1 else r.2)

def add (s : CAddrMan) (nNow : Int) (rnd : Nat → Nat → Nat) (vAddr : List CAddress)
    (source : CNetAddr) (nTimePenalty : Int) : Option (CAddrMan × Nat) :=
  vAddr.zipIdx.foldlM (addNext nNow rnd source nTimePenalty) (s, 0)

end

/-- What is done with the entry of a service, if there is one. -/
def updateService (s : CAddrMan) (addr : CService) (f : CAddrInfo → CAddrInfo) : CAddrMan :=
  match s.find addr.toCNetAddr with
  | none => s
  | some (nId, info) => if info.toCService ≠ addr then s else s.setInfo nId (f info)

def attempt (s : CAddrMan) (addr : CService) (nTime : Int64) : CAddrMan :=
  s.updateService addr fun info =>
    { info with nLastTry := nTime, nAttempts := info.nAttempts + 1 }

def connected (s : CAddrMan) (addr : CService) (nTime : Int64) : CAddrMan :=
  s.updateService addr fun info =>
    if 20 * 60 < nTime.toInt - info.nTime.toNat then
      { info with nTime := toUnsignedInt nTime.toInt }
    else info

section

variable [DoubleArithmetic]

open DoubleArithmetic

/-- The loop of `Select_` over the buckets of one of the tables; the result is `some none` when the
fuel is not enough to find an address. -/
def selectFrom (s : CAddrMan) (nNow : Int) (rnd : Nat → Nat) (vv : List (List Int)) :
    Nat → Nat → double → Option (Option CAddrInfo)
  | 0, _, _ => some none
  | fuel + 1, k, fChanceFactor => do
    let bucket ← vv[getRandInt (rnd k) vv.length]?
    if bucket.length = 0 then s.selectFrom nNow rnd vv fuel (k + 1) fChanceFactor
    else
      let nId ← bucket[getRandInt (rnd (k + 1)) bucket.length]?
      let info ← s.mapInfo[nId]?
      if lt (ofInt (getRandInt (rnd (k + 2)) (2 ^ 30)))
          (mul (mul fChanceFactor (info.getChance nNow)) (ofInt (2 ^ 30))) then pure (some info)
      else s.selectFrom nNow rnd vv fuel (k + 3) (mul fChanceFactor (ofDecimal 1.2))

def noAddress : CAddress := ⟨⟨⟨⟨List.replicate 16 0, rfl⟩⟩, 0⟩, 1, 100000000, 0⟩

def select (s : CAddrMan) (nNow : Int) (rnd : Nat → Nat) (fuel : Nat) (nUnkBias : Int) :
    Option (Option CAddress) :=
  if s.vRandom.length = 0 then some (some noAddress)
  else
    let nCorTried := mul (sqrt (ofInt s.nTried)) (sub (ofDecimal 100.0) (ofInt nUnkBias))
    let nCorNew := mul (sqrt (ofInt s.nNew)) (ofInt nUnkBias)
    let vv := if lt (div (mul (DoubleArithmetic.add nCorTried nCorNew) (ofInt (getRandInt (rnd 0) (2 ^ 30))))
        (ofInt (2 ^ 30))) nCorTried then s.vvTried else s.vvNew
    (s.selectFrom nNow rnd vv fuel 1 (ofDecimal 1.0)).map fun info => info.map (·.toCAddress)

end

/-- A round of the loop in `GetAddr_`. -/
def pickRandom (rnd : Nat → Nat) (r : CAddrMan × List CAddress) (n : Nat) :
    Option (CAddrMan × List CAddress) := do
  let s1 ← r.1.swapRandom n (getRandInt (rnd n) (r.1.vRandom.length - n) + n)
  let nId ← s1.vRandom[n]?
  let info ← s1.mapInfo[nId]?
  pure (s1, r.2 ++ [info.toCAddress])

def getAddr (s : CAddrMan) (rnd : Nat → Nat) : Option (CAddrMan × List CAddress) :=
  let nNodes := min (ADDRMAN_GETADDR_MAX_PCT * s.vRandom.length / 100) ADDRMAN_GETADDR_MAX
  (List.range nNodes).foldlM (pickRandom rnd) (s, [])

end CAddrMan

/-! ## `Check_` -/

namespace CAddrMan

/-- The first loop of `Check_` at one entry, with `setTried` and `mapNew`. -/
def checkEntry (s : CAddrMan) (st : List Int × TreeMap Int Int) (entry : Int × CAddrInfo) :
    Except Int (List Int × TreeMap Int Int) := do
  let n := entry.1
  let info := entry.2
  let st ←
    if info.fInTried then
      if info.nLastSuccess = 0 then .error (-1)
      else if info.nRefCount ≠ 0 then .error (-2)
      else pure (setInsert n st.1, st.2)
    else if info.nRefCount < 0 ∨ ADDRMAN_NEW_BUCKETS_PER_ADDRESS < info.nRefCount then .error (-3)
    else if info.nRefCount = 0 then .error (-4)
    else pure (st.1, st.2.insert n info.nRefCount)
  if (s.mapAddr info.toCNetAddr).getD 0 ≠ n then .error (-5)
  else if info.nRandomPos < 0 ∨ (s.vRandom.length : Int) ≤ info.nRandomPos ∨
      s.vRandom[info.nRandomPos.toNat]? ≠ some n then .error (-14)
  else if info.nLastTry < 0 then .error (-6)
  else if info.nLastSuccess < 0 then .error (-8)
  else pure st

def checkTried (setTried : List Int) (n : Int) : Except Int (List Int) :=
  if n ∉ setTried then .error (-11) else pure (setTried.erase n)

def checkNew (mapNew : TreeMap Int Int) (n : Int) : Except Int (TreeMap Int Int) :=
  match mapNew[n]? with
  | none => .error (-12)
  | some nRefCount =>
    pure (if nRefCount - 1 = 0 then mapNew.erase n else mapNew.insert n (nRefCount - 1))

/-- `Check_`, whose error codes are the errors. -/
def check (s : CAddrMan) : Except Int Unit := do
  if (s.vRandom.length : Int) ≠ s.nTried + s.nNew then .error (-7)
  else
    let st ← s.mapInfo.toList.foldlM s.checkEntry ([], ∅)
    if (st.1.length : Int) ≠ s.nTried then .error (-9)
    else if (st.2.size : Int) ≠ s.nNew then .error (-10)
    else
      let setTried ← s.vvTried.flatten.foldlM checkTried st.1
      let mapNew ← s.vvNew.flatten.foldlM checkNew st.2
      if setTried.length ≠ 0 then .error (-13)
      else if mapNew.size ≠ 0 then .error (-15)
      else pure ()

end CAddrMan

/-- A call, with the time and the random numbers it gets. -/
inductive AddrManOp where
  | add (nNow : Int) (rnd : Nat → Nat → Nat) (vAddr : List CAddress) (source : CNetAddr)
      (nTimePenalty : Int)
  | good (rnd : Nat → Nat) (addr : CService) (nTime : Int64)
  | attempt (addr : CService) (nTime : Int64)
  | connected (addr : CService) (nTime : Int64)
  | select (nNow : Int) (rnd : Nat → Nat) (fuel : Nat) (nUnkBias : Int)
  | getAddr (rnd : Nat → Nat)

def CAddrMan.step [ByteHashing] [DoubleArithmetic] (s : CAddrMan) : AddrManOp → Option CAddrMan
  | .add nNow rnd vAddr source nTimePenalty =>
    (s.add nNow rnd vAddr source nTimePenalty).map Prod.fst
  | .good rnd addr nTime => s.good rnd addr nTime
  | .attempt addr nTime => some (s.attempt addr nTime)
  | .connected addr nTime => some (s.connected addr nTime)
  | .select nNow rnd fuel nUnkBias => (s.select nNow rnd fuel nUnkBias).map fun _ => s
  | .getAddr rnd => (s.getAddr rnd).map Prod.fst

namespace CAddrMan

/-- If the address gets an id, the next one is an `int`. -/
def HasId (s : CAddrMan) (addr : CAddress) : Prop :=
  addr.isRoutable = true → s.find addr.toCNetAddr = none → Int32Range (s.nIdCount + 1)

/-- Every address of an `Add` has an id when its turn comes. -/
def IdsLast [ByteHashing] (s : CAddrMan) : AddrManOp → Prop
  | .add nNow rnd vAddr source nTimePenalty =>
    Run.Meets (fun r addr => r.1.HasId addr.1) (addNext nNow rnd source nTimePenalty) (s, 0)
      vAddr.zipIdx
  | _ => True

end CAddrMan

end Terracoin
