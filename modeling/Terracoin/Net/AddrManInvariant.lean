import Terracoin.Net.AddrTables
import Terracoin.Lib.Positions
import Terracoin.Lib.Run

/-!
# The invariant of the address manager

`Inv` connects the four structures of `CAddrMan`: the ids in `vRandom` and in `mapAddr` are those of
the entries, with the positions and the addresses that the entries have, and the buckets agree with
the entries (`Tables`). Every operation succeeds in a state with the invariant and keeps it. What
only depends on the positions is kept apart from what does not depend on them, so that a swap in
`vRandom` is seen by the first part alone (`Reordered`).
-/

namespace Terracoin

open Std (TreeMap)
open Positions AddrTables Buckets

/-- An id is found under the address of its entry. -/
structure Directory (mapAddr : CNetAddr → Option Int) (e : Int → Option CAddrInfo)
    (nIdCount : Int) : Prop where
  lt : ∀ n info, e n = some info → n < nIdCount
  addr : ∀ a n, mapAddr a = some n ↔ (e n).map (·.toCNetAddr) = some a

namespace Directory

variable {mapAddr : CNetAddr → Option Int} {e : Int → Option CAddrInfo} {nIdCount n : Int}
  {info info' : CAddrInfo}

theorem update (h : Directory mapAddr e nIdCount) (he : e n = some info)
    (ha : info'.toCNetAddr = info.toCNetAddr) :
    Directory mapAddr (Function.update e n (some info')) nIdCount := by
  refine ⟨fun m x hx => ?_, fun a m => ?_⟩
  · rw [Function.update_apply] at hx
    split at hx
    · next hm => exact hm ▸ h.lt n info he
    · exact h.lt m x hx
  · rw [h.addr, Function.update_apply]
    split
    · next hm => rw [hm, he, Option.map_some, Option.map_some, ha]
    · rfl

theorem fresh (h : Directory mapAddr e nIdCount) : e nIdCount = none := by
  by_contra hne
  obtain ⟨x, hx⟩ := Option.ne_none_iff_exists'.mp hne
  exact absurd (h.lt _ x hx) (Int.lt_irrefl _)

theorem create (h : Directory mapAddr e nIdCount) (ha : mapAddr info.toCNetAddr = none) :
    Directory (Function.update mapAddr info.toCNetAddr (some nIdCount))
      (Function.update e nIdCount (some info)) (nIdCount + 1) := by
  have hfresh := h.fresh
  refine ⟨fun m x hx => ?_, fun a m => ?_⟩
  · rw [Function.update_apply] at hx
    split at hx
    · next hm => omega
    · have := h.lt m x hx
      omega
  · rw [Function.update_apply, Function.update_apply]
    by_cases haa : a = info.toCNetAddr
    · rw [if_pos haa]
      by_cases hm : m = nIdCount
      · simp [hm, haa]
      · rw [if_neg hm, ← h.addr, haa, ha]
        simp [Ne.symm hm]
    · rw [if_neg haa]
      by_cases hm : m = nIdCount
      · rw [if_pos hm, h.addr, hm, hfresh]
        simp [Ne.symm haa]
      · rw [if_neg hm, h.addr]

theorem erase (h : Directory mapAddr e nIdCount) (he : e n = some info) :
    Directory (Function.update mapAddr info.toCNetAddr none) (Function.update e n none)
      nIdCount := by
  have hn : mapAddr info.toCNetAddr = some n := (h.addr _ _).mpr (by rw [he]; rfl)
  refine ⟨fun m x hx => ?_, fun a m => ?_⟩
  · rw [Function.update_apply] at hx
    split at hx
    · cases hx
    · exact h.lt m x hx
  · rw [Function.update_apply, Function.update_apply]
    by_cases haa : a = info.toCNetAddr
    · rw [if_pos haa]
      by_cases hm : m = n
      · simp [hm]
      · rw [if_neg hm, ← h.addr, haa, hn]
        simp [Ne.symm hm]
    · rw [if_neg haa, h.addr]
      by_cases hm : m = n
      · rw [if_pos hm, hm, he]
        simp [Ne.symm haa]
      · rw [if_neg hm]

end Directory

/-- The times of an entry are not negative, and a tried one has been reached. -/
structure Timed (info : CAddrInfo) : Prop where
  nLastTry : 0 ≤ info.nLastTry
  nLastSuccess : 0 ≤ info.nLastSuccess
  tried : info.fInTried = true → info.nLastSuccess ≠ 0

namespace CAddrMan

/-- The entry of an id, but for its position. -/
def entry (s : CAddrMan) (n : Int) : Option CAddrInfo := s.mapInfo[n]?.map CAddrInfo.unplaced

/-- The position that the entry of an id has. -/
def pos (s : CAddrMan) (n : Int) : Option Nat := s.mapInfo[n]?.map fun info => info.nRandomPos.toNat

def Placed (s : CAddrMan) : Prop :=
  ∀ (n : Int) (info : CAddrInfo), s.mapInfo[n]? = some info → 0 ≤ info.nRandomPos

/-- `mapInfo`, `mapAddr` and `vRandom` have the same entries. `T` says that the times were positive
that the entries have got. -/
structure Listed (T : Prop) (s : CAddrMan) : Prop where
  directory : Directory s.mapAddr s.entry s.nIdCount
  random : Inverse s.vRandom s.pos
  placed : s.Placed
  timed : T → ∀ n info, s.entry n = some info → Timed info

/-- The invariant. `extra` is the entry with a reference that is not yet in its bucket. -/
structure Inv [ByteHashing] (T : Prop) (s : CAddrMan) (extra : Option Int) : Prop
    extends Listed T s where
  key : s.nKey.length = 32
  tables : Tables s.nKey s.entry s.vvTried s.vvNew extra
  nTried : s.nTried = s.vvTried.flatten.length
  size : s.nTried + s.nNew = s.vRandom.length

/-! ## Writing to an entry -/

section

variable {s s' : CAddrMan} {n m : Int} {info found : CAddrInfo}

theorem entry_of_eq (h : s.mapInfo[n]? = some info) : s.entry n = some info.unplaced := by
  rw [entry, h]
  rfl

theorem exists_of_entry (h : s.entry n = some info) :
    ∃ found, s.mapInfo[n]? = some found ∧ found.unplaced = info :=
  Option.map_eq_some_iff.mp h

@[simp] theorem getElem?_setInfo (s : CAddrMan) (n m : Int) (info : CAddrInfo) :
    (s.setInfo n info).mapInfo[m]? = if m = n then some info else s.mapInfo[m]? := by
  rw [setInfo, TreeMap.getElem?_insert]
  simp only [Std.compare_eq_iff_eq, eq_comm (a := n)]

theorem entry_setInfo (s : CAddrMan) (n : Int) (info : CAddrInfo) :
    (s.setInfo n info).entry = Function.update s.entry n (some info.unplaced) := by
  funext m
  rw [entry, getElem?_setInfo, Function.update_apply]
  split <;> rfl

theorem pos_setInfo (s : CAddrMan) (n : Int) (info : CAddrInfo) :
    (s.setInfo n info).pos = Function.update s.pos n (some info.nRandomPos.toNat) := by
  funext m
  rw [pos, getElem?_setInfo, Function.update_apply]
  split <;> rfl

theorem pos_setInfo_of_eq (hn : s.mapInfo[n]? = some found)
    (hpos : info.nRandomPos = found.nRandomPos) : (s.setInfo n info).pos = s.pos := by
  rw [pos_setInfo, Function.update_eq_self_iff, pos, hn, hpos]
  rfl

theorem Placed.setInfo (h : s.Placed) (hpos : 0 ≤ info.nRandomPos) :
    (s.setInfo n info).Placed := by
  intro m x hx
  rw [getElem?_setInfo] at hx
  split at hx
  · exact Option.some.inj hx ▸ hpos
  · exact h m x hx

theorem timed_update {e : Int → Option CAddrInfo} {x : Option CAddrInfo}
    (h : ∀ n info, e n = some info → Timed info) (hx : ∀ info ∈ x, Timed info) :
    ∀ m info, Function.update e n x m = some info → Timed info := by
  intro m info hm
  rw [Function.update_apply] at hm
  split at hm
  · exact hx info hm
  · exact h m info hm

theorem getElem?_insertNext (s : CAddrMan) (info : CAddrInfo) (m : Int) :
    (s.insertNext info).mapInfo[m]? =
      if m = s.nIdCount then some { info with nRandomPos := s.vRandom.length }
      else s.mapInfo[m]? := by
  rw [insertNext, TreeMap.getElem?_insert]
  simp only [Std.compare_eq_iff_eq, eq_comm (a := s.nIdCount)]

theorem entry_insertNext (s : CAddrMan) (info : CAddrInfo) :
    (s.insertNext info).entry = Function.update s.entry s.nIdCount (some info.unplaced) := by
  funext m
  rw [entry, getElem?_insertNext, Function.update_apply]
  split <;> rfl

/-! ## The order in `vRandom` -/

/-- The ids are in another order, and nothing else is different. -/
structure Reordered (s s' : CAddrMan) : Prop where
  frame : s' = { s with mapInfo := s'.mapInfo, vRandom := s'.vRandom }
  entry : s'.entry = s.entry
  random : Inverse s'.vRandom s'.pos
  placed : s'.Placed
  length : s'.vRandom.length = s.vRandom.length

theorem exists_of_random (h : Inverse s.vRandom s.pos) {i : Nat} (hi : s.vRandom[i]? = some n) :
    ∃ info, s.mapInfo[n]? = some info ∧ info.nRandomPos.toNat = i :=
  Option.map_eq_some_iff.mp ((h i n).mp hi)

/-- `SwapRandom` of two positions of `vRandom`. -/
theorem swapRandom_spec {i j : Nat} (h : Inverse s.vRandom s.pos) (hplaced : s.Placed)
    (hi : s.vRandom[i]? = some n) (hj : s.vRandom[j]? = some m) :
    ∃ s', s.swapRandom i j = some s' ∧ Reordered s s' ∧ s'.vRandom[j]? = some n := by
  by_cases hij : i = j
  · subst hij
    refine ⟨s, ?_, ⟨rfl, rfl, h, hplaced, rfl⟩, hi⟩
    rw [swapRandom, if_pos rfl]
  · have hnm : m ≠ n := by
      rintro rfl
      have hpos := ((h i m).mp hi).symm.trans ((h j m).mp hj)
      exact hij (Option.some.inj hpos)
    obtain ⟨info1, h1, -⟩ := exists_of_random h hi
    obtain ⟨info2, h2, -⟩ := exists_of_random h hj
    have hlt := (List.getElem?_eq_some_iff.mp hj).1
    obtain ⟨s2, hs2⟩ : ∃ s2, s2 = (s.setInfo n { info1 with nRandomPos := j }).setInfo m
      { info2 with nRandomPos := i } := ⟨_, rfl⟩
    have hcall : s.swapRandom i j =
        some { s2 with vRandom := (s.vRandom.set i m).set j n } := by
      rw [swapRandom, if_neg hij, hi, hj, hs2]
      simp only [Option.bind_eq_bind, Option.bind_some, h1, getElem?_setInfo, if_neg hnm, h2]
      rfl
    have hentry : s2.entry = s.entry := by
      rw [hs2, entry_setInfo, entry_setInfo, Function.update_comm hnm.symm,
        Function.update_eq_self_iff.mpr, Function.update_eq_self_iff.mpr]
      · exact (entry_of_eq h2).symm
      · rw [Function.update_of_ne hnm.symm]
        exact (entry_of_eq h1).symm
    have hpos : s2.pos = Function.update (Function.update s.pos n (some j)) m (some i) := by
      rw [hs2, pos_setInfo, pos_setInfo]
      rfl
    refine ⟨_, hcall, ⟨?_, hentry, ?_, ?_, ?_⟩, ?_⟩
    · rw [hs2]
      rfl
    · change Inverse _ s2.pos
      rw [hpos]
      exact h.swap hi hj
    · change s2.Placed
      rw [hs2]
      exact (hplaced.setInfo (Int.natCast_nonneg j)).setInfo (Int.natCast_nonneg i)
    · simp only [List.length_set]
    · exact List.getElem?_set_self (by rwa [List.length_set])

theorem entry_of_isEmpty (h : s.mapInfo = ∅) : s.entry = fun _ => none := by
  funext n
  rw [entry, h, TreeMap.getElem?_emptyc]
  rfl

namespace Listed

variable {T : Prop}

theorem of_isEmpty (hmapInfo : s.mapInfo = ∅) (hmapAddr : s.mapAddr = fun _ => none)
    (hvRandom : s.vRandom = []) : Listed T s := by
  have hentry := entry_of_isEmpty hmapInfo
  have hpos : s.pos = fun _ => none := by
    funext n
    rw [pos, hmapInfo, TreeMap.getElem?_emptyc]
    rfl
  refine ⟨⟨?_, ?_⟩, ?_, fun n info hn => ?_, fun _ n info hn => ?_⟩
  · rw [hentry]
    exact nofun
  · rw [hentry, hmapAddr]
    exact fun _ _ => ⟨nofun, nofun⟩
  · rw [hpos, hvRandom]
    exact inverse_nil
  · rw [hmapInfo, TreeMap.getElem?_emptyc] at hn
    cases hn
  · rw [hentry] at hn
    cases hn

theorem reordered (h : Listed T s) (hs : Reordered s s') : Listed T s' := by
  have hmapAddr : s'.mapAddr = s.mapAddr := by rw [hs.frame]
  have hnIdCount : s'.nIdCount = s.nIdCount := by rw [hs.frame]
  refine ⟨?_, hs.random, hs.placed, fun hT => ?_⟩
  · rw [hmapAddr, hnIdCount, hs.entry]
    exact h.directory
  · rw [hs.entry]
    exact h.timed hT

theorem setInfo (h : Listed T s) (hn : s.mapInfo[n]? = some found)
    (ha : info.toCNetAddr = found.toCNetAddr) (hpos : info.nRandomPos = found.nRandomPos)
    (hT : T → Timed info) : Listed T (s.setInfo n info) := by
  have hentry := entry_setInfo s n info
  refine ⟨?_, ?_, ?_, fun htime => ?_⟩
  · rw [hentry]
    exact h.directory.update (entry_of_eq hn) ha
  · rw [pos_setInfo_of_eq hn hpos]
    exact h.random
  · exact h.placed.setInfo (hpos ▸ h.placed n found hn)
  · rw [hentry]
    refine timed_update (h.timed htime) fun x hx => ?_
    obtain rfl := Option.some.inj hx
    have := hT htime
    exact ⟨this.nLastTry, this.nLastSuccess, this.tried⟩

/-- `Create`. -/
theorem insertNext (h : Listed T s) (ha : s.mapAddr info.toCNetAddr = none) (hT : T → Timed info) :
    Listed T (s.insertNext info) := by
  have hget := getElem?_insertNext s info
  have hentry := entry_insertNext s info
  have hpos : (s.insertNext info).pos =
      Function.update s.pos s.nIdCount (some s.vRandom.length) := by
    funext m
    rw [pos, hget, Function.update_apply]
    split <;> rfl
  have hfresh : s.pos s.nIdCount = none := by
    rw [pos, Option.map_eq_none_iff]
    exact Option.map_eq_none_iff.mp h.directory.fresh
  refine ⟨?_, ?_, fun m x hx => ?_, fun htime => ?_⟩
  · rw [hentry]
    have hdirectory : Directory _ (Function.update s.entry s.nIdCount (some info.unplaced)) _ :=
      h.directory.create ha
    exact hdirectory
  · rw [hpos]
    exact h.random.push hfresh
  · rw [hget] at hx
    split at hx
    · obtain rfl := Option.some.inj hx
      exact Int.natCast_nonneg _
    · exact h.placed m x hx
  · rw [hentry]
    refine timed_update (h.timed htime) fun x hx => ?_
    obtain rfl := Option.some.inj hx
    have := hT htime
    exact ⟨this.nLastTry, this.nLastSuccess, this.tried⟩

/-- The id that is last in `vRandom` is deleted. -/
theorem delete (h : Listed T s) (hn : s.mapInfo[n]? = some info)
    (hlast : s.vRandom[s.vRandom.length - 1]? = some n)
    (hs' : s' = { s' with
      nIdCount := s.nIdCount
      vRandom := s.vRandom.dropLast
      mapAddr := Function.update s.mapAddr info.toCNetAddr none
      mapInfo := s.mapInfo.erase n }) :
    Listed T s' ∧ s'.entry = Function.update s.entry n none := by
  have hget : ∀ m, s'.mapInfo[m]? = if m = n then none else s.mapInfo[m]? := fun m => by
    rw [hs', TreeMap.getElem?_erase]
    simp only [Std.compare_eq_iff_eq, eq_comm (a := n)]
  have hentry : s'.entry = Function.update s.entry n none := by
    funext m
    rw [entry, hget, Function.update_apply]
    split <;> rfl
  have hpos : s'.pos = Function.update s.pos n none := by
    funext m
    rw [pos, hget, Function.update_apply]
    split <;> rfl
  have hmapAddr : s'.mapAddr = Function.update s.mapAddr info.toCNetAddr none := by rw [hs']
  have hnIdCount : s'.nIdCount = s.nIdCount := by rw [hs']
  have hvRandom : s'.vRandom = s.vRandom.dropLast := by rw [hs']
  refine ⟨⟨?_, ?_, fun m x hx => ?_, fun hT => ?_⟩, hentry⟩
  · rw [hentry, hmapAddr, hnIdCount]
    have hdirectory := h.directory.erase (entry_of_eq hn)
    exact hdirectory
  · rw [hpos, hvRandom]
    exact h.random.pop hlast
  · rw [hget] at hx
    split at hx
    · cases hx
    · exact h.placed m x hx
  · rw [hentry]
    exact timed_update (h.timed hT) nofun

theorem find_eq_some (h : Listed T s) {addr : CNetAddr} (hfind : s.find addr = some (n, info)) :
    s.mapInfo[n]? = some info ∧ info.toCNetAddr = addr := by
  simp only [find, Option.bind_eq_bind, Option.bind_eq_some_iff, Option.pure_def,
    Option.some.injEq, Prod.mk.injEq] at hfind
  obtain ⟨k, hk, x, hx, rfl, rfl⟩ := hfind
  refine ⟨hx, ?_⟩
  have haddr := (h.directory.addr addr k).mp hk
  rw [entry_of_eq hx] at haddr
  exact Option.some.inj haddr

theorem find_eq_none (h : Listed T s) {addr : CNetAddr} (hfind : s.find addr = none) :
    s.mapAddr addr = none := by
  by_contra hne
  obtain ⟨k, hk⟩ := Option.ne_none_iff_exists'.mp hne
  obtain ⟨x, hx, -⟩ := Option.map_eq_some_iff.mp ((h.directory.addr addr k).mp hk)
  obtain ⟨info, hinfo, -⟩ := exists_of_entry hx
  simp [find, hk, hinfo] at hfind

theorem exists_of_mem (h : Listed T s) {i : Nat} (hi : s.vRandom[i]? = some n) :
    ∃ info, s.mapInfo[n]? = some info := by
  obtain ⟨info, hinfo, -⟩ := exists_of_random h.random hi
  exact ⟨info, hinfo⟩

theorem timed_of_eq (h : Listed T s) (hT : T) (hn : s.mapInfo[n]? = some info) : Timed info := by
  have := h.timed hT n _ (entry_of_eq hn)
  exact ⟨this.nLastTry, this.nLastSuccess, this.tried⟩

end Listed

end

/-- No id is given out, and no address becomes known. -/
structure Drops (s s' : CAddrMan) : Prop where
  nIdCount : s'.nIdCount = s.nIdCount
  unknown : ∀ a, s.mapAddr a = none → s'.mapAddr a = none

/-! ## What keeps the invariant -/

variable [ByteHashing] {T : Prop} {s s' : CAddrMan} {extra : Option Int} {n m : Int}
  {info found : CAddrInfo} {b : Nat} {vNew : List Int}

namespace Inv

theorem reordered (h : Inv T s extra) (hs : Reordered s s') : Inv T s' extra := by
  refine { h.toListed.reordered hs with key := ?_, tables := ?_, nTried := ?_, size := ?_ }
  · rw [hs.frame]
    exact h.key
  · rw [hs.entry, hs.frame]
    exact h.tables
  · rw [hs.frame]
    exact h.nTried
  · rw [hs.length, hs.frame]
    exact h.size

theorem setInfo (h : Inv T s extra) (hn : s.mapInfo[n]? = some found)
    (hservice : info.toCService = found.toCService) (hf : info.fInTried = found.fInTried)
    (hr : info.nRefCount = found.nRefCount) (hpos : info.nRandomPos = found.nRandomPos)
    (hT : T → Timed info) : Inv T (s.setInfo n info) extra := by
  refine { h.toListed.setInfo hn (congrArg CService.toCNetAddr hservice) hpos hT with
    key := h.key, tables := ?_, nTried := h.nTried, size := h.size }
  rw [entry_setInfo]
  exact h.tables.congr_entry (entry_of_eq hn) hservice hf hr

theorem refs_of_eq (h : Inv T s extra) (hn : s.mapInfo[n]? = some info) : RefsOk info := by
  have hrefs := h.tables.refs n _ (entry_of_eq hn)
  exact hrefs

theorem exists_of_mem_new (h : Inv T s extra) (hb : s.vvNew[b]? = some vNew) (hn : n ∈ vNew) :
    ∃ info, s.mapInfo[n]? = some info ∧ info.fInTried = false := by
  obtain ⟨x, hx, hf, -⟩ := h.tables.of_mem_new hb hn
  obtain ⟨info, hinfo, rfl⟩ := exists_of_entry hx
  exact ⟨info, hinfo, hf⟩

theorem exists_of_mem_tried {vTried : List Int} (h : Inv T s extra)
    (hb : s.vvTried[b]? = some vTried) (hn : n ∈ vTried) :
    ∃ info, s.mapInfo[n]? = some info ∧ info.fInTried = true := by
  obtain ⟨x, hx, hf⟩ := h.tables.of_mem_tried hb hn
  obtain ⟨info, hinfo, rfl⟩ := exists_of_entry hx
  exact ⟨info, hinfo, hf⟩

/-- `--info.nRefCount` and `vNew.erase`: the id leaves the bucket, and if it was in no other one it
is deleted. -/
theorem dropFrom (h : Inv T s extra) (hb : s.vvNew[b]? = some vNew) (hn : n ∈ vNew) :
    ∃ s', s.dropFrom b n = some s' ∧ Inv T s' extra ∧ Drops s s' ∧
      s'.vvNew = s.vvNew.modify b (List.erase · n) := by
  obtain ⟨info, hinfo, hf⟩ := h.exists_of_mem_new hb hn
  have htables := h.tables.drop (entry_of_eq hinfo) hb hn
  have hrefCount : info.unplaced.nRefCount = info.nRefCount := rfl
  rw [hrefCount] at htables
  have hlisted1 : Listed T (s.setInfo n { info with nRefCount := info.nRefCount - 1 }) :=
    h.toListed.setInfo hinfo rfl rfl fun hT => by
      have := h.timed_of_eq hT hinfo
      exact ⟨this.nLastTry, this.nLastSuccess, this.tried⟩
  have hentry1 := entry_setInfo s n { info with nRefCount := info.nRefCount - 1 }
  by_cases hlast : info.nRefCount - 1 = 0
  · rw [if_pos hlast] at htables
    generalize hs1 : s.setInfo n { info with nRefCount := info.nRefCount - 1 } = s1
      at hlisted1 hentry1
    have hvRandom : s1.vRandom = s.vRandom := by rw [← hs1]; rfl
    have hn1 : s1.mapInfo[n]? = some { info with nRefCount := info.nRefCount - 1 } := by
      rw [← hs1, getElem?_setInfo, if_pos rfl]
    have hi : s1.vRandom[info.nRandomPos.toNat]? = some n :=
      (hlisted1.random _ n).mpr (by rw [pos, hn1]; rfl)
    have hlt := (List.getElem?_eq_some_iff.mp hi).1
    have hj : s1.vRandom[s1.vRandom.length - 1]? = some s1.vRandom[s1.vRandom.length - 1] :=
      List.getElem?_eq_getElem (by omega)
    obtain ⟨s2, hcall, hs2, hlast2⟩ :=
      swapRandom_spec hlisted1.random hlisted1.placed hi hj
    have hlisted2 := hlisted1.reordered hs2
    have hentry2 : s2.entry n = some { info with nRefCount := info.nRefCount - 1 }.unplaced := by
      rw [hs2.entry, entry_of_eq hn1]
    obtain ⟨info2, hn2, hinfo2⟩ := exists_of_entry hentry2
    have haddr : info2.unplaced.toCNetAddr = info.toCNetAddr := by
      rw [hinfo2]
      rfl
    rw [← hs2.length] at hlast2
    obtain ⟨s3, hs3⟩ : ∃ s3 : CAddrMan, s3 = { s2 with
      vRandom := s2.vRandom.dropLast
      mapAddr := Function.update s2.mapAddr info.toCNetAddr none
      mapInfo := s2.mapInfo.erase n
      nNew := s2.nNew - 1
      vvNew := s2.vvNew.modify b (List.erase · n) } := ⟨_, rfl⟩
    have hdeleted : s3 = { s3 with
        nIdCount := s2.nIdCount
        vRandom := s2.vRandom.dropLast
        mapAddr := Function.update s2.mapAddr info2.toCNetAddr none
        mapInfo := s2.mapInfo.erase n } := by
      rw [hs3, ← haddr]
      rfl
    obtain ⟨hlisted3, hentry3⟩ := hlisted2.delete hn2 hlast2 hdeleted
    have hframe := hs2.frame
    rw [← hs1] at hframe
    refine ⟨s3, ?_, { hlisted3 with key := ?_, tables := ?_, nTried := ?_, size := ?_ },
      ⟨?_, fun a ha => ?_⟩, ?_⟩
    · rw [CAddrMan.dropFrom, dropRef, hinfo]
      simp only [Option.bind_eq_bind, Option.bind_some, if_pos hlast, hs1, hcall, hs3]
      rfl
    · rw [hs3, hframe]
      exact h.key
    · rw [hentry3, hs2.entry, hentry1, Function.update_idem, hs3, hframe]
      exact htables
    · rw [hs3, hframe]
      exact h.nTried
    · have hlength := hs2.length
      have hsize := h.size
      have hnNew : s2.nNew = s.nNew := by rw [hframe]; rfl
      have hnTried : s2.nTried = s.nTried := by rw [hframe]; rfl
      rw [hs3, List.length_dropLast]
      dsimp only
      rw [hvRandom] at hlength hlt
      omega
    · rw [hs3, hframe]
      rfl
    · rw [hs3, hframe]
      change Function.update s.mapAddr _ none a = none
      rw [Function.update_apply, ha, ite_self]
    · rw [hs3, hframe]
      rfl
  · rw [if_neg hlast] at htables
    refine ⟨{ s.setInfo n { info with nRefCount := info.nRefCount - 1 } with
      vvNew := s.vvNew.modify b (List.erase · n) }, ?_, ?_, ⟨rfl, fun _ ha => ha⟩, rfl⟩
    · rw [CAddrMan.dropFrom, dropRef, hinfo]
      simp only [Option.bind_eq_bind, Option.bind_some, if_neg hlast]
      rfl
    · refine { hlisted1 with key := h.key, tables := ?_, nTried := h.nTried, size := h.size }
      change Tables s.nKey (s.setInfo n _).entry _ _ _
      rw [hentry1]
      exact htables

end Inv

end CAddrMan

end Terracoin
