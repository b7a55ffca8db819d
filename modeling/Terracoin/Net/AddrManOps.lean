import Terracoin.Net.AddrManInvariant

/-!
# The operations of the address manager

Every operation succeeds in a state with the invariant and keeps it, as long as there are ids for the
entries that it creates (`Inv.step`).
-/

namespace Terracoin

open Std (TreeMap)
open Positions AddrTables Buckets

namespace CAddrMan

variable {T : Prop} {s s' : CAddrMan} {extra : Option Int} {n m : Int} {info found : CAddrInfo}
  {b : Nat} {vNew vTried : List Int}

theorem getRandInt_lt {nRand nMax : Nat} (h : 0 < nMax) : getRandInt nRand nMax < nMax := by
  rw [getRandInt, if_neg (by omega)]
  exact Nat.mod_lt _ h

theorem findTerrible_spec (nNow : Int)
    (h : ∀ n ∈ vNew, ∃ info, s.mapInfo[n]? = some info) :
    ∃ terrible, s.findTerrible nNow vNew = some terrible ∧ ∀ n, terrible = some n → n ∈ vNew := by
  induction vNew with
  | nil => exact ⟨none, rfl, nofun⟩
  | cons n rest ih =>
    obtain ⟨info, hinfo⟩ := h n List.mem_cons_self
    rw [findTerrible, hinfo]
    simp only [Option.bind_eq_bind, Option.bind_some]
    split
    · refine ⟨some n, rfl, fun m hm => ?_⟩
      obtain rfl := Option.some.inj hm
      exact List.mem_cons_self
    · obtain ⟨terrible, hcall, hmem⟩ := ih fun m hm => h m (List.mem_cons_of_mem _ hm)
      exact ⟨terrible, hcall, fun m hm => List.mem_cons_of_mem _ (hmem m hm)⟩

/-- The second loop finds an entry if one of the positions is still to come. -/
theorem findOldest_spec (l : List Nat) (nI : Nat) (nOldest : Option Int) {bucket : List Int}
    (h : ∀ n ∈ bucket, ∃ info, s.mapInfo[n]? = some info) (hbucket : ∀ n ∈ vNew, n ∈ bucket)
    (hold : ∀ n ∈ nOldest, n ∈ bucket)
    (hl : nOldest.isSome = true ∨ ∃ i ∈ l, nI ≤ i ∧ i < nI + vNew.length) :
    ∃ n, s.findOldest l nI nOldest vNew = some (some n) ∧ n ∈ bucket := by
  induction vNew generalizing nI nOldest with
  | nil =>
    rcases hl with hl | ⟨i, -, hle, hlt⟩
    · obtain ⟨n, rfl⟩ := Option.isSome_iff_exists.mp hl
      exact ⟨n, rfl, hold n rfl⟩
    · rw [List.length_nil] at hlt
      omega
  | cons n rest ih =>
    have hrest : ∀ m ∈ rest, m ∈ bucket := fun m hm => hbucket m (List.mem_cons_of_mem _ hm)
    have hn := hbucket n List.mem_cons_self
    unfold findOldest
    split
    · cases nOldest with
      | none =>
        refine ih _ _ hrest (fun m hm => ?_) (.inl rfl)
        obtain rfl := Option.some.inj hm
        exact hn
      | some m =>
        have hm := hold m rfl
        obtain ⟨info, hinfo⟩ := h n hn
        obtain ⟨oldest, holdest⟩ := h m hm
        simp only [hinfo, holdest, Option.bind_eq_bind, Option.bind_some]
        refine ih _ _ hrest (fun k hk => ?_) (.inl rfl)
        obtain rfl := Option.some.inj hk
        split
        · exact hn
        · exact hm
    · next hnot =>
      refine ih _ _ hrest hold (hl.imp_right ?_)
      rintro ⟨i, hi, hle, hlt⟩
      have hne : nI ≠ i := by
        rintro rfl
        exact hnot hi
      rw [List.length_cons] at hlt
      exact ⟨i, hi, by omega, by omega⟩

variable [ByteHashing]

/-- `ShrinkNew` of a bucket that is not empty drops one of its references. -/
theorem Inv.shrinkNew (nNow : Int) (rnd : Nat → Nat) (h : Inv T s extra)
    (hb : s.vvNew[b]? = some vNew) (hne : vNew ≠ []) :
    ∃ s', s.shrinkNew nNow rnd b = some s' ∧ Inv T s' extra ∧ Drops s s' ∧
      ∃ n ∈ vNew, s'.vvNew = s.vvNew.modify b (List.erase · n) := by
  have hexists : ∀ n ∈ vNew, ∃ info, s.mapInfo[n]? = some info := fun n hn => by
    obtain ⟨info, hinfo, -⟩ := h.exists_of_mem_new hb hn
    exact ⟨info, hinfo⟩
  obtain ⟨terrible, hterrible, hmem⟩ := findTerrible_spec nNow hexists
  rw [CAddrMan.shrinkNew, hb]
  simp only [Option.bind_eq_bind, Option.bind_some, hterrible]
  cases terrible with
  | some n =>
    obtain ⟨s', hcall, hs', hdrops, hvvNew⟩ := h.dropFrom hb (hmem n rfl)
    exact ⟨s', hcall, hs', hdrops, n, hmem n rfl, hvvNew⟩
  | none =>
    have hpos := List.length_pos_iff.mpr hne
    obtain ⟨n, hoff, hn⟩ := findOldest_spec
      ((List.range 4).map fun i => getRandInt (rnd i) vNew.length) 0 none hexists (fun _ hn => hn)
      nofun (.inr ⟨getRandInt (rnd 0) vNew.length, List.mem_map.mpr ⟨0, by decide, rfl⟩,
        Nat.zero_le _, by rw [Nat.zero_add]; exact getRandInt_lt hpos⟩)
    obtain ⟨s', hcall, hs', hdrops, hvvNew⟩ := h.dropFrom hb hn
    simp only [hoff, Option.bind_some]
    exact ⟨s', hcall, hs', hdrops, n, hn, hvvNew⟩

/-! ## `Add_` -/

theorem Inv.insertNew (h : Inv T s (some n)) (hb : s.vvNew[b]? = some vNew) (hn : n ∉ vNew)
    (hlt : vNew.length < ADDRMAN_NEW_BUCKET_SIZE) :
    Inv T { s with vvNew := s.vvNew.modify b (setInsert n) } none :=
  { h with tables := h.tables.insert hb hn hlt }

/-- The end of `Add_`, when the entry can have another reference. -/
theorem addRef_spec (nNow : Int) (rnd : Nat → Nat) (source : CNetAddr)
    (hn : s.mapInfo[n]? = some info)
    (hcounted : Inv T (s.setInfo n { info with nRefCount := info.nRefCount + 1 }) (some n))
    (hkeep : ∀ (b : Nat) (vNew : List Int), s.vvNew[b]? = some vNew → n ∈ vNew → Inv T s none) :
    ∃ s', s.addRef nNow rnd n source = some s' ∧ Inv T s' none ∧ Drops s s' := by
  have hlt := info.getNewBucket_lt s.nKey source
  obtain ⟨vNew, hb⟩ := hcounted.tables.exists_bucket hlt
  change s.vvNew[_]? = some vNew at hb
  generalize hnb : info.getNewBucket s.nKey source = b at hb
  by_cases hmem : n ∈ vNew
  · refine ⟨s, ?_, hkeep _ vNew hb hmem, rfl, fun _ ha => ha⟩
    rw [addRef, hn]
    simp only [Option.bind_eq_bind, Option.bind_some, hnb, hb, if_pos hmem]
    rfl
  · have hsize := hcounted.tables.new_size vNew (List.mem_of_getElem? hb)
    by_cases hfull : vNew.length = ADDRMAN_NEW_BUCKET_SIZE
    · have hne : vNew ≠ [] := by
        rintro rfl
        exact absurd hfull (by decide)
      obtain ⟨s2, hcall, hs2, hdrops, m, hm, hvvNew⟩ :=
        hcounted.shrinkNew nNow rnd hb hne
      have hnodup := hcounted.tables.new_nodup vNew (List.mem_of_getElem? hb)
      have hb2 : s2.vvNew[b]? = some (vNew.erase m) := by
        rw [hvvNew, List.getElem?_modify_eq]
        change (List.erase · m) <$> s.vvNew[b]? = _
        rw [hb]
        rfl
      have hlen := List.length_erase_of_mem hm
      have hpos := List.length_pos_of_mem hm
      refine ⟨_, ?_, hs2.insertNew hb2 (fun hin => hmem (List.mem_of_mem_erase hin)) (by omega),
        hdrops.nIdCount, hdrops.unknown⟩
      rw [addRef, hn]
      simp only [Option.bind_eq_bind, Option.bind_some, hnb, hb, if_neg hmem, if_pos hfull, hcall]
      rfl
    · refine ⟨_, ?_, hcounted.insertNew hb hmem (by omega), rfl, fun _ ha => ha⟩
      rw [addRef, hn]
      simp only [Option.bind_eq_bind, Option.bind_some, hnb, hb, if_neg hmem, if_neg hfull]
      rfl

theorem Inv.countRef (h : Inv T s none) (hn : s.mapInfo[n]? = some info)
    (hf : info.fInTried = false) (hmax : info.nRefCount ≠ ADDRMAN_NEW_BUCKETS_PER_ADDRESS) :
    Inv T (s.setInfo n { info with nRefCount := info.nRefCount + 1 }) (some n) := by
  have hlisted : Listed T (s.setInfo n { info with nRefCount := info.nRefCount + 1 }) :=
    h.toListed.setInfo hn rfl rfl fun hT => by
      have := h.timed_of_eq hT hn
      exact ⟨this.nLastTry, this.nLastSuccess, this.tried⟩
  refine { hlisted with key := h.key, tables := ?_, nTried := h.nTried, size := h.size }
  have hrefs := h.refs_of_eq hn
  rw [RefsOk, if_neg (by rw [hf]; exact Bool.false_ne_true)] at hrefs
  rw [entry_setInfo]
  refine h.tables.countRef ((inTried_of_eq (entry_of_eq hn)).trans hf) ?_ hf ?_
  · rw [refCount_of_eq (entry_of_eq hn)]
    rfl
  · change info.nRefCount + 1 ≤ _
    omega

/-- The first reference of a new entry is counted. -/
theorem Inv.createRef (h : Inv T s none) (ha : s.mapAddr info.toCNetAddr = none)
    (hT : T → Timed info) (hf : info.fInTried = false) (hr : info.nRefCount = 0) :
    let s1 := { s.insertNext info with nNew := s.nNew + 1 }
    ∃ placed, s1.mapInfo[s.nIdCount]? = some placed ∧
      Inv T (s1.setInfo s.nIdCount { placed with nRefCount := placed.nRefCount + 1 })
        (some s.nIdCount) := by
  intro s1
  have hlisted1 : Listed T s1 := { h.toListed.insertNext ha hT with }
  have hentry1 : s1.entry =
    Function.update s.entry s.nIdCount (some info.unplaced) := entry_insertNext s info
  have hget : s1.mapInfo[s.nIdCount]? =
      some { info with nRandomPos := s.vRandom.length } := TreeMap.getElem?_insert_self
  refine ⟨_, hget, ?_⟩
  have hlisted2 : Listed T (s1.setInfo s.nIdCount
      { info with nRandomPos := s.vRandom.length, nRefCount := info.nRefCount + 1 }) :=
    hlisted1.setInfo hget rfl rfl fun htime => by
      have := hT htime
      exact ⟨this.nLastTry, this.nLastSuccess, this.tried⟩
  refine { hlisted2 with key := h.key, tables := ?_, nTried := h.nTried, size := ?_ }
  · rw [entry_setInfo, hentry1, Function.update_idem]
    have hfresh := h.directory.fresh
    refine h.tables.countRef ?_ ?_ hf ?_
    · rw [inTried, hfresh]
      rfl
    · rw [refCount, hfresh]
      change info.nRefCount + 1 = 0 + 1
      rw [hr]
    · change info.nRefCount + 1 ≤ _
      rw [hr]
      decide
  · have := h.size
    change s.nTried + (s.nNew + 1) = ((s.vRandom ++ [s.nIdCount]).length : Int)
    rw [List.length_append, List.length_singleton]
    omega

omit [ByteHashing] in
theorem keepsRefs_eq_false {rnd : Nat → Nat} {addr : CAddress}
    (h : keepsRefs rnd info addr = false) :
    info.fInTried = false ∧ info.nRefCount ≠ ADDRMAN_NEW_BUCKETS_PER_ADDRESS := by
  unfold keepsRefs at h
  split at h
  · cases h
  · split at h
    · cases h
    · next hf =>
      split at h
      · cases h
      · next hr => exact ⟨Bool.not_eq_true _ ▸ hf, hr⟩

/-- An unknown address gets the next id, and no other one becomes known. -/
structure Adds (s : CAddrMan) (addr : CAddress) (s' : CAddrMan) : Prop where
  nIdCount : addr.isRoutable = true → s.mapAddr addr.toCNetAddr = none →
    s'.nIdCount = s.nIdCount + 1
  unknown : ∀ a, s.mapAddr a = none → a ≠ addr.toCNetAddr → s'.mapAddr a = none

omit [ByteHashing] in
theorem Drops.adds {addr : CAddress} (h : Drops s s') (hn : s.mapAddr addr.toCNetAddr ≠ none) :
    Adds s addr s' :=
  ⟨fun _ hnone => absurd hnone hn, fun a ha _ => h.unknown a ha⟩

theorem Inv.addOne (nNow : Int) (rnd : Nat → Nat) (addr : CAddress) (source : CNetAddr)
    (nTimePenalty : Int) (h : Inv T s none) (hid : s.HasId addr) :
    ∃ r, s.addOne nNow rnd addr source nTimePenalty = some r ∧ Inv T r.1 none ∧
      Adds s addr r.1 := by
  unfold CAddrMan.addOne
  split
  · next hroutable =>
    rw [Bool.not_eq_true'] at hroutable
    exact ⟨_, rfl, h, fun htrue => absurd (hroutable.symm.trans htrue) Bool.false_ne_true,
      fun _ ha _ => ha⟩
  · next hroutable =>
    rw [Bool.not_eq_true', Bool.not_eq_false] at hroutable
    cases hfind : s.find addr.toCNetAddr with
    | some r =>
      obtain ⟨nId, found⟩ := r
      obtain ⟨hn, ha⟩ := h.find_eq_some hfind
      have hknown : s.mapAddr addr.toCNetAddr ≠ none := by
        rw [(h.directory.addr _ nId).mpr (by rw [entry_of_eq hn, ← ha]; rfl)]
        exact nofun
      dsimp only
      have hs1 : Inv T (s.setInfo nId (refresh nNow found addr nTimePenalty)) none :=
        h.setInfo hn rfl rfl rfl rfl fun hT => by
          have := h.timed_of_eq hT hn
          exact ⟨this.nLastTry, this.nLastSuccess, this.tried⟩
      have hn1 : (s.setInfo nId (refresh nNow found addr nTimePenalty)).mapInfo[nId]? =
          some (refresh nNow found addr nTimePenalty) := by
        rw [getElem?_setInfo, if_pos rfl]
      split
      · exact ⟨_, rfl, hs1, Drops.adds ⟨rfl, fun _ ha => ha⟩ hknown⟩
      · next hkeep =>
        obtain ⟨hf, hmax⟩ := keepsRefs_eq_false (Bool.not_eq_true _ ▸ hkeep)
        obtain ⟨s2, hcall, hs2, hdrops⟩ := addRef_spec nNow (fun k => rnd (k + 1)) source hn1
          (hs1.countRef hn1 hf hmax) fun _ _ _ _ => hs1
        rw [hcall]
        exact ⟨_, rfl, hs2, Drops.adds ⟨hdrops.nIdCount, hdrops.unknown⟩ hknown⟩
    | none =>
      dsimp only
      have ha := h.find_eq_none hfind
      have htimed : Timed (newInfo addr source nTimePenalty) :=
        ⟨Int64.le_refl _, Int64.le_refl _, nofun⟩
      obtain ⟨placed, hn, hcounted⟩ := h.createRef ha (fun _ => htimed) rfl rfl
      rw [createNew, create, if_pos (hid hroutable hfind), Option.map_some, Option.bind_eq_bind,
        Option.bind_some]
      obtain ⟨s2, hcall, hs2, hdrops⟩ := addRef_spec nNow (fun k => rnd (k + 1)) source hn
        hcounted fun b vNew hb hmem => by
          obtain ⟨x, hx, -⟩ := h.tables.of_mem_new hb hmem
          rw [h.directory.fresh] at hx
          cases hx
      refine ⟨(s2, true), ?_, hs2, fun _ _ => hdrops.nIdCount, fun a hnone hne => ?_⟩
      · exact Option.bind_eq_some_iff.mpr ⟨s2, hcall, rfl⟩
      · refine hdrops.unknown a ?_
        change Function.update s.mapAddr addr.toCNetAddr _ a = none
        rw [Function.update_of_ne hne, hnone]

theorem hasId_of_addOne {nNow : Int} {rnd : Nat → Nat} {addr : CAddress} {source : CNetAddr}
    {nTimePenalty : Int} {r : CAddrMan × Bool}
    (h : s.addOne nNow rnd addr source nTimePenalty = some r) : s.HasId addr := by
  intro hroutable hfind
  rw [CAddrMan.addOne, hroutable, Bool.not_true, if_neg Bool.false_ne_true, hfind, createNew, create] at h
  by_contra hrange
  rw [if_neg hrange] at h
  cases h

theorem Inv.addNext (nNow : Int) (rnd : Nat → Nat → Nat) (source : CNetAddr) (nTimePenalty : Int)
    {r : CAddrMan × Nat} {addr : CAddress × Nat} (h : Inv T r.1 none) (hid : r.1.HasId addr.1) :
    ∃ r', CAddrMan.addNext nNow rnd source nTimePenalty r addr = some r' ∧ Inv T r'.1 none ∧
      Adds r.1 addr.1 r'.1 := by
  obtain ⟨r1, hcall, hr1, hadds⟩ := h.addOne nNow (rnd addr.2) addr.1 source nTimePenalty hid
  refine ⟨(r1.1, if r1.2 then r.2 + 1 else r.2), ?_, hr1, hadds⟩
  rw [CAddrMan.addNext, hcall]
  rfl

theorem hasId_of_addNext {nNow : Int} {rnd : Nat → Nat → Nat} {source : CNetAddr}
    {nTimePenalty : Int} (r : CAddrMan × Nat) (addr : CAddress × Nat) (r' : CAddrMan × Nat)
    (h : addNext nNow rnd source nTimePenalty r addr = some r') : r.1.HasId addr.1 := by
  obtain ⟨r1, h1, -⟩ := Option.bind_eq_some_iff.mp h
  exact hasId_of_addOne h1

theorem idsLast_of_add {nNow : Int} {rnd : Nat → Nat → Nat} {vAddr : List CAddress}
    {source : CNetAddr} {nTimePenalty : Int} {r : CAddrMan × Nat}
    (h : s.add nNow rnd vAddr source nTimePenalty = some r) :
    s.IdsLast (.add nNow rnd vAddr source nTimePenalty) := by
  rw [CAddrMan.add, Run.foldlM_eq_run] at h
  exact Run.meets_of_run hasId_of_addNext h

theorem Inv.add (nNow : Int) (rnd : Nat → Nat → Nat) (vAddr : List CAddress) (source : CNetAddr)
    (nTimePenalty : Int) (h : Inv T s none)
    (hids : s.IdsLast (.add nNow rnd vAddr source nTimePenalty)) :
    ∃ r, s.add nNow rnd vAddr source nTimePenalty = some r ∧ Inv T r.1 none := by
  rw [CAddrMan.add, Run.foldlM_eq_run]
  refine Run.run_total_of_meets (P := fun r : CAddrMan × Nat => Inv T r.1 none)
    (fun r addr _ hid hr => ?_) hids h
  obtain ⟨r1, hcall, hr1, -⟩ := hr.addNext nNow rnd source nTimePenalty hid
  exact ⟨r1, hcall, hr1⟩

/-! ## `Good_` -/

/-- What the loop in `SelectTried` keeps: the bucket is in another order, and the oldest entry has
been at a position of the bucket. -/
def Inspects (vTried : List Int) (st : List Int × Option (Int × Nat)) : Prop :=
  st.1.Perm vTried ∧ ∀ oldest ∈ st.2, oldest.1 ∈ vTried ∧ oldest.2 < vTried.length

omit [ByteHashing] in
theorem inspectTried_spec (rnd : Nat → Nat) {st : List Int × Option (Int × Nat)} {i : Nat}
    (h : ∀ n ∈ vTried, ∃ info, s.mapInfo[n]? = some info) (hst : Inspects vTried st)
    (hi : i < vTried.length) :
    ∃ st', s.inspectTried rnd st i = some st' ∧ Inspects vTried st' ∧ st'.2.isSome = true := by
  obtain ⟨bucket, nOldest⟩ := st
  obtain ⟨hperm, hold⟩ := hst
  dsimp only at hperm hold
  have hlen := hperm.length_eq
  have hrand : getRandInt (rnd i) (bucket.length - i) < bucket.length - i :=
    getRandInt_lt (by omega)
  generalize hpos : getRandInt (rnd i) (bucket.length - i) + i = nPos
  have hlt : nPos < bucket.length := by omega
  have hi' : i < bucket.length := by omega
  have hmem : bucket[nPos] ∈ vTried := hperm.mem_iff.mp (List.getElem_mem hlt)
  have hperm' : ((bucket.set nPos bucket[i]).set i bucket[nPos]).Perm vTried :=
    (List.set_set_perm hlt hi').trans hperm
  have hnew : Inspects vTried
      ((bucket.set nPos bucket[i]).set i bucket[nPos], some (bucket[nPos], nPos)) := by
    refine ⟨hperm', fun oldest ho => ?_⟩
    obtain rfl := Option.some.inj ho
    exact ⟨hmem, by dsimp only; omega⟩
  rw [inspectTried]
  dsimp only
  rw [hpos, List.getElem?_eq_getElem hlt, List.getElem?_eq_getElem hi']
  simp only [Option.bind_eq_bind, Option.bind_some]
  cases nOldest with
  | none => exact ⟨_, rfl, hnew, rfl⟩
  | some oldest =>
    obtain ⟨hm, hm'⟩ := hold oldest rfl
    obtain ⟨info, hinfo⟩ := h _ hmem
    obtain ⟨infoOldest, hinfoOldest⟩ := h _ hm
    dsimp only
    rw [hinfo, hinfoOldest]
    simp only [Option.bind_some]
    split
    · exact ⟨_, rfl, hnew, rfl⟩
    · refine ⟨_, rfl, ⟨hperm', fun o ho => ?_⟩, rfl⟩
      obtain rfl := Option.some.inj ho
      exact ⟨hm, hm'⟩

omit [ByteHashing] in
/-- `SelectTried` puts the bucket in another order and returns one of its positions. -/
theorem selectTried_spec (rnd : Nat → Nat)
    (h : ∀ n ∈ vTried, ∃ info, s.mapInfo[n]? = some info) (hne : vTried ≠ []) :
    ∃ bucket nPos nOld, s.selectTried rnd vTried = some (bucket, nPos) ∧ bucket.Perm vTried ∧
      bucket[nPos]? = some nOld := by
  have hlen := List.length_pos_iff.mpr hne
  obtain ⟨k, hk⟩ : ∃ k, min ADDRMAN_TRIED_ENTRIES_INSPECT_ON_EVICT vTried.length = k + 1 := by
    have hinspect : 0 < ADDRMAN_TRIED_ENTRIES_INSPECT_ON_EVICT := by decide
    exact ⟨_, (Nat.succ_pred_eq_of_pos (by omega)).symm⟩
  have hrun : ∃ st, (List.range k).foldlM (s.inspectTried rnd) (vTried, none) = some st ∧
      Inspects vTried st := by
    rw [Run.foldlM_eq_run]
    refine Run.run_total (fun st i hi hst => ?_) ⟨.refl _, nofun⟩
    rw [List.mem_range] at hi
    obtain ⟨st', hcall, hst', -⟩ := inspectTried_spec rnd h hst (i := i) (by omega)
    exact ⟨st', hcall, hst'⟩
  obtain ⟨st, hfold, hst⟩ := hrun
  obtain ⟨st', hcall, ⟨hperm, hold⟩, hsome⟩ := inspectTried_spec rnd h hst (i := k) (by omega)
  obtain ⟨oldest, holdest⟩ := Option.isSome_iff_exists.mp hsome
  obtain ⟨-, hlt⟩ := hold oldest holdest
  rw [← hperm.length_eq] at hlt
  refine ⟨st'.1, oldest.2, st'.1[oldest.2], ?_, hperm, List.getElem?_eq_getElem hlt⟩
  rw [selectTried, hk, List.range_succ, List.foldlM_append, hfold]
  simp only [Option.bind_eq_bind, Option.bind_some, List.foldlM_cons, List.foldlM_nil, hcall,
    Option.pure_def, holdest]

/-- An entry without references comes into the tried table: the entries and the order are all right,
whatever the buckets and the counters are. -/
theorem Inv.listed_leaveNew (h : Inv T s none) (hn : s.mapInfo[n]? = some found)
    (ha : info.toCNetAddr = found.toCNetAddr) (hpos : info.nRandomPos = found.nRandomPos)
    (hT : T → Timed { info with fInTried := true }) :
    Listed T (s.leaveNew n info) ∧
      (s.leaveNew n info).entry = Function.update s.entry n (some info.unplaced) := by
  obtain ⟨s1, hs1⟩ : ∃ s1 : CAddrMan, s1 = { s with
    vvNew := s.vvNew.map (List.erase · n)
    nNew := s.nNew - 1 } := ⟨_, rfl⟩
  have hlisted : Listed T s1 := by
    rw [hs1]
    exact { h.toListed with }
  have hn1 : s1.mapInfo[n]? = some found := by
    rw [hs1]
    exact hn
  have hentry : s1.entry = s.entry := by
    rw [hs1]
    rfl
  rw [leaveNew, ← hs1, ← hentry]
  refine ⟨hlisted.setInfo hn1 ha hpos fun htime => ?_, entry_setInfo _ _ _⟩
  have := hT htime
  exact ⟨this.nLastTry, this.nLastSuccess, fun _ => this.tried rfl⟩

theorem Inv.exists_of_mem_other_tried (h : Inv T s none) (hn : s.mapInfo[n]? = some found)
    (hf : found.fInTried = false) {k : Nat} (hk : s.vvTried[k]? = some vTried) :
    ∀ m ∈ vTried, m ≠ n ∧ ∃ old, s.mapInfo[m]? = some old := by
  intro m hm
  obtain ⟨old, hold, hfold⟩ := h.exists_of_mem_tried hk hm
  refine ⟨?_, old, hold⟩
  rintro rfl
  obtain rfl := Option.some.inj (hold.symm.trans hn)
  rw [hf] at hfold
  cases hfold

/-- Once an entry has left the new buckets, either a given bucket has room or the one that the entry
was in. -/
theorem Inv.exists_room (h : Inv T s none) (hb : s.vvNew[b]? = some vNew) (hmem : n ∈ vNew)
    {bOld : Nat} {u : List Int} (hu : s.vvNew[bOld]? = some u) :
    ∃ (c : Nat) (w : List Int),
      c = (if (u.erase n).length < ADDRMAN_NEW_BUCKET_SIZE then bOld else b) ∧
        (s.vvNew.map (List.erase · n))[c]? = some w ∧ w.length < ADDRMAN_NEW_BUCKET_SIZE := by
  by_cases hlt : (u.erase n).length < ADDRMAN_NEW_BUCKET_SIZE
  · rw [if_pos hlt]
    exact ⟨_, u.erase n, rfl, by rw [List.getElem?_map, hu]; rfl, hlt⟩
  · rw [if_neg hlt]
    refine ⟨_, vNew.erase n, rfl, by rw [List.getElem?_map, hb]; rfl, ?_⟩
    have hsize := h.tables.new_size vNew (List.mem_of_getElem? hb)
    have hlen := List.length_erase_of_mem hmem
    have hpos := List.length_pos_of_mem hmem
    omega

/-- The bucket is full: another entry goes back to a new bucket. -/
theorem Inv.evict (rnd : Nat → Nat) (h : Inv T s none) (hn : s.mapInfo[n]? = some found)
    (hf : found.fInTried = false) (hservice : info.toCService = found.toCService)
    (hpos : info.nRandomPos = found.nRandomPos) (hr : info.nRefCount = 0)
    (hT : T → Timed { info with fInTried := true }) (hb : s.vvNew[b]? = some vNew) (hmem : n ∈ vNew)
    (hk : s.vvTried[info.getTriedBucket s.nKey]? = some vTried)
    (hfull : ¬ vTried.length < ADDRMAN_TRIED_BUCKET_SIZE) :
    ∃ s', (s.leaveNew n info).evict rnd info n b (info.getTriedBucket s.nKey) vTried = some s' ∧
      Inv T s' none := by
  obtain ⟨hlisted1, hentry1⟩ :=
    h.listed_leaveNew hn (congrArg CService.toCNetAddr hservice) hpos hT
  have hvvNew : (s.leaveNew n info).vvNew = s.vvNew.map (List.erase · n) := rfl
  have hvvTried : (s.leaveNew n info).vvTried = s.vvTried := rfl
  have hget1 : ∀ m, (s.leaveNew n info).mapInfo[m]? =
      if m = n then some info else s.mapInfo[m]? := fun m => getElem?_setInfo _ _ _ _
  have hnKey : (s.leaveNew n info).nKey = s.nKey := rfl
  have hnTried : (s.leaveNew n info).nTried = s.nTried := rfl
  have hnNew : (s.leaveNew n info).nNew = s.nNew - 1 := rfl
  have hvRandom : (s.leaveNew n info).vRandom = s.vRandom := rfl
  generalize hs1 : s.leaveNew n info = s1 at *
  have htried := h.exists_of_mem_other_tried hn hf hk
  have hexists : ∀ m ∈ vTried, ∃ old, s1.mapInfo[m]? = some old := by
    intro m hm
    obtain ⟨hne, old, hold⟩ := htried m hm
    exact ⟨old, by rw [hget1, if_neg hne, hold]⟩
  have hne : vTried ≠ [] := by
    rintro rfl
    exact hfull (by decide)
  obtain ⟨bucket, nPos, nOld, hselect, hperm, hold⟩ := selectTried_spec rnd hexists hne
  obtain ⟨hneOld, infoOld, hinfoOld⟩ := htried nOld (hperm.mem_iff.mp (List.mem_of_getElem? hold))
  have hgetOld : s1.mapInfo[nOld]? = some infoOld := by rw [hget1, if_neg hneOld, hinfoOld]
  -- the bucket that the evicted entry comes to has room
  obtain ⟨u, hu⟩ := h.tables.exists_bucket (infoOld.getNewBucket_lt s.nKey infoOld.source)
  obtain ⟨c, w, hc, hw, hlt⟩ := h.exists_room hb hmem hu
  obtain ⟨s3, hs3⟩ : ∃ s3, s3 = (s1.setInfo nOld { infoOld with
      fInTried := false, nRefCount := 1 }).setInfo n { info with fInTried := true } := ⟨_, rfl⟩
  have hlisted2 : Listed T (s1.setInfo nOld { infoOld with fInTried := false, nRefCount := 1 }) :=
    hlisted1.setInfo hgetOld rfl rfl fun hT => by
      have := h.timed_of_eq hT hinfoOld
      exact ⟨this.nLastTry, this.nLastSuccess, nofun⟩
  have hget2 : (s1.setInfo nOld { infoOld with fInTried := false, nRefCount := 1 }).mapInfo[n]? =
      some info := by
    rw [getElem?_setInfo, if_neg hneOld.symm, hget1, if_pos rfl]
  have hlisted3 : Listed T s3 := by
    rw [hs3]
    exact hlisted2.setInfo hget2 rfl rfl hT
  have hentry3 : s3.entry = Function.update (Function.update s.entry nOld
      (some { infoOld with fInTried := false, nRefCount := 1 }.unplaced)) n
      (some { info with fInTried := true }.unplaced) := by
    rw [hs3, entry_setInfo, entry_setInfo, hentry1, Function.update_comm hneOld.symm,
      Function.update_idem]
  obtain ⟨s4, hs4⟩ : ∃ s4 : CAddrMan, s4 = { s3 with
    vvNew := (s3.vvNew).modify c (setInsert nOld)
    nNew := s3.nNew + 1
    vvTried := s3.vvTried.set (info.getTriedBucket s.nKey) (bucket.set nPos n) } := ⟨_, rfl⟩
  have hframe : s4 = { s3 with
      nKey := s.nKey
      nTried := s.nTried
      vRandom := s.vRandom
      vvNew := (s.vvNew.map (List.erase · n)).modify c (setInsert nOld)
      nNew := s.nNew - 1 + 1
      vvTried := s.vvTried.set (info.getTriedBucket s.nKey) (bucket.set nPos n) } := by
    rw [hs4, hs3, ← hvvNew, ← hvvTried, ← hnKey, ← hnTried, ← hnNew, ← hvRandom]
    rfl
  refine ⟨s4, ?_, ?_⟩
  · rw [CAddrMan.evict, hselect]
    simp only [Option.bind_eq_bind, Option.bind_some, hold, hgetOld, hnKey, hvvNew,
      List.getElem?_map, hu, Option.map_some, ← hc, ← hs3, hs4]
    rfl
  · have hbucket : info.getTriedBucket s.nKey = found.unplaced.getTriedBucket s.nKey :=
      getTriedBucket_congr hservice
    rw [hbucket] at hk
    have hnewTried : { info with fInTried := true }.unplaced.fInTried = true := rfl
    have holdTried :
      { infoOld with fInTried := false, nRefCount := 1 }.unplaced.fInTried = false := rfl
    have htables := h.tables.promoteEvict (entry_of_eq hn) hf hnewTried hr hservice hk hperm hold
      (entry_of_eq hinfoOld) holdTried rfl rfl hw hlt
    rw [← hbucket, ← hentry3] at htables
    have hlisted4 : Listed T s4 := by
      rw [hs4]
      exact { hlisted3 with }
    have hflat : (s.vvTried.set (info.getTriedBucket s.nKey) (bucket.set nPos n)).flatten.length =
        s.vvTried.flatten.length := by
      have hlength := length_flatten_modify (fun _ => bucket.set nPos n) hk
      rw [← List.set_eq_modify, List.length_set, hperm.length_eq, ← hbucket] at hlength
      omega
    refine { hlisted4 with key := ?_, tables := ?_, nTried := ?_, size := ?_ }
    · rw [hframe]
      exact h.key
    · rw [hframe]
      exact htables
    · rw [hframe]
      dsimp only
      rw [hflat]
      exact h.nTried
    · have hsize := h.size
      rw [hframe]
      dsimp only
      omega

/-- `MakeTried` of an entry in one of the new buckets. -/
theorem Inv.makeTried (rnd : Nat → Nat) (h : Inv T s none) (hn : s.mapInfo[n]? = some found)
    (hf : found.fInTried = false) (hT : T → found.nLastSuccess ≠ 0)
    (hb : s.vvNew[b]? = some vNew) (hmem : n ∈ vNew) :
    ∃ s', s.makeTried rnd n b = some s' ∧ Inv T s' none := by
  have herased : (s.vvNew.countP fun vNew => decide (n ∈ vNew)) = found.nRefCount := by
    have hcount := h.tables.count_new n
    rw [pending_none, Int.add_zero, refCount_of_eq (entry_of_eq hn)] at hcount
    rw [countP_mem_eq_count_flatten h.tables.new_nodup, hcount]
    rfl
  obtain ⟨info, hinfo⟩ : ∃ info : CAddrInfo, info = { found with
    nRefCount := found.nRefCount - (s.vvNew.countP fun vNew => decide (n ∈ vNew)) } := ⟨_, rfl⟩
  have hzero : found.nRefCount - (s.vvNew.countP fun vNew => decide (n ∈ vNew)) = 0 := by
    rw [herased]
    exact Int.sub_self _
  have hr : info.nRefCount = 0 := by
    rw [hinfo]
    exact hzero
  have hservice : info.toCService = found.toCService := by rw [hinfo]
  have hpos : info.nRandomPos = found.nRandomPos := by rw [hinfo]
  have htimed : T → Timed { info with fInTried := true } := fun htime => by
    have := h.timed_of_eq htime hn
    rw [hinfo]
    exact ⟨this.nLastTry, this.nLastSuccess, fun _ => hT htime⟩
  have hbucket : info.getTriedBucket s.nKey = found.unplaced.getTriedBucket s.nKey :=
    getTriedBucket_congr hservice
  obtain ⟨vTried, hk⟩ := h.tables.exists_tried_bucket (info.getTriedBucket_lt s.nKey)
  have hcall : s.makeTried rnd n b =
      if vTried.length < ADDRMAN_TRIED_BUCKET_SIZE then
        some { (s.leaveNew n info).setInfo n { info with fInTried := true } with
          vvTried := s.vvTried.set (info.getTriedBucket s.nKey) (vTried ++ [n])
          nTried := s.nTried + 1 }
      else (s.leaveNew n info).evict rnd info n b (info.getTriedBucket s.nKey) vTried := by
    have hk1 : (s.leaveNew n info).vvTried[info.getTriedBucket (s.leaveNew n info).nKey]? =
      some vTried := hk
    rw [CAddrMan.makeTried, hb]
    simp only [Option.bind_eq_bind, Option.bind_some, if_neg (not_not.mpr hmem), hn, ← hinfo,
      if_neg (not_not.mpr hzero), hk1]
    rw [hinfo]
    rfl
  rw [hcall]
  split
  · next hlt =>
    obtain ⟨hlisted1, hentry1⟩ :=
      h.listed_leaveNew hn (congrArg CService.toCNetAddr hservice) hpos htimed
    have hget1 : (s.leaveNew n info).mapInfo[n]? = some info := by
      rw [leaveNew, getElem?_setInfo, if_pos rfl]
    have hlisted2 : Listed T ((s.leaveNew n info).setInfo n { info with fInTried := true }) :=
      hlisted1.setInfo hget1 rfl rfl htimed
    have hentry2 := entry_setInfo (s.leaveNew n info) n { info with fInTried := true }
    rw [hentry1, Function.update_idem] at hentry2
    rw [hbucket] at hk
    have hnewTried : { info with fInTried := true }.unplaced.fInTried = true := rfl
    have htables := h.tables.promote (entry_of_eq hn) hf hnewTried hr hservice hk hlt
    rw [← hbucket, ← hentry2] at htables
    refine ⟨_, rfl, { hlisted2 with key := h.key, tables := htables, nTried := ?_, size := ?_ }⟩
    · have hlength := length_flatten_modify (fun _ => vTried ++ [n]) hk
      rw [← List.set_eq_modify, List.length_append, List.length_singleton, ← hbucket] at hlength
      have hnTried := h.nTried
      dsimp only
      omega
    · have hsize := h.size
      change s.nTried + 1 + (s.nNew - 1) = (s.vRandom.length : Int)
      omega
  · next hfull => exact h.evict rnd hn hf hservice hpos hr htimed hb hmem hk hfull

omit [ByteHashing] in
theorem findNewBucket_eq_some {nRnd : Nat} (h : s.findNewBucket nRnd n = some b) :
    ∃ vNew, s.vvNew[b]? = some vNew ∧ n ∈ vNew := by
  rw [findNewBucket] at h
  have hmem := List.find?_some h
  rw [decide_eq_true_eq, List.getD_eq_getElem?_getD] at hmem
  cases hb : s.vvNew[b]? with
  | none =>
    rw [hb] at hmem
    cases hmem
  | some vNew =>
    rw [hb] at hmem
    exact ⟨vNew, rfl, hmem⟩

theorem Inv.good (rnd : Nat → Nat) (addr : CService) (nTime : Int64) (h : Inv T s none)
    (hT : T → 0 < nTime) : ∃ s', s.good rnd addr nTime = some s' ∧ Inv T s' none := by
  unfold CAddrMan.good
  cases hfind : s.find addr.toCNetAddr with
  | none => exact ⟨s, rfl, h⟩
  | some r =>
    obtain ⟨nId, found⟩ := r
    obtain ⟨hn, -⟩ := h.find_eq_some hfind
    dsimp only
    split
    · exact ⟨s, rfl, h⟩
    · obtain ⟨info, hinfo⟩ : ∃ info : CAddrInfo, info = { found with
        nLastSuccess := nTime
        nLastTry := nTime
        nTime := toUnsignedInt nTime.toInt
        nAttempts := 0 } := ⟨_, rfl⟩
      have hne : T → nTime ≠ 0 := fun htime heq => by
        have := hT htime
        rw [heq] at this
        exact absurd this (by decide)
      have hs1 : Inv T (s.setInfo nId info) none := by
        rw [hinfo]
        refine h.setInfo hn rfl rfl rfl rfl fun htime => ?_
        exact ⟨Int64.le_of_lt (hT htime), Int64.le_of_lt (hT htime), fun _ => hne htime⟩
      have hn1 : (s.setInfo nId info).mapInfo[nId]? = some info := by
        rw [getElem?_setInfo, if_pos rfl]
      simp only [← hinfo]
      split
      · exact ⟨_, rfl, hs1⟩
      · next hf =>
        have hf1 : info.fInTried = false := by
          rw [hinfo]
          exact Bool.not_eq_true _ ▸ hf
        cases hbucket : (s.setInfo nId info).findNewBucket
          (getRandInt (rnd 0) (s.setInfo nId info).vvNew.length) nId with
        | none => exact ⟨_, rfl, hs1⟩
        | some b =>
          obtain ⟨vNew, hb, hmem⟩ := findNewBucket_eq_some hbucket
          refine hs1.makeTried _ hn1 hf1 (fun htime => ?_) hb hmem
          rw [hinfo]
          exact hne htime

/-! ## The other operations -/

theorem Inv.updateService (addr : CService) {f : CAddrInfo → CAddrInfo} (h : Inv T s none)
    (hf : ∀ info, f info = { info with
      nTime := (f info).nTime, nLastTry := (f info).nLastTry, nAttempts := (f info).nAttempts })
    (hT : T → ∀ info : CAddrInfo, 0 ≤ info.nLastTry → 0 ≤ (f info).nLastTry) :
    Inv T (s.updateService addr f) none := by
  unfold CAddrMan.updateService
  cases hfind : s.find addr.toCNetAddr with
  | none => exact h
  | some r =>
    obtain ⟨nId, info⟩ := r
    obtain ⟨hn, -⟩ := h.find_eq_some hfind
    dsimp only
    split
    · exact h
    · refine h.setInfo hn ?_ ?_ ?_ ?_ fun htime => ?_
      · rw [hf]
      · rw [hf]
      · rw [hf]
      · rw [hf]
      · have := h.timed_of_eq htime hn
        have hLastTry := hT htime info this.nLastTry
        rw [hf]
        exact ⟨hLastTry, this.nLastSuccess, this.tried⟩

theorem Inv.attempt (addr : CService) (nTime : Int64) (h : Inv T s none) (hT : T → 0 ≤ nTime) :
    Inv T (s.attempt addr nTime) none :=
  h.updateService addr (fun _ => rfl) fun htime _ _ => hT htime

theorem Inv.connected (addr : CService) (nTime : Int64) (h : Inv T s none) :
    Inv T (s.connected addr nTime) none := by
  refine h.updateService addr (fun info => ?_) fun _ info hinfo => ?_
  · split <;> rfl
  · split
    · exact hinfo
    · exact hinfo

theorem pickRandom_spec (rnd : Nat → Nat) {r : CAddrMan × List CAddress} (h : Inv T r.1 none)
    (hlt : b < r.1.vRandom.length) :
    ∃ r', pickRandom rnd r b = some r' ∧ Inv T r'.1 none ∧
      r'.1.vRandom.length = r.1.vRandom.length := by
  have hrand : getRandInt (rnd b) (r.1.vRandom.length - b) < r.1.vRandom.length - b :=
    getRandInt_lt (by omega)
  have hlt' : getRandInt (rnd b) (r.1.vRandom.length - b) + b < r.1.vRandom.length := by omega
  obtain ⟨s1, hcall, hs1, -⟩ := swapRandom_spec h.random h.placed
    (List.getElem?_eq_getElem hlt) (List.getElem?_eq_getElem hlt')
  have hinv := h.reordered hs1
  obtain ⟨n, hget⟩ : ∃ n, s1.vRandom[b]? = some n := by
    rw [← hs1.length] at hlt
    exact ⟨_, List.getElem?_eq_getElem hlt⟩
  obtain ⟨info, hinfo⟩ := hinv.exists_of_mem hget
  refine ⟨(s1, r.2 ++ [info.toCAddress]), ?_, hinv, hs1.length⟩
  rw [pickRandom, hcall]
  simp only [Option.bind_eq_bind, Option.bind_some, hget, hinfo]
  rfl

theorem Inv.getAddr (rnd : Nat → Nat) (h : Inv T s none) :
    ∃ r, s.getAddr rnd = some r ∧ Inv T r.1 none := by
  have hrun : ∃ r, Run.run (pickRandom rnd) (s, []) (List.range
      (min (ADDRMAN_GETADDR_MAX_PCT * s.vRandom.length / 100) ADDRMAN_GETADDR_MAX)) = some r ∧
      (Inv T r.1 none ∧ r.1.vRandom.length = s.vRandom.length) := by
    refine Run.run_total (fun r n hn hr => ?_) ⟨h, rfl⟩
    obtain ⟨hinv, hlength⟩ := hr
    have hlt : n < r.1.vRandom.length := by
      rw [List.mem_range, Nat.lt_min, ADDRMAN_GETADDR_MAX_PCT] at hn
      omega
    obtain ⟨r', hcall, hr', hlength'⟩ := pickRandom_spec rnd hinv hlt
    exact ⟨r', hcall, hr', hlength'.trans hlength⟩
  obtain ⟨r, hcall, hr, -⟩ := hrun
  rw [CAddrMan.getAddr, Run.foldlM_eq_run]
  exact ⟨r, hcall, hr⟩

section

variable [DoubleArithmetic]

omit [ByteHashing] in
/-- The loop of `Select_` only comes to buckets and entries that exist. -/
theorem selectFrom_spec (nNow : Int) (rnd : Nat → Nat) {vv : List (List Int)} (hlen : 0 < vv.length)
    (h : ∀ bucket ∈ vv, ∀ n ∈ bucket, ∃ info, s.mapInfo[n]? = some info) (fuel k : Nat)
    (fChanceFactor : DoubleArithmetic.double) :
    ∃ r, s.selectFrom nNow rnd vv fuel k fChanceFactor = some r := by
  induction fuel generalizing k fChanceFactor with
  | zero => exact ⟨none, rfl⟩
  | succ fuel ih =>
    have hlt : getRandInt (rnd k) vv.length < vv.length := getRandInt_lt hlen
    have hbucket := List.getElem?_eq_getElem hlt
    generalize vv[getRandInt (rnd k) vv.length] = bucket at hbucket
    rw [selectFrom, hbucket]
    simp only [Option.bind_eq_bind, Option.bind_some]
    split
    · exact ih _ _
    · next hne =>
      have hlt' : getRandInt (rnd (k + 1)) bucket.length < bucket.length :=
        getRandInt_lt (Nat.pos_of_ne_zero hne)
      have hget := List.getElem?_eq_getElem hlt'
      obtain ⟨info, hinfo⟩ := h bucket (List.mem_of_getElem? hbucket) _ (List.getElem_mem hlt')
      simp only [hget, Option.bind_some, hinfo]
      split
      · exact ⟨_, rfl⟩
      · exact ih _ _

theorem Inv.select (nNow : Int) (rnd : Nat → Nat) (fuel : Nat) (nUnkBias : Int)
    (h : Inv T s none) : ∃ r, s.select nNow rnd fuel nUnkBias = some r := by
  have htried : ∀ bucket ∈ s.vvTried, ∀ n ∈ bucket, ∃ info, s.mapInfo[n]? = some info := by
    intro bucket hbucket n hn
    obtain ⟨b, hb⟩ := List.mem_iff_getElem?.mp hbucket
    obtain ⟨info, hinfo, -⟩ := h.exists_of_mem_tried hb hn
    exact ⟨info, hinfo⟩
  have hnew : ∀ bucket ∈ s.vvNew, ∀ n ∈ bucket, ∃ info, s.mapInfo[n]? = some info := by
    intro bucket hbucket n hn
    obtain ⟨b, hb⟩ := List.mem_iff_getElem?.mp hbucket
    obtain ⟨info, hinfo, -⟩ := h.exists_of_mem_new hb hn
    exact ⟨info, hinfo⟩
  have hlenTried : 0 < s.vvTried.length := by
    rw [h.tables.tried_length]
    decide
  have hlenNew : 0 < s.vvNew.length := by
    rw [h.tables.new_length]
    decide
  unfold CAddrMan.select
  split
  · exact ⟨_, rfl⟩
  · dsimp only
    split
    · obtain ⟨r, hr⟩ := selectFrom_spec nNow rnd hlenTried htried fuel 1
        (DoubleArithmetic.ofDecimal 1.0)
      rw [hr]
      exact ⟨_, rfl⟩
    · obtain ⟨r, hr⟩ := selectFrom_spec nNow rnd hlenNew hnew fuel 1
        (DoubleArithmetic.ofDecimal 1.0)
      rw [hr]
      exact ⟨_, rfl⟩

end

end CAddrMan

end Terracoin
