import Terracoin.Lib.Index
import Terracoin.Net.AddrManOps

/-!
# Runs of the address manager

In every state that a run from the empty manager reaches the entries, the two indexes, the buckets
and the counters agree (`Consistent`), and `Check_` finds no error (`check_eq_ok`).
-/

namespace Terracoin

open Std (TreeMap)
open Checked (Int32Range)
open Positions AddrTables Buckets

namespace CAddrMan

/-! ## What the invariant says -/

/-- `mapInfo`, `mapAddr` and `vRandom` describe the same entries; an entry is in one tried bucket, or
in as many new buckets as it has references; the counters count the entries, and no bucket has more
than its size. -/
structure Consistent (s : CAddrMan) : Prop where
  addr : ∀ (a : CNetAddr) (n : Int), s.mapAddr a = some n ↔
    ∃ info, s.mapInfo[n]? = some info ∧ info.toCNetAddr = a
  random : ∀ (i : Nat) (n : Int), s.vRandom[i]? = some n ↔
    ∃ info, s.mapInfo[n]? = some info ∧ info.nRandomPos = i
  tried : ∀ (n : Int) (info : CAddrInfo), s.mapInfo[n]? = some info → info.fInTried = true →
    info.nRefCount = 0 ∧ s.vvTried.flatten.count n = 1 ∧ n ∉ s.vvNew.flatten
  new : ∀ (n : Int) (info : CAddrInfo), s.mapInfo[n]? = some info → info.fInTried = false →
    1 ≤ info.nRefCount ∧ info.nRefCount ≤ ADDRMAN_NEW_BUCKETS_PER_ADDRESS ∧
      s.vvNew.countP (fun vNew => decide (n ∈ vNew)) = info.nRefCount ∧ n ∉ s.vvTried.flatten
  known : ∀ n ∈ s.vvTried.flatten ++ s.vvNew.flatten, ∃ info, s.mapInfo[n]? = some info
  set : ∀ vNew ∈ s.vvNew, vNew.Nodup
  nTried : s.nTried = s.mapInfo.toList.countP fun entry => entry.2.fInTried
  nNew : s.nNew = s.mapInfo.toList.countP fun entry => !entry.2.fInTried
  tried_size : ∀ vTried ∈ s.vvTried, vTried.length ≤ ADDRMAN_TRIED_BUCKET_SIZE
  new_size : ∀ vNew ∈ s.vvNew, vNew.length ≤ ADDRMAN_NEW_BUCKET_SIZE

variable [ByteHashing] {T : Prop} {s s' : CAddrMan} {n m : Int} {info found : CAddrInfo}

namespace Inv

theorem keys_perm (h : Inv T s none) : s.mapInfo.keys.Perm s.vRandom := by
  refine (List.perm_ext_iff_of_nodup TreeMap.nodup_keys h.random.nodup).mpr fun n => ?_
  rw [TreeMap.mem_keys, h.random.mem_iff, pos, Option.isSome_map, TreeMap.isSome_getElem?_iff_mem]

theorem length_toList (h : Inv T s none) : s.mapInfo.toList.length = s.vRandom.length := by
  rw [TreeMap.length_toList, ← TreeMap.length_keys, h.keys_perm.length_eq]

/-- The ids in the tried buckets are those of the tried entries. -/
theorem tried_perm (h : Inv T s none) : s.vvTried.flatten.Perm
    ((s.mapInfo.toList.filter fun entry => entry.2.fInTried).map Prod.fst) := by
  have hnodup : ((s.mapInfo.toList.filter fun entry => entry.2.fInTried).map Prod.fst).Nodup := by
    refine List.Nodup.sublist (List.Sublist.map _ List.filter_sublist) ?_
    exact Index.nodup_map_fst_toList _
  refine (List.perm_ext_iff_of_nodup h.tables.nodup hnodup).mpr fun n => ?_
  simp only [List.mem_map, List.mem_filter, Prod.exists, TreeMap.mem_toList_iff_getElem?_eq_some]
  constructor
  · intro hn
    obtain ⟨b, vTried, hb, hmem⟩ := mem_flatten_iff.mp hn
    obtain ⟨info, hinfo, hf⟩ := h.exists_of_mem_tried hb hmem
    exact ⟨n, info, ⟨hinfo, hf⟩, rfl⟩
  · rintro ⟨k, info, ⟨hinfo, hf⟩, rfl⟩
    refine List.count_pos_iff.mp ?_
    rw [h.tables.count_tried, inTried_of_eq (entry_of_eq hinfo)]
    change 0 < if info.fInTried = true then 1 else 0
    rw [if_pos hf]
    exact Nat.zero_lt_one

theorem nTried_eq (h : Inv T s none) :
    s.nTried = s.mapInfo.toList.countP fun entry => entry.2.fInTried := by
  rw [h.nTried, h.tried_perm.length_eq, List.length_map, List.countP_eq_length_filter]

theorem nNew_eq (h : Inv T s none) :
    s.nNew = s.mapInfo.toList.countP fun entry => !entry.2.fInTried := by
  have hlength := List.length_eq_countP_add_countP (fun entry : Int × CAddrInfo => entry.2.fInTried)
    (l := s.mapInfo.toList)
  have hsize := h.size
  rw [h.nTried_eq, ← h.length_toList] at hsize
  simp only [Bool.not_eq_true, Bool.decide_eq_false] at hlength
  omega

theorem consistent (h : Inv T s none) : s.Consistent where
  addr a n := by
    rw [h.directory.addr, entry, Option.map_map, Option.map_eq_some_iff]
    rfl
  random i n := by
    rw [h.random i n, pos, Option.map_eq_some_iff]
    refine exists_congr fun info => and_congr_right fun hinfo => ?_
    have := h.placed n info hinfo
    omega
  tried n info hinfo hf := by
    have hrefs := h.refs_of_eq hinfo
    have hcount := h.tables.count_tried n
    have hnew := h.tables.count_new n
    rw [RefsOk, if_pos hf] at hrefs
    rw [inTried_of_eq (entry_of_eq hinfo)] at hcount
    rw [pending_none, refCount_of_eq (entry_of_eq hinfo)] at hnew
    change _ = info.nRefCount at hnew
    change _ = if info.fInTried = true then 1 else 0 at hcount
    rw [if_pos hf] at hcount
    exact ⟨hrefs, hcount, List.count_eq_zero.mp (by omega)⟩
  new n info hinfo hf := by
    have hrefs := h.refs_of_eq hinfo
    have hcount := h.tables.count_tried n
    have hnew := h.tables.count_new n
    have hff : ¬ info.fInTried = true := by
      rw [hf]
      exact Bool.false_ne_true
    rw [RefsOk, if_neg hff] at hrefs
    rw [inTried_of_eq (entry_of_eq hinfo)] at hcount
    rw [pending_none, refCount_of_eq (entry_of_eq hinfo)] at hnew
    change _ = info.nRefCount at hnew
    change _ = if info.fInTried = true then 1 else 0 at hcount
    rw [if_neg hff] at hcount
    refine ⟨hrefs.1, hrefs.2, ?_, List.count_eq_zero.mp hcount⟩
    rw [countP_mem_eq_count_flatten h.tables.new_nodup]
    omega
  known n hn := by
    rcases List.mem_append.mp hn with hn | hn
    · obtain ⟨b, vTried, hb, hmem⟩ := mem_flatten_iff.mp hn
      obtain ⟨info, hinfo, -⟩ := h.exists_of_mem_tried hb hmem
      exact ⟨info, hinfo⟩
    · obtain ⟨b, vNew, hb, hmem⟩ := mem_flatten_iff.mp hn
      obtain ⟨info, hinfo, -⟩ := h.exists_of_mem_new hb hmem
      exact ⟨info, hinfo⟩
  set := h.tables.new_nodup
  nTried := h.nTried_eq
  nNew := h.nNew_eq
  tried_size := h.tables.tried_size
  new_size := h.tables.new_size

end Inv

/-! ## `Check_` -/

/-- What the first loop of `Check_` notes about an entry. -/
def noteEntry (st : List Int × TreeMap Int Int) (entry : Int × CAddrInfo) :
    List Int × TreeMap Int Int :=
  if entry.2.fInTried then (setInsert entry.1 st.1, st.2)
  else (st.1, st.2.insert entry.1 entry.2.nRefCount)

theorem checkEntry_eq (h : Inv True s none) (hn : s.mapInfo[n]? = some info)
    (st : List Int × TreeMap Int Int) : s.checkEntry st (n, info) = .ok (noteEntry st (n, info)) := by
  have hrefs := h.refs_of_eq hn
  obtain ⟨hLastTry, hLastSuccess, htried⟩ := h.timed_of_eq trivial hn
  have haddr : s.mapAddr info.toCNetAddr = some n :=
    (h.consistent.addr _ n).mpr ⟨info, hn, rfl⟩
  have hplaced := h.placed n info hn
  have hpos : s.vRandom[info.nRandomPos.toNat]? = some n :=
    (h.consistent.random _ n).mpr ⟨info, hn, (Int.toNat_of_nonneg hplaced).symm⟩
  have hlt := (List.getElem?_eq_some_iff.mp hpos).1
  have hrandom : ¬ (info.nRandomPos < 0 ∨ (s.vRandom.length : Int) ≤ info.nRandomPos ∨
      s.vRandom[info.nRandomPos.toNat]? ≠ some n) := by
    rintro (hneg | hlen | hne)
    · omega
    · omega
    · exact hne hpos
  have hmapAddr : ¬ (s.mapAddr info.toCNetAddr).getD 0 ≠ n := by
    rw [haddr]
    exact not_not.mpr rfl
  rw [checkEntry, noteEntry]
  cases hf : info.fInTried with
  | true =>
    rw [RefsOk, if_pos hf] at hrefs
    simp only [if_true, if_neg (htried hf), if_neg (not_not.mpr hrefs), pure_bind,
      if_neg hmapAddr, if_neg hrandom, if_neg (Int64.not_lt.mpr hLastTry),
      if_neg (Int64.not_lt.mpr hLastSuccess)]
    rfl
  | false =>
    rw [RefsOk, if_neg (by rw [hf]; exact Bool.false_ne_true)] at hrefs
    have hrange : ¬ (info.nRefCount < 0 ∨ ADDRMAN_NEW_BUCKETS_PER_ADDRESS < info.nRefCount) := by
      omega
    have hzero : ¬ info.nRefCount = 0 := by omega
    simp only [Bool.false_eq_true, if_false, if_neg hrange, if_neg hzero, pure_bind,
      if_neg hmapAddr, if_neg hrandom, if_neg (Int64.not_lt.mpr hLastTry),
      if_neg (Int64.not_lt.mpr hLastSuccess)]
    rfl

omit [ByteHashing] in
/-- `setTried` gets the tried ids, `mapNew` the other ones with their references. -/
theorem foldl_noteEntry {l : List (Int × CAddrInfo)} (hnodup : (l.map Prod.fst).Nodup)
    {st : List Int × TreeMap Int Int} (hst : ∀ n ∈ l.map Prod.fst, n ∉ st.1 ∧ n ∉ st.2) :
    (l.foldl noteEntry st).1.Perm
        (st.1 ++ (l.filter fun entry => entry.2.fInTried).map Prod.fst) ∧
      (l.foldl noteEntry st).2.size = st.2.size + l.countP (fun entry => !entry.2.fInTried) ∧
      ∀ (n v : Int), (l.foldl noteEntry st).2[n]? = some v ↔
        (∃ info, (n, info) ∈ l ∧ info.fInTried = false ∧ info.nRefCount = v) ∨
          st.2[n]? = some v := by
  induction l generalizing st with
  | nil => exact ⟨by simp, rfl, fun n v => by simp⟩
  | cons entry l ih =>
    obtain ⟨k, info⟩ := entry
    rw [List.map_cons, List.nodup_cons] at hnodup
    obtain ⟨hk1, hk2⟩ := hst k List.mem_cons_self
    have hrest : ∀ n ∈ l.map Prod.fst, n ≠ k ∧ n ∉ st.1 ∧ n ∉ st.2 := fun n hn =>
      ⟨fun hnk => hnodup.1 (hnk ▸ hn), hst n (List.mem_cons_of_mem _ hn)⟩
    rw [List.foldl_cons]
    cases hf : info.fInTried with
    | true =>
      have hnote : noteEntry st (k, info) = (setInsert k st.1, st.2) := if_pos hf
      rw [hnote]
      have hst1 : ∀ n ∈ l.map Prod.fst, n ∉ (setInsert k st.1, st.2).1 ∧
          n ∉ (setInsert k st.1, st.2).2 := fun n hn => by
        obtain ⟨hne, hn1, hn2⟩ := hrest n hn
        exact ⟨fun hmem => (mem_setInsert.mp hmem).elim hne hn1, hn2⟩
      obtain ⟨hperm, hsize, hget⟩ := ih hnodup.2 hst1
      refine ⟨hperm.trans ?_, ?_, fun n v => ?_⟩
      · rw [List.filter_cons_of_pos (a := (k, info)) hf, List.map_cons]
        exact ((setInsert_perm hk1).append_right _).trans List.perm_middle.symm
      · rw [hsize, List.countP_cons_of_neg (by simp [hf])]
      · rw [hget n v]
        refine or_congr_left ⟨?_, ?_⟩
        · rintro ⟨x, hx, hxf, hxr⟩
          exact ⟨x, List.mem_cons_of_mem _ hx, hxf, hxr⟩
        · rintro ⟨x, hx, hxf, hxr⟩
          rcases List.mem_cons.mp hx with heq | hx
          · obtain ⟨-, rfl⟩ := Prod.mk.inj heq
            rw [hf] at hxf
            cases hxf
          · exact ⟨x, hx, hxf, hxr⟩
    | false =>
      have hnote : noteEntry st (k, info) = (st.1, st.2.insert k info.nRefCount) :=
        if_neg (by rw [hf]; exact Bool.false_ne_true)
      rw [hnote]
      have hst1 : ∀ n ∈ l.map Prod.fst, n ∉ (st.1, st.2.insert k info.nRefCount).1 ∧
          n ∉ (st.1, st.2.insert k info.nRefCount).2 := fun n hn => by
        obtain ⟨hne, hn1, hn2⟩ := hrest n hn
        refine ⟨hn1, fun hmem => ?_⟩
        rw [TreeMap.mem_insert, Std.compare_eq_iff_eq] at hmem
        exact hmem.elim (fun heq => hne heq.symm) hn2
      obtain ⟨hperm, hsize, hget⟩ := ih hnodup.2 hst1
      refine ⟨?_, ?_, fun n v => ?_⟩
      · rwa [List.filter_cons_of_neg (by simp [hf])]
      · rw [hsize, TreeMap.size_insert, if_neg (mt TreeMap.contains_iff_mem.mp hk2), List.countP_cons_of_pos (by simp [hf])]
        omega
      · rw [hget n v, TreeMap.getElem?_insert]
        simp only [Std.compare_eq_iff_eq]
        have hnone : st.2[k]? = none := TreeMap.getElem?_eq_none hk2
        by_cases hkn : k = n
        · subst hkn
          rw [if_pos rfl, hnone, Option.some.injEq]
          constructor
          · rintro (⟨x, hx, hxf, hxr⟩ | hv)
            · exact .inl ⟨x, List.mem_cons_of_mem _ hx, hxf, hxr⟩
            · exact .inl ⟨info, List.mem_cons_self, hf, hv⟩
          · rintro (⟨x, hx, hxf, hxr⟩ | hv)
            · rcases List.mem_cons.mp hx with heq | hx
              · obtain ⟨-, rfl⟩ := Prod.mk.inj heq
                exact .inr hxr
              · exact .inl ⟨x, hx, hxf, hxr⟩
            · cases hv
        · rw [if_neg hkn]
          refine or_congr_left ⟨?_, ?_⟩
          · rintro ⟨x, hx, hxf, hxr⟩
            exact ⟨x, List.mem_cons_of_mem _ hx, hxf, hxr⟩
          · rintro ⟨x, hx, hxf, hxr⟩
            rcases List.mem_cons.mp hx with heq | hx
            · exact absurd (Prod.mk.inj heq).1.symm hkn
            · exact ⟨x, hx, hxf, hxr⟩

omit [ByteHashing] in
theorem checkTried_spec {setTried l : List Int} (h : setTried.Perm l) :
    l.foldlM checkTried setTried = .ok [] := by
  induction l generalizing setTried with
  | nil =>
    rw [List.Perm.eq_nil h]
    rfl
  | cons n l ih =>
    have hmem : n ∈ setTried := h.mem_iff.mpr List.mem_cons_self
    have herase : (setTried.erase n).Perm l := by
      have := h.erase n
      rwa [List.erase_cons_head] at this
    rw [List.foldlM_cons, checkTried, if_neg (not_not.mpr hmem)]
    exact ih herase

omit [ByteHashing] in
/-- `mapNew` loses the references that the new buckets have. -/
theorem checkNew_spec {mapNew : TreeMap Int Int} {l : List Int}
    (h : ∀ n : Int, mapNew[n]? = if l.count n = 0 then none else some (l.count n : Int)) :
    ∃ mapNew', l.foldlM checkNew mapNew = .ok mapNew' ∧ mapNew'.size = 0 := by
  induction l generalizing mapNew with
  | nil =>
    refine ⟨mapNew, rfl, ?_⟩
    have hempty : mapNew.isEmpty = true := TreeMap.isEmpty_iff_forall_not_mem.mpr fun n hn => by
      rw [← TreeMap.isSome_getElem?_iff_mem, h] at hn
      simp at hn
    rwa [TreeMap.isEmpty_eq_size_eq_zero, beq_iff_eq] at hempty
  | cons a l ih =>
    have ha := h a
    rw [List.count_cons_self, if_neg (Nat.succ_ne_zero _)] at ha
    rw [List.foldlM_cons, checkNew, ha]
    refine ih fun n => ?_
    have hn := h n
    by_cases hna : n = a
    · subst hna
      split
      · next hzero =>
        rw [TreeMap.getElem?_erase_self, if_pos (by omega)]
      · next hzero =>
        rw [TreeMap.getElem?_insert_self, if_neg (by omega)]
        exact congrArg some (by omega)
    · rw [List.count_cons_of_ne (Ne.symm hna)] at hn
      have hcmp : ¬ compare a n = .eq := fun heq =>
        hna (Std.LawfulEqOrd.eq_of_compare heq).symm
      split
      · rw [TreeMap.getElem?_erase, if_neg hcmp, hn]
      · rw [TreeMap.getElem?_insert, if_neg hcmp, hn]

/-- The invariant has all that `Check_` tests. -/
theorem Inv.check_eq_ok (h : Inv True s none) : s.check = .ok () := by
  have hentries : ∀ (l : List (Int × CAddrInfo)) (st : List Int × TreeMap Int Int),
      (∀ entry ∈ l, s.mapInfo[entry.1]? = some entry.2) →
      l.foldlM s.checkEntry st = .ok (l.foldl noteEntry st) := by
    intro l
    induction l with
    | nil => exact fun st _ => rfl
    | cons entry l ih =>
      intro st hl
      rw [List.foldlM_cons, checkEntry_eq h (hl entry List.mem_cons_self) st, List.foldl_cons]
      exact ih _ fun x hx => hl x (List.mem_cons_of_mem _ hx)
  have hget : ∀ entry ∈ s.mapInfo.toList, s.mapInfo[entry.1]? = some entry.2 := fun entry hentry =>
    TreeMap.mem_toList_iff_getElem?_eq_some.mp hentry
  have hnodup := Index.nodup_map_fst_toList s.mapInfo
  have hstart : ∀ n ∈ s.mapInfo.toList.map Prod.fst, n ∉ (([], ∅) : List Int × TreeMap Int Int).1 ∧
      n ∉ (([], ∅) : List Int × TreeMap Int Int).2 :=
    fun n _ => ⟨List.not_mem_nil, TreeMap.not_mem_emptyc⟩
  obtain ⟨hperm, hnewSize, hmapNew⟩ := foldl_noteEntry hnodup hstart
  have hfold := hentries s.mapInfo.toList ([], ∅) hget
  generalize s.mapInfo.toList.foldl noteEntry ([], ∅) = st at hperm hnewSize hmapNew hfold
  have htried : st.1.Perm s.vvTried.flatten := hperm.trans h.tried_perm.symm
  have hnew : ∀ n : Int, st.2[n]? =
      if s.vvNew.flatten.count n = 0 then none else some (s.vvNew.flatten.count n : Int) := by
    intro n
    have hcount := h.tables.count_new n
    rw [pending_none, Int.add_zero] at hcount
    refine Option.ext fun v => (hmapNew n v).trans ?_
    rw [TreeMap.getElem?_emptyc, or_iff_left nofun]
    constructor
    · rintro ⟨info, hinfo, hf, rfl⟩
      have hinfo' := TreeMap.mem_toList_iff_getElem?_eq_some.mp hinfo
      obtain ⟨hpos, -, -⟩ := h.consistent.new n info hinfo' hf
      rw [refCount_of_eq (entry_of_eq hinfo')] at hcount
      change _ = info.nRefCount at hcount
      rw [if_neg (by omega), hcount]
    · intro hv
      split at hv
      · cases hv
      · next hne =>
        obtain rfl := Option.some.inj hv
        obtain ⟨b, vNew, hb, hmem⟩ :=
          mem_flatten_iff.mp (List.count_pos_iff.mp (Nat.pos_of_ne_zero hne))
        obtain ⟨info, hinfo, hf⟩ := h.exists_of_mem_new hb hmem
        rw [refCount_of_eq (entry_of_eq hinfo)] at hcount
        exact ⟨info, TreeMap.mem_toList_iff_getElem?_eq_some.mpr hinfo, hf, hcount.symm⟩
  obtain ⟨mapNew, hcheckNew, hempty⟩ := checkNew_spec hnew
  have hsize : ¬ (s.vRandom.length : Int) ≠ s.nTried + s.nNew := not_not.mpr h.size.symm
  have hsetTried : ¬ (st.1.length : Int) ≠ s.nTried := by
    rw [htried.length_eq, h.nTried]
    exact not_not.mpr rfl
  have hnNew : ¬ (st.2.size : Int) ≠ s.nNew := by
    rw [hnewSize, h.nNew_eq, TreeMap.size_emptyc, Nat.zero_add]
    exact not_not.mpr rfl
  rw [check, if_neg hsize, hfold]
  simp only [bind, Except.bind, if_neg hsetTried, if_neg hnNew,
    checkTried_spec htried, hcheckNew, hempty]
  rfl

/-! ## Runs -/

theorem Inv.init (nKey : Bytes 32) : Inv T (init nKey) none := by
  have hentry := entry_of_isEmpty (s := CAddrMan.init nKey) rfl
  have hlisted : Listed T (CAddrMan.init nKey) := .of_isEmpty rfl rfl rfl
  refine { hlisted with key := nKey.2, tables := ?_, nTried := ?_, size := rfl }
  · rw [hentry]
    exact { NewTable.replicate fun _ => rfl, TriedTable.replicate fun _ => rfl with refs := nofun }
  · rw [CAddrMan.init, List.flatten_replicate_nil]
    rfl

end CAddrMan

/-- A call gets the time of a clock: `GetAdjustedTime()` for `Good` and `Attempt`. -/
def AddrManOp.Clocked : AddrManOp → Prop
  | .good _ _ nTime => 0 < nTime
  | .attempt _ nTime => 0 ≤ nTime
  | _ => True

namespace CAddrMan

variable [ByteHashing] [DoubleArithmetic] {T : Prop} {s : CAddrMan}

/-- Every call succeeds in a state with the invariant and keeps it, if the ids last. -/
theorem Inv.step (op : AddrManOp) (h : Inv T s none) (hids : s.IdsLast op) (hT : T → op.Clocked) :
    ∃ s', s.step op = some s' ∧ Inv T s' none := by
  cases op with
  | add nNow rnd vAddr source nTimePenalty =>
    obtain ⟨r, hcall, hr⟩ := h.add nNow rnd vAddr source nTimePenalty hids
    exact ⟨r.1, by rw [CAddrMan.step, hcall]; rfl, hr⟩
  | good rnd addr nTime => exact h.good rnd addr nTime hT
  | attempt addr nTime => exact ⟨_, rfl, h.attempt addr nTime hT⟩
  | connected addr nTime => exact ⟨_, rfl, h.connected addr nTime⟩
  | select nNow rnd fuel nUnkBias =>
    obtain ⟨r, hcall⟩ := h.select nNow rnd fuel nUnkBias
    exact ⟨s, by rw [CAddrMan.step, hcall]; rfl, h⟩
  | getAddr rnd =>
    obtain ⟨r, hcall, hr⟩ := h.getAddr rnd
    exact ⟨r.1, by rw [CAddrMan.step, hcall]; rfl, hr⟩

theorem idsLast_of_step (s : CAddrMan) (op : AddrManOp) (s' : CAddrMan) (h : s.step op = some s') :
    s.IdsLast op := by
  cases op with
  | add nNow rnd vAddr source nTimePenalty =>
    obtain ⟨r, hr, -⟩ := Option.map_eq_some_iff.mp h
    exact idsLast_of_add hr
  | _ => trivial

/-- A run from the empty manager goes through exactly as long as the ids last, whatever the key, the
calls and the random numbers are. Then no assertion fails, and afterwards its four structures agree;
`Check_` says so, given that the times were those of a clock. -/
theorem run_consistent_iff (nKey : Bytes 32) (ops : List AddrManOp) :
    (∃ s, Run.run CAddrMan.step (CAddrMan.init nKey) ops = some s ∧ s.Consistent ∧
      ((∀ op ∈ ops, op.Clocked) → s.check = .ok ())) ↔
        Run.Meets IdsLast CAddrMan.step (CAddrMan.init nKey) ops := by
  constructor
  · rintro ⟨s, hrun, -⟩
    exact Run.meets_of_run idsLast_of_step hrun
  · intro hids
    obtain ⟨s, hrun, hs⟩ := Run.run_total_of_meets
      (P := fun s => Inv (∀ op ∈ ops, op.Clocked) s none)
      (fun _ op hop hid h => h.step op hid fun hclocked => hclocked op hop) hids (.init nKey)
    refine ⟨s, hrun, hs.consistent, fun hclocked => ?_⟩
    have hinv : Inv True s none :=
      { hs with timed := fun _ => hs.timed hclocked }
    exact hinv.check_eq_ok

omit [DoubleArithmetic] in
/-- Unknown addresses, all of them different, get an id each. -/
theorem nIdCount_of_run {nNow : Int} {rnd : Nat → Nat → Nat} {source : CNetAddr} {nTimePenalty : Int}
    {vAddr : List (CAddress × Nat)} {r r' : CAddrMan × Nat} (hs : Inv T r.1 none)
    (hrange : Int32Range r.1.nIdCount) (hroutable : ∀ addr ∈ vAddr, addr.1.isRoutable = true)
    (hdistinct : ((vAddr.map Prod.fst).map fun addr => addr.toCNetAddr).Nodup)
    (hunknown : ∀ addr ∈ vAddr, r.1.mapAddr addr.1.toCNetAddr = none)
    (h : Run.run (addNext nNow rnd source nTimePenalty) r vAddr = some r') :
    Int32Range r'.1.nIdCount ∧ r'.1.nIdCount = r.1.nIdCount + vAddr.length := by
  induction vAddr generalizing r with
  | nil =>
    obtain rfl := Option.some.inj h
    exact ⟨hrange, (Int.add_zero _).symm⟩
  | cons addr vAddr ih =>
    obtain ⟨r1, h1, h2⟩ := Run.run_cons.mp h
    obtain ⟨hr, hroutable⟩ := List.forall_mem_cons.mp hroutable
    obtain ⟨hu, hunknown⟩ := List.forall_mem_cons.mp hunknown
    obtain ⟨hnotMem, hdistinct⟩ := List.nodup_cons.mp hdistinct
    have hid := hasId_of_addNext r addr r1 h1
    obtain ⟨r1', h1', hs1, hadds⟩ := hs.addNext nNow rnd source nTimePenalty hid
    obtain rfl := Option.some.inj (h1.symm.trans h1')
    have hcount := hadds.nIdCount hr hu
    have hfind : r.1.find addr.1.toCNetAddr = none := by
      rw [find, hu]
      rfl
    have hrange1 : Int32Range r1.1.nIdCount := hcount ▸ hid hr hfind
    have hunknown1 : ∀ other ∈ vAddr, r1.1.mapAddr other.1.toCNetAddr = none := fun other hother =>
      hadds.unknown _ (hunknown other hother) fun heq => hnotMem (List.mem_map.mpr
        ⟨other.1, List.mem_map_of_mem hother, heq⟩)
    obtain ⟨hlast, hsum⟩ := ih hs1 hrange1 hroutable hdistinct hunknown1 h2
    refine ⟨hlast, ?_⟩
    rw [hsum, hcount, List.length_cons]
    omega

end CAddrMan

namespace IdSample

open CAddrMan

scoped instance hashing : ByteHashing := ⟨fun _ => 0⟩

scoped instance arithmetic : DoubleArithmetic where
  double := Unit
  ofDecimal _ := ()
  ofInt _ := ()
  sqrt _ := ()
  add _ _ := ()
  sub _ _ := ()
  mul _ _ := ()
  div _ _ := ()
  lt _ _ := true

/-- The address that ends with the four bytes of a number. -/
def address (n : Nat) : CAddress :=
  ⟨⟨⟨⟨0x26 :: List.replicate 11 0 ++ littleEndian 4 n, by
    rw [List.length_append, length_littleEndian]
    rfl⟩⟩, 13333⟩, 1, 1700000000, 0⟩

theorem isRoutable_address (n : Nat) : (address n).isRoutable = true := by
  have hbits : (38 : UInt8) &&& 254 ≠ 252 := by decide
  simp [CNetAddr.isRoutable, CNetAddr.isValid, CNetAddr.isRFC1918, CNetAddr.isRFC3927,
    CNetAddr.isRFC4862, CNetAddr.isRFC4193, CNetAddr.isRFC4843, CNetAddr.isLocal,
    CNetAddr.isRFC3849, CNetAddr.isIPv4, CNetAddr.startsWith, CNetAddr.getByte, address, pchIPv4,
    littleEndian, hbits]

theorem address_injective {m n : Nat} (hm : m < 2 ^ 31) (hn : n < 2 ^ 31)
    (h : (address m).toCNetAddr = (address n).toCNetAddr) : m = n := by
  have hbytes : 0x26 :: List.replicate 11 0 ++ littleEndian 4 m =
      0x26 :: List.replicate 11 0 ++ littleEndian 4 n :=
    congrArg (fun a : CNetAddr => a.ip.1) h
  have hm' := decodes_littleEndian (k := 4) (n := m) (by omega) []
  have hn' := decodes_littleEndian (k := 4) (n := n) (by omega) []
  rw [List.append_cancel_left hbytes, hn'] at hm'
  exact (congrArg Prod.fst (Option.some.inj hm')).symm

def nKey : Bytes 32 := ⟨List.replicate 32 0, rfl⟩

/-- The first `n` of the addresses in one call. -/
def addMany (n : Nat) : AddrManOp :=
  .add 1700000000 (fun _ _ => 0) ((List.range n).map address) (address 0).toCNetAddr 0

theorem nIdCount_addMany {n : Nat} (hn : n ≤ 2 ^ 31) {s : CAddrMan}
    (h : (init nKey).step (addMany n) = some s) : Int32Range s.nIdCount ∧ s.nIdCount = n := by
  obtain ⟨r, hadd, rfl⟩ := Option.map_eq_some_iff.mp h
  rw [CAddrMan.add, Run.foldlM_eq_run] at hadd
  have hinit : Inv True (init nKey) none := .init nKey
  have hdistinct : ((((List.range n).map address).zipIdx.map Prod.fst).map
      fun addr => addr.toCNetAddr).Nodup := by
    rw [List.zipIdx_map_fst, List.map_map]
    refine List.Nodup.map_on (fun k hk m hm heq => ?_) List.nodup_range
    rw [List.mem_range] at hk hm
    exact address_injective (hk.trans_le hn) (hm.trans_le hn) heq
  have hroutable : ∀ addr ∈ ((List.range n).map address).zipIdx, addr.1.isRoutable = true := by
    intro addr haddr
    obtain ⟨k, -, hk⟩ := List.mem_map.mp (List.fst_mem_of_mem_zipIdx haddr)
    rw [← hk]
    exact isRoutable_address k
  obtain ⟨hrange, hcount⟩ :=
    nIdCount_of_run hinit (by decide) hroutable hdistinct (fun _ _ => rfl) hadd
  rw [List.length_zipIdx, List.length_map, List.length_range] at hcount
  exact ⟨hrange, hcount.trans (Int.zero_add _)⟩

/-- There are not enough ids for `2 ^ 31` addresses. -/
theorem not_run_consistent : ¬ ∀ ops : List AddrManOp, ∃ s,
    Run.run CAddrMan.step (init nKey) ops = some s ∧ s.Consistent := by
  intro h
  obtain ⟨n, hn⟩ : ∃ n, n = 2 ^ 31 := ⟨_, rfl⟩
  obtain ⟨s, hrun, -⟩ := h [addMany n]
  obtain ⟨s1, hstep, -⟩ := Run.run_cons.mp hrun
  obtain ⟨⟨-, hlt⟩, hcount⟩ := nIdCount_addMany hn.le hstep
  omega

end IdSample

end Terracoin
