import Terracoin.Net.AddrManCheck
import Terracoin.Net.AddrManFile

/-!
# Restoring the address manager

A manager that was written and read back has the invariant again, and the same entries in the same
buckets (`Inv.unserialize_serialize`). The reader fills the manager in three loops; `Loaded` says
what it has after the first two, and `Filling` what the third one keeps.
-/

namespace Terracoin

open Std (TreeMap)
open Codec Positions AddrTables Buckets

def CAddrInfo.asTried (info : CAddrInfo) : CAddrInfo := { info with fInTried := true }

/-- What is the same after the entry was written and read back. -/
def CAddrInfo.restored (info : CAddrInfo) : CAddrInfo := { info.unplaced with nLastTry := 0 }

/-- The entry without its references. -/
def CAddrInfo.uncounted (info : CAddrInfo) : CAddrInfo := { info with nRefCount := 0 }

namespace CAddrMan

variable {T : Prop} {s s' s0 : CAddrMan} {n m : Int} {info found : CAddrInfo} {b : Nat}
  {vNew vTried : List Int}

/-! ## The entries -/

/-- The manager has the entries `infos`, with the ids from 0 on. -/
structure Loaded (T : Prop) (s : CAddrMan) (infos : List CAddrInfo) : Prop extends Listed T s where
  nIdCount : s.nIdCount = infos.length
  length : s.vRandom.length = infos.length
  entries : ∀ n, s.entry n = if n < 0 then none else infos[n.toNat]?.map CAddrInfo.unplaced

theorem Loaded.insertNext {infos : List CAddrInfo} (h : Loaded T s infos)
    (haddr : info.toCNetAddr ∉ infos.map (·.toCNetAddr)) (hT : T → Timed info) :
    Loaded T (s.insertNext info) (infos ++ [info]) := by
  have hnone : s.mapAddr info.toCNetAddr = none := by
    by_contra hne
    obtain ⟨k, hk⟩ := Option.ne_none_iff_exists'.mp hne
    have hentry := (h.directory.addr _ k).mp hk
    rw [h.entries] at hentry
    split at hentry
    · cases hentry
    · rw [Option.map_map, Option.map_eq_some_iff] at hentry
      obtain ⟨x, hx, hxa⟩ := hentry
      exact haddr (List.mem_map.mpr ⟨x, List.mem_of_getElem? hx, hxa⟩)
  refine { h.toListed.insertNext hnone hT with nIdCount := ?_, length := ?_, entries := fun n => ?_ }
  · change s.nIdCount + 1 = _
    rw [h.nIdCount, List.length_append, List.length_singleton]
    rfl
  · change (s.vRandom ++ [s.nIdCount]).length = _
    rw [List.length_append, List.length_append, h.length]
    rfl
  · have hid := h.nIdCount
    rw [entry_insertNext, Function.update_apply]
    split
    · next heq =>
      have hlen : n.toNat = infos.length := by omega
      rw [if_neg (by omega), hlen, List.getElem?_concat_length]
      rfl
    · next hne =>
      rw [h.entries]
      split
      · rfl
      · have hlen : n.toNat ≠ infos.length := by omega
        rcases Nat.lt_or_gt_of_ne hlen with hlt | hgt
        · rw [List.getElem?_append_left hlt]
        · rw [List.getElem?_eq_none (by omega),
            List.getElem?_eq_none (by rw [List.length_append, List.length_singleton]; omega)]

section

variable [ByteHashing]

/-- The first loop lists the new entries. -/
theorem Loaded.loadNew {rest infos : List CAddrInfo} (st : CAddrMan × Int)
    (h : Loaded T { st.1 with nIdCount := st.2 } infos)
    (haddr : ((infos ++ rest).map (·.toCNetAddr)).Nodup) (hT : T → ∀ info ∈ rest, Timed info) :
    ∃ st', rest.foldl (loadNew ADDRMAN_NEW_BUCKET_COUNT) st = st' ∧
      Loaded T { st'.1 with nIdCount := st'.2 } (infos ++ rest) ∧
      st'.1 = { st'.1 with
        nKey := st.1.nKey, nTried := st.1.nTried, vvTried := st.1.vvTried, nNew := st.1.nNew
        vvNew := st.1.vvNew } := by
  induction rest generalizing infos st with
  | nil =>
    rw [List.append_nil]
    exact ⟨st, rfl, h, rfl⟩
  | cons info rest ih =>
    rw [List.append_cons] at haddr ⊢
    have hfresh : info.toCNetAddr ∉ infos.map (·.toCNetAddr) := by
      rw [List.map_append, List.nodup_append, List.map_append, List.nodup_append] at haddr
      exact fun hmem => haddr.1.2.2 _ hmem _ (List.mem_singleton.mpr rfl) rfl
    have hcreate := h.insertNext hfresh fun htime => hT htime info List.mem_cons_self
    obtain ⟨st1, hst1⟩ : ∃ st1, CAddrMan.loadNew ADDRMAN_NEW_BUCKET_COUNT st info = st1 := ⟨_, rfl⟩
    have hnext : st1 = ({ st.1 with
        mapInfo := st.1.mapInfo.insert st.2 { info with nRandomPos := st.1.vRandom.length }
        mapAddr := Function.update st.1.mapAddr info.toCNetAddr (some st.2)
        vRandom := st.1.vRandom ++ [st.2] }, st.2 + 1) := by
      rw [← hst1, CAddrMan.loadNew]
      exact if_neg (not_not.mpr rfl)
    have hloaded : Loaded T { st1.1 with nIdCount := st1.2 } (infos ++ [info]) := by
      rw [hnext]
      exact hcreate
    obtain ⟨st', hfold, hst', hframe⟩ :=
      ih st1 hloaded haddr fun htime x hx => hT htime x (List.mem_cons_of_mem _ hx)
    refine ⟨st', by rw [List.foldl_cons, hst1, hfold], hst', ?_⟩
    rw [hnext] at hframe
    exact hframe

/-- The second loop gives every tried entry its place. -/
theorem Loaded.loadTried {rest infos : List CAddrInfo} (st : CAddrMan × Int)
    (h : Loaded T st.1 infos) (htable : TriedTable st.1.nKey st.1.entry st.1.vvTried)
    (haddr : ((infos ++ rest.map CAddrInfo.asTried).map (·.toCNetAddr)).Nodup)
    (hT : T → ∀ info ∈ rest, Timed info.asTried)
    (hroom : ∀ b vTried, st.1.vvTried[b]? = some vTried →
      vTried.length + rest.countP (fun info => info.getTriedBucket st.1.nKey = b) ≤
        ADDRMAN_TRIED_BUCKET_SIZE) :
    ∃ st', rest.foldl loadTried st = st' ∧
      Loaded T st'.1 (infos ++ rest.map CAddrInfo.asTried) ∧
      TriedTable st'.1.nKey st'.1.entry st'.1.vvTried ∧ st'.2 = st.2 ∧
      st'.1.vvTried.flatten.length = st.1.vvTried.flatten.length + rest.length ∧
      st'.1 = { st'.1 with
        nKey := st.1.nKey, nTried := st.1.nTried, nNew := st.1.nNew, vvNew := st.1.vvNew } := by
  induction rest generalizing infos st with
  | nil =>
    rw [List.map_nil, List.append_nil]
    exact ⟨st, rfl, h, htable, rfl, rfl, rfl⟩
  | cons info rest ih =>
    rw [List.map_cons, List.append_cons] at haddr ⊢
    have hfresh : info.asTried.toCNetAddr ∉ infos.map (·.toCNetAddr) := by
      rw [List.map_append, List.nodup_append, List.map_append, List.nodup_append] at haddr
      exact fun hmem => haddr.1.2.2 _ hmem _ (List.mem_singleton.mpr rfl) rfl
    have hcreate := h.insertNext hfresh fun htime => hT htime info List.mem_cons_self
    obtain ⟨vTried, hb⟩ := htable.exists_tried_bucket (info.getTriedBucket_lt st.1.nKey)
    have hlt : vTried.length < ADDRMAN_TRIED_BUCKET_SIZE := by
      have := hroom _ vTried hb
      rw [List.countP_cons_of_pos (by simp)] at this
      omega
    obtain ⟨st1, hst1⟩ : ∃ st1, CAddrMan.loadTried st info = st1 := ⟨_, rfl⟩
    have hnext : st1 = ({ st.1.insertNext info.asTried with
        vvTried := st.1.vvTried.set (info.getTriedBucket st.1.nKey)
          (vTried ++ [st.1.nIdCount]) }, st.2) := by
      rw [← hst1, CAddrMan.loadTried, List.getD_eq_getElem?_getD, hb]
      exact if_pos hlt
    have hloaded : Loaded T st1.1 (infos ++ [info.asTried]) := by
      rw [hnext]
      exact { hcreate with }
    have htable1 : TriedTable st1.1.nKey st1.1.entry st1.1.vvTried := by
      have hfree : inTried st.1.entry st.1.nIdCount = false := by
        rw [inTried, h.directory.fresh]
        rfl
      obtain ⟨plain, hplain⟩ :
        ∃ plain : CAddrInfo, plain = { info.unplaced with fInTried := false } := ⟨_, rfl⟩
      have hf : ((some plain).map (·.fInTried)).getD false = false := by
        rw [hplain]
        rfl
      have hservice : info.asTried.unplaced.toCService = plain.toCService := by rw [hplain]; rfl
      have hbucket : plain.getTriedBucket st.1.nKey = info.getTriedBucket st.1.nKey :=
        getTriedBucket_congr (by rw [hplain]; rfl)
      rw [← hbucket] at hb
      have hadd := (htable.congr_new hfree hf).add (Function.update_self ..) hf rfl hservice hb hlt
      rw [Function.update_idem, hbucket] at hadd
      rw [hnext]
      change TriedTable st.1.nKey (st.1.insertNext info.asTried).entry _
      rw [entry_insertNext]
      exact hadd
    have hroom1 : ∀ b vTried, st1.1.vvTried[b]? = some vTried →
        vTried.length + rest.countP (fun info => info.getTriedBucket st1.1.nKey = b) ≤
          ADDRMAN_TRIED_BUCKET_SIZE := by
      intro c w hw
      rw [hnext] at hw ⊢
      change (st.1.vvTried.set _ _)[c]? = some w at hw
      change _ + rest.countP (fun x => x.getTriedBucket st.1.nKey = c) ≤ _
      by_cases hc : c = info.getTriedBucket st.1.nKey
      · subst hc
        rw [List.getElem?_set_self (List.getElem?_eq_some_iff.mp hb).1] at hw
        obtain rfl := Option.some.inj hw
        have := hroom _ vTried hb
        rw [List.countP_cons_of_pos (by simp)] at this
        rw [List.length_append, List.length_singleton]
        omega
      · rw [List.getElem?_set_ne (Ne.symm hc)] at hw
        have := hroom c w hw
        rwa [List.countP_cons_of_neg (by simpa using Ne.symm hc)] at this
    obtain ⟨st', hfold, hst', htable', hlost, hlength, hframe⟩ := ih st1 hloaded htable1 haddr
      (fun htime x hx => hT htime x (List.mem_cons_of_mem _ hx)) hroom1
    refine ⟨st', by rw [List.foldl_cons, hst1, hfold], hst', htable', ?_, ?_, ?_⟩
    · rw [hlost, hnext]
    · have hflat := length_flatten_modify (fun _ => vTried ++ [st.1.nIdCount]) hb
      rw [← List.set_eq_modify, List.length_append, List.length_singleton] at hflat
      rw [hnext] at hlength
      change _ = (st.1.vvTried.set _ _).flatten.length + _ at hlength
      rw [hlength, List.length_cons]
      omega
    · rw [hnext] at hframe
      exact hframe

end

/-! ## The buckets -/

/-- The third loop has put references into the new buckets of `s0`, where no entry had one. -/
structure Filling (T : Prop) (s0 s : CAddrMan) : Prop extends Listed T s where
  frame : s = { s0 with mapInfo := s.mapInfo, vvNew := s.vvNew }
  table : NewTable s.entry s.vvNew none
  entries : ∀ n, (s.entry n).map CAddrInfo.uncounted = (s0.entry n).map CAddrInfo.uncounted

namespace Filling

/-- One reference. -/
theorem index (h : Filling T s0 s) (hb : s.vvNew[b]? = some vNew) (hn : n ∉ vNew)
    (hlt : vNew.length < ADDRMAN_NEW_BUCKET_SIZE) (hk : ∃ info, s0.entry n = some info)
    (hmax : (s.vvNew.flatten.count n : Int) < ADDRMAN_NEW_BUCKETS_PER_ADDRESS) :
    Filling T s0 (loadIndex ADDRMAN_NEW_BUCKET_COUNT b s n) ∧
      (loadIndex ADDRMAN_NEW_BUCKET_COUNT b s n).vvNew = s.vvNew.modify b (setInsert n) := by
  obtain ⟨info0, hinfo0⟩ := hk
  have hentries := h.entries n
  rw [hinfo0, Option.map_some, Option.map_eq_some_iff] at hentries
  obtain ⟨x, hx, -⟩ := hentries
  obtain ⟨info, hinfo, -⟩ := exists_of_entry hx
  have hcount := h.table.count_new n
  rw [pending_none, Int.add_zero, refCount_of_eq (entry_of_eq hinfo)] at hcount
  change _ = info.nRefCount at hcount
  rw [hcount] at hmax
  have hcall : loadIndex ADDRMAN_NEW_BUCKET_COUNT b s n =
      { s.setInfo n { info with nRefCount := info.nRefCount + 1 } with
        vvNew := s.vvNew.modify b (setInsert n) } := by
    rw [loadIndex, TreeMap.getD_eq_getD_getElem?, hinfo]
    exact if_pos ⟨rfl, hmax⟩
  rw [hcall]
  refine ⟨?_, rfl⟩
  have hlisted : Listed T (s.setInfo n { info with nRefCount := info.nRefCount + 1 }) :=
    h.toListed.setInfo hinfo rfl rfl fun hT => by
      have := h.timed_of_eq hT hinfo
      exact ⟨this.nLastTry, this.nLastSuccess, this.tried⟩
  have hentry := entry_setInfo s n { info with nRefCount := info.nRefCount + 1 }
  refine { hlisted with frame := ?_, table := ?_, entries := fun m => ?_ }
  · rw [h.frame]
    rfl
  · change NewTable (s.setInfo n _).entry _ _
    rw [hentry]
    refine (h.table.countRef ?_).insert hb hn hlt
    rw [refCount_of_eq (entry_of_eq hinfo)]
    rfl
  · change ((s.setInfo n _).entry m).map _ = _
    rw [hentry, Function.update_apply]
    split
    · next heq =>
      rw [heq, ← h.entries n, entry_of_eq hinfo]
      rfl
    · exact h.entries m

/-- The references of a bucket. -/
theorem bucket {ks : List Int} (h : Filling T s0 s) (hb : s.vvNew[b]? = some vNew)
    (hnodup : (vNew ++ ks).Nodup) (hlen : (vNew ++ ks).length ≤ ADDRMAN_NEW_BUCKET_SIZE)
    (hk : ∀ n ∈ ks, ∃ info, s0.entry n = some info)
    (hmax : ∀ n ∈ ks, (s.vvNew.flatten.count n : Int) < ADDRMAN_NEW_BUCKETS_PER_ADDRESS) :
    ∃ s' w, ks.foldl (loadIndex ADDRMAN_NEW_BUCKET_COUNT b) s = s' ∧ Filling T s0 s' ∧
      s'.vvNew = s.vvNew.set b w ∧ w.Perm (vNew ++ ks) := by
  induction ks generalizing s vNew with
  | nil =>
    refine ⟨s, vNew, rfl, h, ?_, by rw [List.append_nil]⟩
    obtain ⟨hlt, rfl⟩ := List.getElem?_eq_some_iff.mp hb
    exact (List.set_getElem_self hlt).symm
  | cons n ks ih =>
    have hperm : (vNew ++ n :: ks).Perm (n :: (vNew ++ ks)) := List.perm_middle
    have hnodup1 := hperm.nodup_iff.mp hnodup
    rw [List.nodup_cons, List.mem_append, not_or] at hnodup1
    obtain ⟨⟨hn, hnks⟩, hrest⟩ := hnodup1
    rw [hperm.length_eq, List.length_cons, List.length_append] at hlen
    obtain ⟨h1, hvvNew⟩ := h.index hb hn (by omega) (hk n List.mem_cons_self)
      (hmax n List.mem_cons_self)
    have hset : s.vvNew.modify b (setInsert n) = s.vvNew.set b (setInsert n vNew) := by
      rw [List.modify_eq_set_getElem?, hb]
      rfl
    have hb1 : (loadIndex ADDRMAN_NEW_BUCKET_COUNT b s n).vvNew[b]? = some (setInsert n vNew) := by
      rw [hvvNew, hset, List.getElem?_set_self (List.getElem?_eq_some_iff.mp hb).1]
    have hperm1 : (setInsert n vNew ++ ks).Perm (vNew ++ n :: ks) :=
      ((setInsert_perm hn).append_right ks).trans hperm.symm
    obtain ⟨s', w, hfold, hs', hw, hwp⟩ := ih h1 hb1 (hperm1.nodup_iff.mpr hnodup)
      (by rw [List.length_append, length_setInsert hn]; omega)
      (fun m hm => hk m (List.mem_cons_of_mem _ hm)) fun m hm => by
        have hne : m ≠ n := fun heq => hnks (heq ▸ hm)
        have hcount := count_flatten_modify m (setInsert n) hb
        rw [count_setInsert hn, if_neg hne, ← hvvNew] at hcount
        have := hmax m (List.mem_cons_of_mem _ hm)
        omega
    refine ⟨s', w, by rw [List.foldl_cons, hfold], hs', ?_, hwp.trans hperm1⟩
    rw [hw, hvvNew, hset, List.set_set]

/-- The references of all buckets. -/
theorem buckets {bs done : List (List Int)} (h : Filling T s0 s)
    (hvvNew : s.vvNew = done ++ List.replicate bs.length []) (hnodup : ∀ ks ∈ bs, ks.Nodup)
    (hlen : ∀ ks ∈ bs, ks.length ≤ ADDRMAN_NEW_BUCKET_SIZE)
    (hk : ∀ n ∈ bs.flatten, ∃ info, s0.entry n = some info)
    (hmax : ∀ n ∈ bs.flatten, (done.flatten.count n + bs.flatten.count n : Int) ≤
      ADDRMAN_NEW_BUCKETS_PER_ADDRESS) :
    ∃ s' ws, (bs.foldl fillBucket (s, done.length)).1 = s' ∧ Filling T s0 s' ∧
      s'.vvNew = done ++ ws ∧ List.Forall₂ List.Perm ws bs := by
  induction bs generalizing s done with
  | nil => exact ⟨s, [], rfl, h, hvvNew, .nil⟩
  | cons ks bs ih =>
    rw [List.length_cons, List.replicate_succ] at hvvNew
    have hb : s.vvNew[done.length]? = some [] := by
      rw [hvvNew, List.getElem?_append_right (Nat.le_refl _), Nat.sub_self]
      rfl
    have hempty : (List.replicate bs.length ([] : List Int)).flatten = [] :=
      List.flatten_replicate_nil
    have hstart : ∀ n, s.vvNew.flatten.count n = done.flatten.count n := fun n => by
      rw [hvvNew, List.flatten_append, List.flatten_cons, hempty, List.append_nil, List.append_nil]
    obtain ⟨s1, w, hfold, hs1, hw, hperm⟩ := h.bucket hb
      (by rw [List.nil_append]; exact hnodup ks List.mem_cons_self)
      (by rw [List.nil_append]; exact hlen ks List.mem_cons_self)
      (fun n hn => hk n (List.mem_append_left _ hn)) fun n hn => by
        have hle := hmax n (List.mem_append_left _ hn)
        have hpos := List.count_pos_iff.mpr hn
        rw [List.flatten_cons, List.count_append] at hle
        rw [hstart]
        omega
    have hvvNew1 : s1.vvNew = (done ++ [w]) ++ List.replicate bs.length [] := by
      rw [hw, hvvNew, List.set_append_right _ _ (Nat.le_refl _), Nat.sub_self, List.append_assoc]
      rfl
    have hmax1 : ∀ n ∈ bs.flatten, ((done ++ [w]).flatten.count n + bs.flatten.count n : Int) ≤
        ADDRMAN_NEW_BUCKETS_PER_ADDRESS := fun n hn => by
      have hle := hmax n (List.mem_append_right _ hn)
      rw [List.flatten_cons, List.count_append] at hle
      rw [List.flatten_append, List.count_append, List.flatten_singleton, hperm.count_eq,
        List.nil_append]
      omega
    obtain ⟨s', ws, hfold', hs', hws, hall⟩ := ih hs1 hvvNew1
      (fun x hx => hnodup x (List.mem_cons_of_mem _ hx))
      (fun x hx => hlen x (List.mem_cons_of_mem _ hx))
      (fun n hn => hk n (List.mem_append_right _ hn)) hmax1
    refine ⟨s', w :: ws, ?_, hs', ?_, .cons hperm hall⟩
    · rw [List.length_append, List.length_singleton] at hfold'
      rw [List.foldl_cons, fillBucket, hfold, hfold']
    · rw [hws, List.append_assoc]
      rfl

end Filling

/-! ## The entries that are written -/

section

variable [ByteHashing]

/-- The entries in the order of the file. -/
def fileList (s : CAddrMan) : List (Int × CAddrInfo) := s.newList ++ s.triedList

namespace Inv

theorem nRefCount_ne_zero_iff (h : Inv T s none) (hn : s.mapInfo[n]? = some info) :
    info.nRefCount ≠ 0 ↔ info.fInTried = false := by
  have hrefs := h.refs_of_eq hn
  rw [RefsOk] at hrefs
  cases hf : info.fInTried with
  | true =>
    rw [if_pos hf] at hrefs
    simp [hrefs]
  | false =>
    rw [if_neg (by rw [hf]; exact Bool.false_ne_true)] at hrefs
    simp only [iff_true]
    omega

theorem fileList_perm (h : Inv T s none) : s.fileList.Perm s.mapInfo.toList := by
  have htried : s.triedList =
      s.mapInfo.toList.filter fun entry => !decide (entry.2.nRefCount ≠ 0) := by
    refine List.filter_congr fun entry hentry => ?_
    have hn := TreeMap.mem_toList_iff_getElem?_eq_some.mp hentry
    have hiff := h.nRefCount_ne_zero_iff hn
    cases hf : entry.2.fInTried with
    | true => simpa [hf] using hiff
    | false => simpa [hf] using hiff
  rw [fileList, htried]
  exact List.filter_append_perm _ _

theorem mem_fileList (h : Inv T s none) : (n, info) ∈ s.fileList ↔ s.mapInfo[n]? = some info := by
  rw [h.fileList_perm.mem_iff, TreeMap.mem_toList_iff_getElem?_eq_some]

omit [ByteHashing] in
theorem nodup_toList (s : CAddrMan) : s.mapInfo.toList.Nodup := by
  refine List.Nodup.of_map Prod.fst ?_
  exact Index.nodup_map_fst_toList _

theorem nodup_addr (h : Inv T s none) : (s.fileList.map (·.2.toCNetAddr)).Nodup := by
  rw [(h.fileList_perm.map _).nodup_iff]
  refine List.Nodup.map_on (fun x hx y hy heq => ?_) (nodup_toList s)
  have hx' := TreeMap.mem_toList_iff_getElem?_eq_some.mp hx
  have hy' := TreeMap.mem_toList_iff_getElem?_eq_some.mp hy
  have hxa := (h.consistent.addr _ x.1).mpr ⟨x.2, hx', rfl⟩
  have hya := (h.consistent.addr _ y.1).mpr ⟨y.2, hy', rfl⟩
  rw [heq, hya] at hxa
  have hfst := Option.some.inj hxa
  rw [hfst, hx'] at hy'
  exact Prod.ext hfst.symm (Option.some.inj hy')

theorem length_newList (h : Inv T s none) : s.nNew = s.newList.length := by
  have hlength := h.fileList_perm.length_eq
  have htried := h.nTried_eq
  have hsize := h.size
  rw [List.countP_eq_length_filter] at htried
  rw [fileList, List.length_append, h.length_toList] at hlength
  change s.nTried = (s.triedList.length : Int) at htried
  omega

theorem length_triedList (h : Inv T s none) : s.nTried = s.triedList.length := by
  rw [h.nTried_eq, List.countP_eq_length_filter]
  rfl

/-- An id is in a tried bucket exactly if its entry is tried and the bucket is its own. -/
theorem mem_tried_iff (h : Inv T s none) (hn : s.mapInfo[n]? = some info) :
    (∃ vTried, s.vvTried[b]? = some vTried ∧ n ∈ vTried) ↔
      info.fInTried = true ∧ info.getTriedBucket s.nKey = b := by
  have hentry := entry_of_eq hn
  constructor
  · rintro ⟨vTried, hb, hmem⟩
    have htried := h.tables.inTried_of_mem hb hmem
    rw [inTried_of_eq hentry] at htried
    exact ⟨htried, h.tables.place b vTried n info.unplaced hb hmem hentry⟩
  · rintro ⟨hf, rfl⟩
    have hcount := h.tables.count_tried n
    rw [inTried_of_eq hentry] at hcount
    change _ = if info.fInTried = true then 1 else 0 at hcount
    rw [if_pos hf] at hcount
    obtain ⟨b, vTried, hb, hmem⟩ :=
      mem_flatten_iff.mp (List.count_pos_iff.mp (hcount ▸ Nat.zero_lt_one))
    have hplace := h.tables.place b vTried n info.unplaced hb hmem hentry
    exact ⟨vTried, (congrArg (s.vvTried[·]?) hplace).trans hb, hmem⟩

/-- No more tried entries belong to a bucket than it has room for. -/
theorem countP_triedList_le (h : Inv T s none) (hb : b < ADDRMAN_TRIED_BUCKET_COUNT) :
    s.triedList.countP (fun entry => entry.2.getTriedBucket s.nKey = b) ≤
      ADDRMAN_TRIED_BUCKET_SIZE := by
  obtain ⟨vTried, hvTried⟩ := h.tables.exists_tried_bucket hb
  have hsize := h.tables.tried_size vTried (List.mem_of_getElem? hvTried)
  rw [List.countP_eq_length_filter, ← List.length_map Prod.fst]
  refine le_trans (List.Subperm.length_le (List.subperm_of_subset ?_ fun n hn => ?_)) hsize
  · refine List.Nodup.sublist (List.Sublist.map _
      (List.filter_sublist.trans List.filter_sublist)) ?_
    exact Index.nodup_map_fst_toList _
  · obtain ⟨entry, hentry, rfl⟩ := List.mem_map.mp hn
    simp only [List.mem_filter, triedList, decide_eq_true_eq] at hentry
    obtain ⟨⟨hmem, hf⟩, hbucket⟩ := hentry
    have hinfo := TreeMap.mem_toList_iff_getElem?_eq_some.mp hmem
    obtain ⟨w, hw, hin⟩ := (h.mem_tried_iff hinfo).mpr ⟨hf, hbucket⟩
    obtain rfl := Option.some.inj (hw.symm.trans hvTried)
    exact hin

theorem exists_fileIndex (h : Inv T s none) (hn : n ∈ s.vvNew.flatten) :
    ∃ (i : Nat) (info : CAddrInfo), s.newList[i]? = some (n, info) ∧ s.fileIndex n = i := by
  obtain ⟨b, vNew, hb, hmem⟩ := mem_flatten_iff.mp hn
  obtain ⟨info, hinfo, hf⟩ := h.exists_of_mem_new hb hmem
  have hin : (n, info) ∈ s.newList := by
    rw [newList, List.mem_filter, TreeMap.mem_toList_iff_getElem?_eq_some]
    exact ⟨hinfo, by simpa using (h.nRefCount_ne_zero_iff hinfo).mpr hf⟩
  obtain ⟨i, hi⟩ := List.mem_iff_getElem?.mp hin
  have hnodup := Index.nodup_map_fst_toList s.mapInfo
  obtain ⟨-, -, hindex⟩ :=
    newEntries_spec hnodup ((Int.zero_add _).trans h.length_newList.symm) fun _ => 0
  exact ⟨i, info, hi, (hindex i _ hi).trans (Int.zero_add _)⟩

end Inv

/-! ## The manager that is read -/

/-- The entries that the first two loops make. -/
def fileInfos (s : CAddrMan) : List CAddrInfo :=
  s.newList.map (fun entry => entry.2.stored) ++
    s.triedList.map fun entry => entry.2.stored.asTried

theorem Inv.getElem?_fileInfos (h : Inv T s none) (i : Nat) : s.fileInfos[i]? =
    s.fileList[i]?.map fun entry => { entry.2.stored with fInTried := entry.2.fInTried } := by
  rw [fileInfos, fileList]
  by_cases hlt : i < s.newList.length
  · rw [List.getElem?_append_left (by rwa [List.length_map]), List.getElem?_append_left hlt,
      List.getElem?_map]
    cases hget : s.newList[i]? with
    | none => rfl
    | some entry =>
      obtain ⟨hmem, hr⟩ := List.mem_filter.mp (List.mem_of_getElem? hget)
      have hn := TreeMap.mem_toList_iff_getElem?_eq_some.mp hmem
      rw [Option.map_some, Option.map_some,
        (h.nRefCount_ne_zero_iff hn).mp (of_decide_eq_true hr)]
      rfl
  · rw [List.getElem?_append_right (by rw [List.length_map]; omega),
      List.getElem?_append_right (by omega), List.getElem?_map, List.length_map]
    cases hget : s.triedList[i - s.newList.length]? with
    | none => rfl
    | some entry =>
      have hmem := List.mem_of_getElem? hget
      rw [triedList, List.mem_filter] at hmem
      rw [Option.map_some, Option.map_some, hmem.2]
      rfl

theorem Inv.nodup_fileList (h : Inv T s none) : (s.fileList.map Prod.fst).Nodup := by
  rw [(h.fileList_perm.map _).nodup_iff]
  exact Index.nodup_map_fst_toList _

omit [ByteHashing] in
theorem getElem?_fileList_of_newList {i : Nat} {entry : Int × CAddrInfo}
    (h : s.newList[i]? = some entry) : s.fileList[i]? = some entry := by
  rw [fileList, List.getElem?_append_left (List.getElem?_eq_some_iff.mp h).1, h]

theorem Inv.fileIndex_eq_iff (h : Inv T s none) {i : Nat} (hi : s.fileList[i]? = some (m, info))
    (hn : n ∈ s.vvNew.flatten) : s.fileIndex n = i ↔ n = m := by
  obtain ⟨j, x, hj, hindex⟩ := h.exists_fileIndex hn
  have hj' := getElem?_fileList_of_newList hj
  rw [hindex, Int.ofNat_inj]
  constructor
  · rintro rfl
    exact (Prod.mk.inj (Option.some.inj (hj'.symm.trans hi))).1
  · rintro rfl
    have hfst : (s.fileList.map Prod.fst)[j]? = (s.fileList.map Prod.fst)[i]? := by
      rw [List.getElem?_map, List.getElem?_map, hi, hj']
      rfl
    have hlt : j < (s.fileList.map Prod.fst).length := by
      rw [List.length_map]
      exact (List.getElem?_eq_some_iff.mp hj').1
    exact (List.getElem?_inj hlt h.nodup_fileList).mp hfst

theorem Inv.count_fileIndex (h : Inv T s none) {i : Nat} (hi : s.fileList[i]? = some (m, info)) :
    (s.vvNew.map (List.map s.fileIndex)).flatten.count (i : Int) = s.vvNew.flatten.count m := by
  rw [← List.map_flatten, List.count, List.count, List.countP_map]
  refine List.countP_congr fun n hn => ?_
  simp only [Function.comp_apply, beq_iff_eq]
  exact h.fileIndex_eq_iff hi hn

theorem Inv.exists_of_mem_file (h : Inv T s none)
    (hn : n ∈ (s.vvNew.map (List.map s.fileIndex)).flatten) :
    ∃ (i : Nat) (m : Int) (info : CAddrInfo), n = i ∧ s.fileList[i]? = some (m, info) := by
  rw [← List.map_flatten, List.mem_map] at hn
  obtain ⟨m, hm, rfl⟩ := hn
  obtain ⟨i, info, hi, hindex⟩ := h.exists_fileIndex hm
  exact ⟨i, m, info, hindex, getElem?_fileList_of_newList hi⟩

/-- After the first two loops all entries are listed, and the tried ones are in their buckets. -/
theorem Inv.reloadedTried (h : Inv T s none) :
    ∃ s2, s.reloadedTried = (s2, 0) ∧ Loaded T s2 s.fileInfos ∧
      TriedTable s2.nKey s2.entry s2.vvTried ∧
      s2.vvTried.flatten.length = s.triedList.length ∧
      s2 = { s2 with
        nKey := s.nKey, nTried := s.nTried, nNew := s.nNew
        vvNew := List.replicate ADDRMAN_NEW_BUCKET_COUNT [] } := by
  have haddr := h.nodup_addr
  have hmapInfos : (s.fileInfos.map (·.toCNetAddr)) = s.fileList.map (·.2.toCNetAddr) := by
    rw [fileInfos, fileList, List.map_append, List.map_append, List.map_map, List.map_map]
    rfl
  rw [← hmapInfos] at haddr
  have hstored : T → ∀ entry ∈ s.fileList, Timed entry.2.stored := fun hT entry hentry => by
    have := h.timed_of_eq hT (h.mem_fileList.mp hentry)
    exact ⟨Int64.le_refl _, this.nLastSuccess, nofun⟩
  have htried : T → ∀ entry ∈ s.triedList, Timed entry.2.stored.asTried :=
    fun hT entry hentry => by
      have := h.timed_of_eq hT (h.mem_fileList.mp (List.mem_append_right _ hentry))
      rw [triedList, List.mem_filter] at hentry
      exact ⟨Int64.le_refl _, this.nLastSuccess, fun _ => this.tried hentry.2⟩
  -- the first loop
  have hempty : Loaded T (cleared s.nKey s.nNew s.nTried) [] :=
    { Listed.of_isEmpty rfl rfl rfl with
      nIdCount := rfl, length := rfl
      entries := fun n => by
        rw [entry_of_isEmpty rfl]
        split <;> rfl }
  have haddrNew : ((([] : List CAddrInfo) ++ s.newList.map fun entry => entry.2.stored).map
      fun info : CAddrInfo => info.toCNetAddr).Nodup := by
    rw [fileInfos, List.map_append, List.nodup_append] at haddr
    exact haddr.1
  obtain ⟨st1, hst1, hloaded1, hframe1⟩ := Loaded.loadNew (cleared s.nKey s.nNew s.nTried, 0)
    hempty haddrNew fun hT info hinfo => by
      obtain ⟨entry, hentry, rfl⟩ := List.mem_map.mp hinfo
      exact hstored hT entry (List.mem_append_left _ hentry)
  have hid : st1.2 = s.nNew := by
    have := hloaded1.nIdCount
    rw [List.nil_append, List.length_map] at this
    exact this.trans h.length_newList.symm
  rw [List.nil_append, hid] at hloaded1
  -- the second loop
  have hfree : ∀ n, inTried st1.1.entry n = false := fun n => by
    have hentry := hloaded1.entries n
    change st1.1.entry n = _ at hentry
    rw [inTried, hentry]
    split
    · rfl
    · rw [List.getElem?_map, Option.map_map, Option.map_map]
      cases s.newList[n.toNat]? <;> rfl
  have hnKey : st1.1.nKey = s.nKey := by rw [hframe1]; rfl
  have hvvTried : st1.1.vvTried = List.replicate ADDRMAN_TRIED_BUCKET_COUNT [] := by
    rw [hframe1]
    rfl
  have htable1 : TriedTable st1.1.nKey st1.1.entry st1.1.vvTried := by
    rw [hvvTried]
    exact .replicate hfree
  have hasTried : s.triedList.map (fun entry => entry.2.stored.asTried) =
      (s.triedList.map fun entry => entry.2.stored).map CAddrInfo.asTried := by
    rw [List.map_map]
    rfl
  rw [fileInfos, hasTried] at haddr
  obtain ⟨st2, hst2, hloaded2, htable2, hlost, hlength, hframe2⟩ :=
    Loaded.loadTried ({ st1.1 with nIdCount := s.nNew }, 0) hloaded1 htable1 haddr
      (fun hT info hinfo => by
        obtain ⟨entry, hentry, rfl⟩ := List.mem_map.mp hinfo
        exact htried hT entry hentry)
      (fun b vTried hb => by
        change st1.1.vvTried[b]? = some vTried at hb
        change _ + List.countP (fun info : CAddrInfo => info.getTriedBucket st1.1.nKey = b) _ ≤ _
        have hlt := (List.getElem?_eq_some_iff.mp hb).1
        rw [hvvTried] at hb hlt
        rw [List.length_replicate] at hlt
        rw [List.eq_of_mem_replicate (List.mem_of_getElem? hb), List.countP_map, hnKey,
          List.length_nil, Nat.zero_add]
        exact h.countP_triedList_le hlt)
  have hflat : st1.1.vvTried.flatten.length = 0 := by
    rw [hvvTried, List.flatten_replicate_nil]
    rfl
  refine ⟨st2.1, ?_, ?_, htable2, ?_, ?_⟩
  · rw [CAddrMan.reloadedTried, reloadedNew, hst1, hst2]
    exact Prod.ext rfl hlost
  · rw [fileInfos, hasTried]
    exact hloaded2
  · change _ = st1.1.vvTried.flatten.length + _ at hlength
    rw [hlength, hflat, List.length_map, Nat.zero_add]
  · rw [hframe1] at hframe2
    exact hframe2

theorem Inv.nodup_fileBucket (h : Inv T s none) :
    ∀ ks ∈ s.vvNew.map (List.map s.fileIndex), ks.Nodup := by
  intro ks hks
  obtain ⟨vNew, hv, rfl⟩ := List.mem_map.mp hks
  refine List.Nodup.map_on (fun x hx y hy heq => ?_) (h.tables.new_nodup vNew hv)
  have hx' : x ∈ s.vvNew.flatten := List.mem_flatten.mpr ⟨vNew, hv, hx⟩
  have hy' : y ∈ s.vvNew.flatten := List.mem_flatten.mpr ⟨vNew, hv, hy⟩
  obtain ⟨i, info, hi, hindex⟩ := h.exists_fileIndex hy'
  exact (h.fileIndex_eq_iff (getElem?_fileList_of_newList hi) hx').mp (heq.trans hindex)

theorem Inv.length_fileBucket_le (h : Inv T s none) :
    ∀ ks ∈ s.vvNew.map (List.map s.fileIndex), ks.length ≤ ADDRMAN_NEW_BUCKET_SIZE := by
  intro ks hks
  obtain ⟨vNew, hv, rfl⟩ := List.mem_map.mp hks
  rw [List.length_map]
  exact h.tables.new_size vNew hv

/-- No index is in more buckets of the file than an address may be in. -/
theorem Inv.count_fileBuckets_le (h : Inv T s none) {n : Int}
    (hn : n ∈ (s.vvNew.map (List.map s.fileIndex)).flatten) :
    ((s.vvNew.map (List.map s.fileIndex)).flatten.count n : Int) ≤
      ADDRMAN_NEW_BUCKETS_PER_ADDRESS := by
  obtain ⟨i, m, info, rfl, hi⟩ := h.exists_of_mem_file hn
  have hinfo := h.mem_fileList.mp (List.mem_of_getElem? hi)
  have hcount := h.tables.count_new m
  have hrefsOk := h.refs_of_eq hinfo
  rw [pending_none, refCount_of_eq (entry_of_eq hinfo)] at hcount
  change _ = info.nRefCount at hcount
  rw [h.count_fileIndex hi]
  have hmax : ADDRMAN_NEW_BUCKETS_PER_ADDRESS = 4 := rfl
  rw [RefsOk] at hrefsOk
  split at hrefsOk <;> omega

theorem Filling.triedTable {s0 s' : CAddrMan} (hs' : Filling T s0 s')
    (htable : TriedTable s0.nKey s0.entry s0.vvTried) :
    TriedTable s'.nKey s'.entry s'.vvTried := by
  rw [hs'.frame]
  refine htable.congr (fun n => ?_) fun n x _ hx => ?_
  · have hn := congrArg (Option.map CAddrInfo.fInTried) (hs'.entries n)
    rw [Option.map_map, Option.map_map] at hn
    exact congrArg (Option.getD · false) hn
  · have hn := hs'.entries n
    change s'.entry n = some x at hx
    rw [hx, Option.map_some, eq_comm, Option.map_eq_some_iff] at hn
    obtain ⟨y, hy, hyx⟩ := hn
    exact ⟨y, hy, (congrArg (fun info : CAddrInfo => info.toCService) hyx).symm⟩

/-- The manager that is read, its buckets, and what it has under the index of an entry. -/
theorem Inv.reloaded (h : Inv T s none) : ∃ s', s.reloaded = s' ∧ Inv T s' none ∧
    s'.nKey = s.nKey ∧ s'.nTried = s.nTried ∧ s'.nNew = s.nNew ∧
    List.Forall₂ List.Perm s'.vvNew (s.vvNew.map (List.map s.fileIndex)) ∧
    ∀ n, s'.entry n = if n < 0 then none else
      s.fileList[n.toNat]?.map fun entry => entry.2.restored := by
  obtain ⟨s2, hs2, hloaded, htable, hlength, hframe⟩ := h.reloadedTried
  have hentry2 : ∀ n, s2.entry n = if n < 0 then none else s.fileList[n.toNat]?.map fun entry =>
      { entry.2.stored with fInTried := entry.2.fInTried, nRandomPos := 0 } := fun n => by
    rw [hloaded.entries, h.getElem?_fileInfos, Option.map_map]
    rfl
  have hentryNat : ∀ (i : Nat) (m : Int) (info : CAddrInfo), s.fileList[i]? = some (m, info) →
      s2.entry i = some { info.stored with fInTried := info.fInTried, nRandomPos := 0 } :=
    fun i m info hi => by
      rw [hentry2, if_neg (by omega), Int.toNat_natCast, hi]
      rfl
  have hrefs : ∀ n, refCount s2.entry n = 0 := fun n => by
    rw [refCount, hentry2]
    split
    · rfl
    · cases s.fileList[n.toNat]? <;> rfl
  have hfilling : Filling T s2 s2 := by
    refine { hloaded.toListed with frame := rfl, table := ?_, entries := fun _ => rfl }
    rw [hframe]
    exact .replicate hrefs
  have hvvNew2 : s2.vvNew =
      [] ++ List.replicate (s.vvNew.map (List.map s.fileIndex)).length [] := by
    rw [List.length_map, h.tables.new_length, List.nil_append, hframe]
  obtain ⟨s', ws, hfold, hs', hvvNew, hall⟩ := hfilling.buckets hvvNew2
    h.nodup_fileBucket h.length_fileBucket_le
    (fun n hn => by
      obtain ⟨i, m, info, rfl, hi⟩ := h.exists_of_mem_file hn
      exact ⟨_, hentryNat i m info hi⟩)
    (fun n hn => by
      rw [List.flatten_nil, List.count_nil, Nat.cast_zero, Int.zero_add]
      exact h.count_fileBuckets_le hn)
  rw [List.nil_append] at hvvNew
  subst hvvNew
  have hperm := List.Perm.flatten_congr hall
  have hentry : ∀ n, s'.entry n = if n < 0 then none else
      s.fileList[n.toNat]?.map fun entry => entry.2.restored := by
    intro n
    have hn := hs'.entries n
    rw [hentry2] at hn
    split
    · next hneg =>
      rw [if_pos hneg] at hn
      exact Option.map_eq_none_iff.mp hn
    · next hneg =>
      rw [if_neg hneg] at hn
      obtain ⟨i, rfl⟩ := Int.eq_ofNat_of_zero_le (Int.not_lt.mp hneg)
      rw [Int.toNat_natCast] at hn ⊢
      cases hi : s.fileList[i]? with
      | none =>
        rw [hi] at hn
        exact Option.map_eq_none_iff.mp hn
      | some entry =>
        obtain ⟨m, info⟩ := entry
        rw [hi, Option.map_some, Option.map_some, Option.map_eq_some_iff] at hn
        obtain ⟨x, hx, hxu⟩ := hn
        have hinfo := h.mem_fileList.mp (List.mem_of_getElem? hi)
        have hcount := h.tables.count_new m
        have hcount' := hs'.table.count_new i
        rw [pending_none, Int.add_zero, refCount_of_eq (entry_of_eq hinfo)] at hcount
        rw [pending_none, Int.add_zero, refCount_of_eq hx, hperm.count_eq, h.count_fileIndex hi,
          hcount] at hcount'
        have hxr : x = { x.uncounted with nRefCount := info.nRefCount } := by
          rw [show info.nRefCount = x.nRefCount from hcount']
          rfl
        rw [hx, hxr, hxu]
        rfl
  have hnKey : s'.nKey = s.nKey := by rw [hs'.frame, hframe]
  have hnTried : s'.nTried = s.nTried := by rw [hs'.frame, hframe]
  have hnNew : s'.nNew = s.nNew := by rw [hs'.frame, hframe]
  refine ⟨s', ?_, { hs'.toListed with key := ?_, tables := ?_, nTried := ?_, size := ?_ },
    hnKey, hnTried, hnNew, hall, hentry⟩
  · have hsame : { s2 with nTried := s.nTried - 0 } = s2 := by
      have hnTried2 : s2.nTried = s.nTried := by rw [hframe]
      rw [Int.sub_zero, ← hnTried2]
    rw [CAddrMan.reloaded, hs2]
    dsimp only
    rw [hsame]
    exact hfold
  · rw [hnKey]
    exact h.key
  · refine { hs'.table, hs'.triedTable htable with refs := fun n x hx => ?_ }
    rw [hentry] at hx
    split at hx
    · cases hx
    · obtain ⟨⟨m, info⟩, hi, rfl⟩ := Option.map_eq_some_iff.mp hx
      have hrefsOk := h.refs_of_eq (h.mem_fileList.mp (List.mem_of_getElem? hi))
      exact hrefsOk
  · rw [hnTried, h.length_triedList, ← hlength]
    rw [hs'.frame]
  · have hvRandom : s'.vRandom = s2.vRandom := by rw [hs'.frame]
    rw [hnTried, hnNew, h.length_triedList, h.length_newList, hvRandom, hloaded.length, fileInfos,
      List.length_append, List.length_map, List.length_map]
    omega

def holds (s : CAddrMan) (vv : List (List Int)) (b : Nat) (a : CNetAddr) : Prop :=
  ∃ n, s.mapAddr a = some n ∧ ∃ bucket, vv[b]? = some bucket ∧ n ∈ bucket

/-- The second manager has the entries of the first one, but for the time of the last try, and has
them in the same buckets. -/
structure Restores (s s' : CAddrMan) : Prop where
  nKey : s'.nKey = s.nKey
  nTried : s'.nTried = s.nTried
  nNew : s'.nNew = s.nNew
  entries : ∀ a, (s'.find a).map (fun r => r.2.unplaced) = (s.find a).map fun r => r.2.restored
  new : ∀ b a, s'.holds s'.vvNew b a ↔ s.holds s.vvNew b a
  tried : ∀ b a, s'.holds s'.vvTried b a ↔ s.holds s.vvTried b a

omit [ByteHashing] in
theorem find_map (s : CAddrMan) (a : CNetAddr) :
    (s.find a).map (fun r => r.2.unplaced) = (s.mapAddr a).bind s.entry := by
  rw [find]
  cases s.mapAddr a with
  | none => rfl
  | some n =>
    simp only [Option.bind_eq_bind, Option.bind_some, entry]
    cases s.mapInfo[n]? <;> rfl

theorem Inv.nNew_lt (h : Inv T s none) : s.nNew < 2 ^ 31 := by
  have hle : s.newList.length ≤ s.vvNew.flatten.length := by
    rw [← List.length_map Prod.fst]
    refine List.Subperm.length_le (List.subperm_of_subset ?_ fun n hn => ?_)
    · refine List.Nodup.sublist (List.Sublist.map _ List.filter_sublist) ?_
      exact Index.nodup_map_fst_toList _
    · obtain ⟨entry, hentry, rfl⟩ := List.mem_map.mp hn
      obtain ⟨hmem, hr⟩ := List.mem_filter.mp hentry
      have hinfo := TreeMap.mem_toList_iff_getElem?_eq_some.mp hmem
      have hcount := h.tables.count_new entry.1
      rw [pending_none, refCount_of_eq (entry_of_eq hinfo)] at hcount
      change _ = entry.2.nRefCount at hcount
      have hne := of_decide_eq_true hr
      exact List.count_pos_iff.mp (by omega)
  have hflat := length_flatten_le h.tables.new_size
  rw [h.tables.new_length, ADDRMAN_NEW_BUCKET_COUNT, ADDRMAN_NEW_BUCKET_SIZE] at hflat
  have := h.length_newList
  omega

theorem Inv.nTried_lt (h : Inv T s none) : s.nTried < 2 ^ 31 := by
  have hflat := length_flatten_le h.tables.tried_size
  rw [h.tables.tried_length, ADDRMAN_TRIED_BUCKET_COUNT, ADDRMAN_TRIED_BUCKET_SIZE] at hflat
  have := h.nTried
  omega

theorem Inv.decodes_reloaded (h : Inv T s none) : Decodes unserialize s.serialize s.reloaded := by
  refine decodes_serialize ?_ h.length_newList h.length_triedList h.nNew_lt h.nTried_lt
    h.tables.new_length (fun vNew hv => ?_) fun vNew hv n hn => ?_
  · rw [h.key]
    decide
  · have := h.tables.new_size vNew hv
    rw [ADDRMAN_NEW_BUCKET_SIZE] at this
    omega
  · obtain ⟨i, info, hi, hindex⟩ := h.exists_fileIndex (List.mem_flatten.mpr ⟨vNew, hv, hn⟩)
    have hlt := (List.getElem?_eq_some_iff.mp hi).1
    have hnNew := h.nNew_lt
    rw [h.length_newList] at hnNew
    rw [hindex]
    omega

/-- A manager with the invariant that is written and read back has the invariant and the same
entries in the same buckets. -/
theorem unserialize_serialize (h : Inv T s none) :
    ∃ s', Decodes unserialize s.serialize s' ∧ Inv T s' none ∧ Restores s s' := by
  obtain ⟨s', hload, hs', hnKey, hnTried, hnNew, hall, hentry⟩ := h.reloaded
  have haddr : ∀ (a : CNetAddr) (n : Int), s'.mapAddr a = some n ↔
      ∃ (i : Nat) (m : Int) (info : CAddrInfo), n = i ∧ s.fileList[i]? = some (m, info) ∧
        s.mapAddr a = some m ∧ s'.entry n = some info.restored := by
    intro a n
    rw [hs'.directory.addr, hentry]
    split
    · next hneg =>
      refine ⟨nofun, ?_⟩
      rintro ⟨i, m, info, rfl, -⟩
      omega
    · next hneg =>
      obtain ⟨i, rfl⟩ := Int.eq_ofNat_of_zero_le (Int.not_lt.mp hneg)
      rw [Int.toNat_natCast]
      constructor
      · intro hi
        rw [Option.map_map, Option.map_eq_some_iff] at hi
        obtain ⟨⟨m, info⟩, hi, ha⟩ := hi
        have hinfo := h.mem_fileList.mp (List.mem_of_getElem? hi)
        exact ⟨i, m, info, rfl, hi, (h.consistent.addr a m).mpr ⟨info, hinfo, ha⟩, by rw [hi]; rfl⟩
      · rintro ⟨j, m, info, hij, hj, ha, -⟩
        obtain rfl := Int.ofNat_inj.mp hij
        have hinfo := h.mem_fileList.mp (List.mem_of_getElem? hj)
        obtain ⟨x, hx, hxa⟩ := (h.consistent.addr a m).mp ha
        obtain rfl := Option.some.inj (hx.symm.trans hinfo)
        rw [hj, ← hxa]
        rfl
  have hplace : ∀ (a : CNetAddr) (m : Int), s.mapAddr a = some m →
      ∃ (i : Nat) (info : CAddrInfo), s'.mapAddr a = some (i : Int) ∧
        s.fileList[i]? = some (m, info) ∧ s'.entry i = some info.restored := by
    intro a m ha
    obtain ⟨info, hinfo, -⟩ := (h.consistent.addr a m).mp ha
    obtain ⟨i, hi⟩ := List.mem_iff_getElem?.mp (h.mem_fileList.mpr hinfo)
    have hrestored : s'.entry i = some info.restored := by
      rw [hentry, if_neg (by omega), Int.toNat_natCast, hi]
      rfl
    exact ⟨i, info, (haddr a i).mpr ⟨i, m, info, rfl, hi, ha, hrestored⟩, hi, hrestored⟩
  refine ⟨s', ?_, hs', hnKey, hnTried, hnNew, fun a => ?_, fun b a => ?_, fun b a => ?_⟩
  · rw [← hload]
    exact h.decodes_reloaded
  · rw [find_map, find]
    cases ha : s.mapAddr a with
    | none =>
      cases ha' : s'.mapAddr a with
      | none => rfl
      | some n =>
        obtain ⟨i, m, info, -, -, hm, -⟩ := (haddr a n).mp ha'
        rw [ha] at hm
        cases hm
    | some m =>
      obtain ⟨i, info, ha', hi, hrestored⟩ := hplace a m ha
      have hinfo := h.mem_fileList.mp (List.mem_of_getElem? hi)
      rw [ha', Option.bind_some, hrestored]
      simp only [Option.bind_eq_bind, Option.bind_some, hinfo]
      rfl
  · constructor
    · rintro ⟨n, ha, w, hw, hn⟩
      obtain ⟨i, m, info, rfl, hi, hm, -⟩ := (haddr a n).mp ha
      obtain ⟨y, hy, hperm⟩ := exists_of_forall₂ hall hw
      obtain ⟨vNew, hv, rfl⟩ := Option.map_eq_some_iff.mp (List.getElem?_map.symm.trans hy)
      obtain ⟨k, hk, hki⟩ := List.mem_map.mp (hperm.mem_iff.mp hn)
      have hflat := List.mem_flatten.mpr ⟨vNew, List.mem_of_getElem? hv, hk⟩
      obtain rfl := (h.fileIndex_eq_iff hi hflat).mp hki
      exact ⟨k, hm, vNew, hv, hk⟩
    · rintro ⟨m, ha, vNew, hv, hm⟩
      obtain ⟨i, info, ha', hi, -⟩ := hplace a m ha
      have hflat := List.mem_flatten.mpr ⟨vNew, List.mem_of_getElem? hv, hm⟩
      have hfile : (s.vvNew.map (List.map s.fileIndex))[b]? = some (vNew.map s.fileIndex) := by
        rw [List.getElem?_map, hv]
        rfl
      obtain ⟨w, hw, hperm⟩ := exists_of_forall₂ (List.Forall₂.flip hall) hfile
      refine ⟨i, ha', w, hw, hperm.mem_iff.mpr (List.mem_map.mpr ⟨m, hm, ?_⟩)⟩
      exact (h.fileIndex_eq_iff hi hflat).mpr rfl
  · have hsame : ∀ (n m : Int) (info : CAddrInfo), s'.entry n = some info.restored →
        s.mapInfo[m]? = some info → ((∃ vTried, s'.vvTried[b]? = some vTried ∧ n ∈ vTried) ↔
          ∃ vTried, s.vvTried[b]? = some vTried ∧ m ∈ vTried) := by
      intro n m info hn hm
      obtain ⟨x, hx, hxr⟩ := exists_of_entry hn
      have hf : x.fInTried = info.fInTried := congrArg (·.fInTried) hxr
      have hservice : x.unplaced.toCService = info.restored.toCService := by rw [hxr]
      change x.toCService = info.toCService at hservice
      rw [hs'.mem_tried_iff hx, h.mem_tried_iff hm, hf, getTriedBucket_congr hservice, hnKey]
    constructor
    · rintro ⟨n, ha, hn⟩
      obtain ⟨i, m, info, -, hi, hm, hrestored⟩ := (haddr a n).mp ha
      exact ⟨m, hm, (hsame n m info hrestored (h.mem_fileList.mp (List.mem_of_getElem? hi))).mp hn⟩
    · rintro ⟨m, ha, hm⟩
      obtain ⟨i, info, ha', hi, hrestored⟩ := hplace a m ha
      exact ⟨i, ha',
        (hsame i m info hrestored (h.mem_fileList.mp (List.mem_of_getElem? hi))).mpr hm⟩

end

namespace AddrManSample

scoped instance hashing : ByteHashing := ⟨fun bytes => ((bytes.map UInt8.toNat).sum : Nat)⟩

def addr (n : UInt8) (nTime : UInt32) : CAddress :=
  ⟨⟨⟨⟨pchIPv4 ++ [250, 1, 1, n], rfl⟩⟩, 13333⟩, 1, nTime, 0⟩

def source (n : UInt8) : CNetAddr := ⟨⟨pchIPv4 ++ [250, n, 2, 1], rfl⟩⟩

/-- Three addresses from one source, one of them from another source as well, and one that is good. -/
def filled : Option CAddrMan := do
  let r ← (init IdSample.nKey).add 1700000000 (fun _ _ => 0)
    [addr 1 1700000000, addr 2 1700000000, addr 3 1700000000] (source 1) 0
  let r ← r.1.add 1700000000 (fun _ _ => 0) [addr 1 1700000100] (source 2) 0
  r.1.good (fun _ => 0) (addr 3 0).toCService 1700000000

theorem inv_of_add {s : CAddrMan} {r : CAddrMan × Nat} {nNow : Int} {rnd : Nat → Nat → Nat}
    {vAddr : List CAddress} {source : CNetAddr} {nTimePenalty : Int} (hs : Inv True s none)
    (h : s.add nNow rnd vAddr source nTimePenalty = some r) : Inv True r.1 none := by
  obtain ⟨r', hr', hinv⟩ := hs.add nNow rnd vAddr source nTimePenalty (idsLast_of_add h)
  obtain rfl := Option.some.inj (h.symm.trans hr')
  exact hinv

theorem inv_filled {s : CAddrMan} (h : filled = some s) : Inv True s none := by
  rw [filled] at h
  obtain ⟨r1, h1, h⟩ := Option.bind_eq_some_iff.mp h
  obtain ⟨r2, h2, h⟩ := Option.bind_eq_some_iff.mp h
  have hr1 := inv_of_add (.init IdSample.nKey) h1
  have hr2 := inv_of_add hr1 h2
  obtain ⟨s', hs', hinv⟩ := hr2.good (fun _ => 0) (addr 3 0).toCService 1700000000
    (fun _ => by decide)
  obtain rfl := Option.some.inj (h.symm.trans hs')
  exact hinv

theorem unserialize_serialize_sample : ∃ s, filled = some s ∧
    s.nTried = 1 ∧ s.nNew = 2 ∧ s.vvNew.countP (fun vNew => decide (0 ∈ vNew)) = 2 ∧
      ∃ s', Decodes unserialize s.serialize s' ∧ Inv True s' none ∧ Restores s s' := by
  have hfilled : filled.map (fun s =>
      (s.nTried, s.nNew, s.vvNew.countP fun vNew => decide (0 ∈ vNew))) = some (1, 2, 2) := by
    decide +kernel
  obtain ⟨s, hs, hvalues⟩ := Option.map_eq_some_iff.mp hfilled
  obtain ⟨hnTried, hvalues⟩ := Prod.mk.inj hvalues
  obtain ⟨hnNew, hboth⟩ := Prod.mk.inj hvalues
  exact ⟨s, hs, hnTried, hnNew, hboth, unserialize_serialize (inv_filled hs)⟩

end AddrManSample

end CAddrMan

end Terracoin
