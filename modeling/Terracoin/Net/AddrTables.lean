import Terracoin.Net.AddrMan

/-!
# The tables of the address manager

`Tables` says how the "new" and the "tried" buckets agree with the entries: an entry is in one
tried bucket, its own, or in as many new buckets as it has references. It speaks of the entries as
a function of the id, and each lemma below is one change of the tables together with the change of
the entry that goes with it: a reference is taken (`Tables.insert`), dropped (`Tables.drop`), all
references are replaced by a place in a tried bucket (`Tables.promote`, `Tables.replaceTried`).
-/

namespace Terracoin

open Buckets

/-- The entry but for its position in `vRandom`. -/
def CAddrInfo.unplaced (info : CAddrInfo) : CAddrInfo := { info with nRandomPos := 0 }

namespace AddrTables

section

variable {e : Int → Option CAddrInfo} {n m : Int} {info : CAddrInfo}

/-! ## What the tables know of an entry -/

def refCount (e : Int → Option CAddrInfo) (n : Int) : Int := ((e n).map (·.nRefCount)).getD 0

def inTried (e : Int → Option CAddrInfo) (n : Int) : Bool := ((e n).map (·.fInTried)).getD false

theorem refCount_of_eq (h : e n = some info) : refCount e n = info.nRefCount := by
  rw [refCount, h]
  rfl

theorem inTried_of_eq (h : e n = some info) : inTried e n = info.fInTried := by
  rw [inTried, h]
  rfl

@[simp] theorem refCount_update (x : Option CAddrInfo) :
    refCount (Function.update e n x) m =
      if m = n then (x.map (·.nRefCount)).getD 0 else refCount e m := by
  rw [refCount, Function.update_apply]
  split <;> rfl

@[simp] theorem inTried_update (x : Option CAddrInfo) :
    inTried (Function.update e n x) m =
      if m = n then (x.map (·.fInTried)).getD false else inTried e m := by
  rw [inTried, Function.update_apply]
  split <;> rfl

end

/-- The reference that an entry counts before it is in a bucket. -/
def pending (extra : Option Int) (n : Int) : Int := if extra = some n then 1 else 0

@[simp] theorem pending_none (n : Int) : pending none n = 0 := if_neg nofun

@[simp] theorem pending_some (n m : Int) : pending (some n) m = if m = n then 1 else 0 := by
  simp only [pending, Option.some.injEq, eq_comm]

theorem pending_nonneg (extra : Option Int) (n : Int) : 0 ≤ pending extra n := by
  rw [pending]
  split <;> decide

/-- A tried entry has no references, another one has one to four. -/
def RefsOk (info : CAddrInfo) : Prop :=
  if info.fInTried then info.nRefCount = 0
  else 1 ≤ info.nRefCount ∧ info.nRefCount ≤ ADDRMAN_NEW_BUCKETS_PER_ADDRESS

/-- How the new buckets agree with the reference counts. The entry `extra` has counted a reference
that is not yet in a bucket. -/
structure NewTable (e : Int → Option CAddrInfo) (vvNew : List (List Int)) (extra : Option Int) :
    Prop where
  new_length : vvNew.length = ADDRMAN_NEW_BUCKET_COUNT
  new_size : ∀ vNew ∈ vvNew, vNew.length ≤ ADDRMAN_NEW_BUCKET_SIZE
  new_nodup : ∀ vNew ∈ vvNew, vNew.Nodup
  count_new : ∀ n, (vvNew.flatten.count n : Int) + pending extra n = refCount e n

/-- How the tried buckets agree with the tried entries. -/
structure TriedTable [ByteHashing] (nKey : List UInt8) (e : Int → Option CAddrInfo)
    (vvTried : List (List Int)) : Prop where
  tried_length : vvTried.length = ADDRMAN_TRIED_BUCKET_COUNT
  tried_size : ∀ vTried ∈ vvTried, vTried.length ≤ ADDRMAN_TRIED_BUCKET_SIZE
  count_tried : ∀ n, vvTried.flatten.count n = if inTried e n then 1 else 0
  place : ∀ b vTried n info, vvTried[b]? = some vTried → n ∈ vTried → e n = some info →
    info.getTriedBucket nKey = b

structure Tables [ByteHashing] (nKey : List UInt8) (e : Int → Option CAddrInfo)
    (vvTried vvNew : List (List Int)) (extra : Option Int) : Prop
    extends NewTable e vvNew extra, TriedTable nKey e vvTried where
  refs : ∀ n info, e n = some info → RefsOk info

variable {e e' : Int → Option CAddrInfo} {vvTried vvNew : List (List Int)} {extra : Option Int}
  {n m : Int} {info info' : CAddrInfo} {b : Nat} {bucket vTried vNew : List Int}

/-! ## The new table -/

namespace NewTable

theorem congr (h : NewTable e vvNew extra) (he : ∀ n, refCount e' n = refCount e n) :
    NewTable e' vvNew extra :=
  { h with count_new := fun n => (h.count_new n).trans (he n).symm }

theorem refCount_pos (h : NewTable e vvNew extra) (hb : vvNew[b]? = some vNew) (hn : n ∈ vNew) :
    1 ≤ refCount e n := by
  have hpos := List.count_pos_iff.mpr (mem_flatten_iff.mpr ⟨b, vNew, hb, hn⟩)
  have hcount := h.count_new n
  have hpending := pending_nonneg extra n
  omega

theorem replicate (h : ∀ n, refCount e n = 0) :
    NewTable e (List.replicate ADDRMAN_NEW_BUCKET_COUNT []) none := by
  refine ⟨List.length_replicate, fun vNew hv => ?_, fun vNew hv => ?_, fun n => ?_⟩
  · rw [List.eq_of_mem_replicate hv]
    exact Nat.zero_le _
  · rw [List.eq_of_mem_replicate hv]
    exact List.nodup_nil
  · rw [List.flatten_replicate_nil, h]
    rfl

theorem exists_bucket (h : NewTable e vvNew extra) (hb : b < ADDRMAN_NEW_BUCKET_COUNT) :
    ∃ vNew, vvNew[b]? = some vNew := by
  rw [← h.new_length] at hb
  exact ⟨vvNew[b], List.getElem?_eq_getElem hb⟩

theorem countRef (h : NewTable e vvNew none) (hr : info'.nRefCount = refCount e n + 1) :
    NewTable (Function.update e n (some info')) vvNew (some n) := by
  refine { h with count_new := fun m => ?_ }
  have hm' := h.count_new m
  rw [pending_none, Int.add_zero] at hm'
  rw [refCount_update, hm', pending_some]
  by_cases hm : m = n
  · rw [if_pos hm, if_pos hm, hm, Option.map_some, Option.getD_some, hr]
  · rw [if_neg hm, if_neg hm, Int.add_zero]

/-- The counted reference comes into its bucket. -/
theorem insert (h : NewTable e vvNew (some n)) (hb : vvNew[b]? = some vNew) (hn : n ∉ vNew)
    (hlt : vNew.length < ADDRMAN_NEW_BUCKET_SIZE) :
    NewTable e (vvNew.modify b (setInsert n)) none := by
  refine ⟨?_, ?_, ?_, fun m => ?_⟩
  · rw [List.length_modify, h.new_length]
  · refine forall_modify h.new_size fun x hx => ?_
    obtain rfl := Option.some.inj (hb.symm.trans hx)
    rw [length_setInsert hn]
    exact hlt
  · exact forall_modify h.new_nodup fun x hx =>
      nodup_setInsert (h.new_nodup x (List.mem_of_getElem? hx))
  · have hcount := count_flatten_modify m (setInsert n) hb
    have hm := h.count_new m
    rw [count_setInsert hn] at hcount
    rw [pending_some] at hm
    rw [pending_none]
    by_cases hmn : m = n
    · rw [if_pos hmn] at hcount hm
      omega
    · rw [if_neg hmn] at hcount hm
      omega

/-- A reference is dropped. -/
theorem drop (h : NewTable e vvNew extra) (hb : vvNew[b]? = some vNew) (hn : n ∈ vNew)
    {x : Option CAddrInfo} (hx : (x.map (·.nRefCount)).getD 0 = refCount e n - 1) :
    NewTable (Function.update e n x) (vvNew.modify b (List.erase · n)) extra := by
  refine ⟨?_, ?_, ?_, fun m => ?_⟩
  · rw [List.length_modify, h.new_length]
  · exact forall_modify h.new_size fun y hy =>
      List.length_erase_le.trans (h.new_size y (List.mem_of_getElem? hy))
  · exact forall_modify h.new_nodup fun y hy => (h.new_nodup y (List.mem_of_getElem? hy)).erase n
  · have hcount := count_flatten_modify m (List.erase · n) hb
    have hm := h.count_new m
    have hnodup := h.new_nodup vNew (List.mem_of_getElem? hb)
    rw [refCount_update]
    by_cases hmn : m = n
    · subst hmn
      rw [if_pos rfl, hx]
      rw [List.count_eq_one_of_mem hnodup hn,
        List.count_eq_zero_of_not_mem hnodup.not_mem_erase] at hcount
      omega
    · rw [if_neg hmn]
      rw [List.count_erase_of_ne hmn] at hcount
      omega

theorem eraseAll (h : NewTable e vvNew none) (hr : info'.nRefCount = 0) :
    NewTable (Function.update e n (some info')) (vvNew.map (List.erase · n)) none := by
  refine ⟨?_, ?_, ?_, fun m => ?_⟩
  · rw [List.length_map, h.new_length]
  · intro x hx
    obtain ⟨y, hy, rfl⟩ := List.mem_map.mp hx
    exact List.length_erase_le.trans (h.new_size y hy)
  · intro x hx
    obtain ⟨y, hy, rfl⟩ := List.mem_map.mp hx
    exact (h.new_nodup y hy).erase n
  · have hm := h.count_new m
    rw [pending_none, Int.add_zero] at hm
    rw [count_flatten_map_erase h.new_nodup, refCount_update, pending_none, Int.add_zero]
    split
    · rw [Option.map_some, Option.getD_some, hr]
      rfl
    · exact hm

theorem addRef (h : NewTable e vvNew none) (hr : refCount e n = 0) (hr' : info'.nRefCount = 1)
    (hb : vvNew[b]? = some vNew) (hlt : vNew.length < ADDRMAN_NEW_BUCKET_SIZE) :
    NewTable (Function.update e n (some info')) (vvNew.modify b (setInsert n)) none := by
  refine (h.countRef (n := n) (by omega)).insert hb (fun hn => ?_) hlt
  have := h.refCount_pos hb hn
  omega

end NewTable

/-! ## The tried table -/

variable [ByteHashing] {nKey : List UInt8}

theorem getTriedBucket_congr (h : info'.toCService = info.toCService) :
    info'.getTriedBucket nKey = info.getTriedBucket nKey := by
  unfold CAddrInfo.getTriedBucket
  rw [h]

namespace TriedTable

theorem replicate (h : ∀ n, inTried e n = false) :
    TriedTable nKey e (List.replicate ADDRMAN_TRIED_BUCKET_COUNT []) := by
  refine ⟨List.length_replicate, fun vTried hv => ?_, fun n => ?_, fun b vTried n info hb hn _ => ?_⟩
  · rw [List.eq_of_mem_replicate hv]
    exact Nat.zero_le _
  · rw [List.flatten_replicate_nil, h]
    rfl
  · rw [List.eq_of_mem_replicate (List.mem_of_getElem? hb)] at hn
    cases hn

theorem exists_tried_bucket (h : TriedTable nKey e vvTried) (hb : b < ADDRMAN_TRIED_BUCKET_COUNT) :
    ∃ vTried, vvTried[b]? = some vTried := by
  rw [← h.tried_length] at hb
  exact ⟨vvTried[b], List.getElem?_eq_getElem hb⟩

theorem inTried_of_mem (h : TriedTable nKey e vvTried) (hb : vvTried[b]? = some vTried)
    (hn : n ∈ vTried) : inTried e n = true := by
  have hpos := List.count_pos_iff.mpr (mem_flatten_iff.mpr ⟨b, vTried, hb, hn⟩)
  by_contra hne
  rw [h.count_tried n, if_neg hne] at hpos
  exact absurd hpos (Nat.lt_irrefl 0)

theorem nodup (h : TriedTable nKey e vvTried) : vvTried.flatten.Nodup := by
  rw [List.nodup_iff_count_le_one]
  intro n
  rw [h.count_tried n]
  split <;> decide

/-- One bucket changes together with the entries. -/
theorem setBucket (h : TriedTable nKey e vvTried) (hb : vvTried[b]? = some vTried)
    (hsize : bucket.length ≤ ADDRMAN_TRIED_BUCKET_SIZE)
    (hcount : ∀ n, bucket.count n + (if inTried e n then 1 else 0) =
      vTried.count n + if inTried e' n then 1 else 0)
    (hplace : ∀ n ∈ bucket, ∀ info, e' n = some info → info.getTriedBucket nKey = b)
    (hservice : ∀ n info', inTried e n = true → e' n = some info' →
      ∃ info, e n = some info ∧ info'.toCService = info.toCService) :
    TriedTable nKey e' (vvTried.set b bucket) := by
  rw [List.set_eq_modify]
  refine ⟨?_, ?_, fun n => ?_, fun b' x n info' hb' hn hn' => ?_⟩
  · rw [List.length_modify, h.tried_length]
  · exact forall_modify h.tried_size fun _ _ => hsize
  · have hchange := count_flatten_modify n (fun _ => bucket) hb
    have := h.count_tried n
    have := hcount n
    omega
  · by_cases hbb : b' = b
    · subst hbb
      rw [List.getElem?_modify_eq, hb] at hb'
      obtain rfl : bucket = x := Option.some.inj hb'
      exact hplace n hn info' hn'
    · rw [List.getElem?_modify_ne _ _ (Ne.symm hbb)] at hb'
      obtain ⟨info, hinfo, heq⟩ := hservice n info' (h.inTried_of_mem hb' hn) hn'
      rw [getTriedBucket_congr heq]
      exact h.place b' x n info hb' hn hinfo

theorem congr (h : TriedTable nKey e vvTried) (he : ∀ n, inTried e' n = inTried e n)
    (hservice : ∀ n info', inTried e n = true → e' n = some info' →
      ∃ info, e n = some info ∧ info'.toCService = info.toCService) :
    TriedTable nKey e' vvTried := by
  refine { h with count_tried := fun n => ?_, place := fun b x n info' hb hn hn' => ?_ }
  · rw [h.count_tried n, he]
  · obtain ⟨info, hinfo, heq⟩ := hservice n info' (h.inTried_of_mem hb hn) hn'
    rw [getTriedBucket_congr heq]
    exact h.place b x n info hb hn hinfo

theorem congr_new (h : TriedTable nKey e vvTried) (hn : inTried e n = false) {x : Option CAddrInfo}
    (hx : (x.map (·.fInTried)).getD false = false) :
    TriedTable nKey (Function.update e n x) vvTried := by
  refine h.congr (fun m => ?_) fun m info' hm hm' => ?_
  · rw [inTried_update]
    split
    · next heq => rw [hx, heq, hn]
    · rfl
  · by_cases hmn : m = n
    · rw [hmn, hn] at hm
      cases hm
    · rw [Function.update_of_ne hmn] at hm'
      exact ⟨info', hm', rfl⟩

/-- There is place for an entry in its bucket. -/
theorem add (h : TriedTable nKey e vvTried) (he : e n = some info) (hf : info.fInTried = false)
    (hf' : info'.fInTried = true) (hservice : info'.toCService = info.toCService)
    (hb : vvTried[info.getTriedBucket nKey]? = some vTried)
    (hlt : vTried.length < ADDRMAN_TRIED_BUCKET_SIZE) :
    TriedTable nKey (Function.update e n (some info'))
      (vvTried.set (info.getTriedBucket nKey) (vTried ++ [n])) := by
  have hnew : inTried e n = false := (inTried_of_eq he).trans hf
  refine h.setBucket hb ?_ (fun m => ?_) (fun m hm x hx => ?_) fun m x hm hx => ?_
  · rw [List.length_append]
    exact hlt
  · rw [List.count_append, List.count_singleton, inTried_update]
    by_cases hmn : m = n
    · subst hmn
      rw [hnew, if_pos rfl, Option.map_some, Option.getD_some, hf']
      simp
    · rw [if_neg hmn, if_neg (by simpa using Ne.symm hmn)]
      omega
  · by_cases hmn : m = n
    · rw [hmn, Function.update_self] at hx
      obtain rfl := Option.some.inj hx
      rw [getTriedBucket_congr hservice]
    · rw [Function.update_of_ne hmn] at hx
      rw [List.mem_append, List.mem_singleton, or_iff_left hmn] at hm
      exact h.place _ vTried m x hb hm hx
  · by_cases hmn : m = n
    · rw [hmn, hnew] at hm
      cases hm
    · rw [Function.update_of_ne hmn] at hx
      exact ⟨x, hx, rfl⟩

/-- An entry takes the place of another one in its bucket. -/
theorem replace {nOld : Int} {old old' : CAddrInfo} {pos : Nat} (h : TriedTable nKey e vvTried)
    (he : e n = some info) (hf : info.fInTried = false) (hf' : info'.fInTried = true)
    (hservice : info'.toCService = info.toCService)
    (hb : vvTried[info.getTriedBucket nKey]? = some vTried) (hperm : bucket.Perm vTried)
    (hpos : bucket[pos]? = some nOld) (hold : e nOld = some old) (hold' : old'.fInTried = false)
    (hservice' : old'.toCService = old.toCService) :
    TriedTable nKey (Function.update (Function.update e nOld (some old')) n (some info'))
      (vvTried.set (info.getTriedBucket nKey) (bucket.set pos n)) := by
  obtain ⟨hlt, hget⟩ := List.getElem?_eq_some_iff.mp hpos
  have hmemOld : nOld ∈ vTried := hperm.mem_iff.mp (List.mem_of_getElem? hpos)
  have htriedOld := h.inTried_of_mem hb hmemOld
  have hnew : inTried e n = false := (inTried_of_eq he).trans hf
  have hne : n ≠ nOld := by
    rintro rfl
    rw [hnew] at htriedOld
    cases htriedOld
  refine h.setBucket hb ?_ (fun m => ?_) (fun m hm x hx => ?_) fun m x hm hx => ?_
  · rw [List.length_set, hperm.length_eq]
    exact h.tried_size vTried (List.mem_of_getElem? hb)
  · have hin := List.count_pos_iff.mpr (List.mem_of_getElem? hpos)
    rw [List.count_set hlt, hget, inTried_update, inTried_update, hperm.count_eq]
    rw [hperm.count_eq] at hin
    by_cases hmn : m = n
    · subst hmn
      have hbeq : ¬ (nOld == m) = true := by simpa using hne.symm
      rw [hnew, if_pos rfl, Option.map_some, Option.getD_some, hf', beq_self_eq_true, if_pos rfl,
        if_neg Bool.false_ne_true, if_neg hbeq]
      omega
    · have hbeq : ¬ (n == m) = true := by simpa using Ne.symm hmn
      rw [if_neg hmn, if_neg hbeq]
      by_cases hmo : m = nOld
      · subst hmo
        rw [htriedOld, if_pos rfl, beq_self_eq_true, if_pos rfl, if_pos rfl, Option.map_some,
          Option.getD_some, hold', if_neg Bool.false_ne_true]
        omega
      · have hbeq' : ¬ (nOld == m) = true := by simpa using Ne.symm hmo
        rw [if_neg hmo, if_neg hbeq']
        omega
  · by_cases hmn : m = n
    · rw [hmn, Function.update_self] at hx
      obtain rfl := Option.some.inj hx
      rw [getTriedBucket_congr hservice]
    · rw [Function.update_of_ne hmn] at hx
      have hmem : m ∈ vTried := by
        rcases List.mem_or_eq_of_mem_set hm with hm | hm
        · exact hperm.mem_iff.mp hm
        · exact absurd hm hmn
      by_cases hmo : m = nOld
      · rw [hmo, Function.update_self] at hx
        obtain rfl := Option.some.inj hx
        rw [getTriedBucket_congr hservice']
        exact h.place _ vTried nOld old hb hmemOld hold
      · rw [Function.update_of_ne hmo] at hx
        exact h.place _ vTried m x hb hmem hx
  · by_cases hmn : m = n
    · rw [hmn, hnew] at hm
      cases hm
    · rw [Function.update_of_ne hmn] at hx
      by_cases hmo : m = nOld
      · rw [hmo, Function.update_self] at hx
        obtain rfl := Option.some.inj hx
        exact ⟨old, hmo ▸ hold, hservice'⟩
      · rw [Function.update_of_ne hmo] at hx
        exact ⟨x, hx, rfl⟩

end TriedTable

/-! ## Both tables -/

namespace Tables

omit [ByteHashing] in
theorem refsOk_update {x : Option CAddrInfo} (h : ∀ n info, e n = some info → RefsOk info)
    (hx : ∀ info ∈ x, RefsOk info) :
    ∀ m info, Function.update e n x m = some info → RefsOk info := by
  intro m info hm
  rw [Function.update_apply] at hm
  split at hm
  · exact hx info hm
  · exact h m info hm

/-- What is in a new bucket is the id of an entry that is not tried. -/
theorem of_mem_new (h : Tables nKey e vvTried vvNew extra) (hb : vvNew[b]? = some vNew)
    (hn : n ∈ vNew) : ∃ info, e n = some info ∧ info.fInTried = false ∧ 1 ≤ info.nRefCount := by
  have hpos := h.refCount_pos hb hn
  cases he : e n with
  | none =>
    rw [refCount, he, Option.map_none, Option.getD_none] at hpos
    omega
  | some info =>
    have hrefs := h.refs n info he
    rw [refCount_of_eq he] at hpos
    rw [RefsOk] at hrefs
    refine ⟨info, rfl, ?_, hpos⟩
    cases hf : info.fInTried with
    | false => rfl
    | true =>
      rw [if_pos hf] at hrefs
      omega

theorem of_mem_tried (h : Tables nKey e vvTried vvNew extra) (hb : vvTried[b]? = some vTried)
    (hn : n ∈ vTried) : ∃ info, e n = some info ∧ info.fInTried = true := by
  have htried := h.inTried_of_mem hb hn
  cases he : e n with
  | none =>
    rw [inTried, he] at htried
    cases htried
  | some info => exact ⟨info, rfl, (inTried_of_eq he).symm.trans htried⟩

/-- An entry changes in what the tables do not know. -/
theorem congr_entry (h : Tables nKey e vvTried vvNew extra) (he : e n = some info)
    (hservice : info'.toCService = info.toCService) (hf : info'.fInTried = info.fInTried)
    (hr : info'.nRefCount = info.nRefCount) :
    Tables nKey (Function.update e n (some info')) vvTried vvNew extra := by
  have hrefCount : ∀ m, refCount (Function.update e n (some info')) m = refCount e m := fun m => by
    rw [refCount_update]
    split
    · next hm => rw [hm, refCount_of_eq he, Option.map_some, Option.getD_some, hr]
    · rfl
  have hnew := h.toNewTable.congr hrefCount
  refine { hnew, h.toTriedTable.congr (fun m => ?_) (fun m x hm hx => ?_) with refs := ?_ }
  · rw [inTried_update]
    split
    · next hm => rw [hm, inTried_of_eq he, Option.map_some, Option.getD_some, hf]
    · rfl
  · by_cases hmn : m = n
    · rw [hmn, Function.update_self] at hx
      obtain rfl := Option.some.inj hx
      exact ⟨info, hmn ▸ he, hservice⟩
    · rw [Function.update_of_ne hmn] at hx
      exact ⟨x, hx, rfl⟩
  · refine refsOk_update h.refs fun x hx => ?_
    obtain rfl := Option.some.inj hx
    have := h.refs n info he
    rwa [RefsOk, ← hf, ← hr] at this

theorem countRef (h : Tables nKey e vvTried vvNew none) (htried : inTried e n = false)
    (hr : info'.nRefCount = refCount e n + 1) (hf : info'.fInTried = false)
    (hle : info'.nRefCount ≤ ADDRMAN_NEW_BUCKETS_PER_ADDRESS) :
    Tables nKey (Function.update e n (some info')) vvTried vvNew (some n) := by
  have hcount := h.count_new n
  rw [pending_none] at hcount
  refine { h.toNewTable.countRef hr, h.toTriedTable.congr_new htried (x := some info') hf with refs := ?_ }
  refine refsOk_update h.refs fun x hx => ?_
  obtain rfl := Option.some.inj hx
  rw [RefsOk, if_neg (by rw [hf]; exact Bool.false_ne_true)]
  omega

theorem insert (h : Tables nKey e vvTried vvNew (some n)) (hb : vvNew[b]? = some vNew)
    (hn : n ∉ vNew) (hlt : vNew.length < ADDRMAN_NEW_BUCKET_SIZE) :
    Tables nKey e vvTried (vvNew.modify b (setInsert n)) none :=
  { h.toNewTable.insert hb hn hlt, h.toTriedTable with refs := h.refs }

/-- A reference is dropped, and the entry as well if it has no other one. -/
theorem drop (h : Tables nKey e vvTried vvNew extra) (he : e n = some info)
    (hb : vvNew[b]? = some vNew) (hn : n ∈ vNew) :
    Tables nKey (Function.update e n (if info.nRefCount - 1 = 0 then none
      else some { info with nRefCount := info.nRefCount - 1 })) vvTried
      (vvNew.modify b (List.erase · n)) extra := by
  obtain ⟨found, hfound, hf, hpos⟩ := h.of_mem_new hb hn
  obtain rfl := Option.some.inj (he.symm.trans hfound)
  have hrefs := h.refs n info he
  rw [RefsOk, if_neg (by rw [hf]; exact Bool.false_ne_true)] at hrefs
  have htried : inTried e n = false := (inTried_of_eq he).trans hf
  by_cases hlast : info.nRefCount - 1 = 0
  · rw [if_pos hlast]
    refine { h.toNewTable.drop hb hn (x := none) ?_, h.toTriedTable.congr_new htried rfl with
      refs := refsOk_update h.refs nofun }
    rw [refCount_of_eq he, hlast]
    rfl
  · rw [if_neg hlast]
    have hnew := h.toNewTable.drop hb hn (x := some { info with nRefCount := info.nRefCount - 1 })
      (refCount_of_eq he ▸ rfl)
    have hold := h.toTriedTable.congr_new htried
      (x := some { info with nRefCount := info.nRefCount - 1 }) hf
    refine { hnew, hold with refs := refsOk_update h.refs fun x hx => ?_ }
    obtain rfl := Option.some.inj hx
    rw [RefsOk, if_neg (by rw [hf]; exact Bool.false_ne_true)]
    dsimp only
    omega

theorem promote (h : Tables nKey e vvTried vvNew none) (he : e n = some info)
    (hf : info.fInTried = false) (hf' : info'.fInTried = true) (hr' : info'.nRefCount = 0)
    (hservice : info'.toCService = info.toCService)
    (hb : vvTried[info.getTriedBucket nKey]? = some vTried)
    (hlt : vTried.length < ADDRMAN_TRIED_BUCKET_SIZE) :
    Tables nKey (Function.update e n (some info'))
      (vvTried.set (info.getTriedBucket nKey) (vTried ++ [n])) (vvNew.map (List.erase · n)) none := by
  refine { h.toNewTable.eraseAll hr', h.toTriedTable.add he hf hf' hservice hb hlt with
    refs := refsOk_update h.refs fun x hx => ?_ }
  obtain rfl := Option.some.inj hx
  rw [RefsOk, if_pos hf', hr']

/-- All references of an entry are replaced by the place of another entry in its tried bucket, which
gets a reference. -/
theorem promoteEvict {nOld : Int} {old old' : CAddrInfo} {pos : Nat}
    (h : Tables nKey e vvTried vvNew none) (he : e n = some info)
    (hf : info.fInTried = false) (hf' : info'.fInTried = true) (hr' : info'.nRefCount = 0)
    (hservice : info'.toCService = info.toCService)
    (hb : vvTried[info.getTriedBucket nKey]? = some vTried) (hperm : bucket.Perm vTried)
    (hpos : bucket[pos]? = some nOld) (hold : e nOld = some old) (hold' : old'.fInTried = false)
    (hrold : old'.nRefCount = 1) (hservice' : old'.toCService = old.toCService)
    (hbNew : (vvNew.map (List.erase · n))[b]? = some vNew)
    (hlt : vNew.length < ADDRMAN_NEW_BUCKET_SIZE) :
    Tables nKey (Function.update (Function.update e nOld (some old')) n (some info'))
      (vvTried.set (info.getTriedBucket nKey) (bucket.set pos n))
      ((vvNew.map (List.erase · n)).modify b (setInsert nOld)) none := by
  have htriedOld := h.inTried_of_mem hb (hperm.mem_iff.mp (List.mem_of_getElem? hpos))
  have hne : nOld ≠ n := by
    rintro rfl
    rw [inTried_of_eq he, hf] at htriedOld
    cases htriedOld
  have hnew : NewTable (Function.update (Function.update e nOld (some old')) n (some info'))
      ((vvNew.map (List.erase · n)).modify b (setInsert nOld)) none := by
    rw [Function.update_comm hne]
    refine (h.toNewTable.eraseAll hr').addRef ?_ hrold hbNew hlt
    have hrefs := h.refs nOld old hold
    rw [RefsOk, if_pos ((inTried_of_eq hold).symm.trans htriedOld)] at hrefs
    rw [refCount_update, if_neg hne, refCount_of_eq hold, hrefs]
  refine { hnew, h.toTriedTable.replace he hf hf' hservice hb hperm hpos hold hold' hservice' with
    refs := refsOk_update (refsOk_update h.refs fun x hx => ?_) fun x hx => ?_ }
  · obtain rfl := Option.some.inj hx
    rw [RefsOk, if_neg (by rw [hold']; exact Bool.false_ne_true), hrold]
    decide
  · obtain rfl := Option.some.inj hx
    rw [RefsOk, if_pos hf', hr']

end Tables

end AddrTables

end Terracoin
