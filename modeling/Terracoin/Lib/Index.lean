import Mathlib.Data.List.Basic

/-!
# Indexes

An index holds, under every key, the records that have this key, by their identifiers. It is kept
up to date by adding and removing a record under each of its keys; removing the last record of a
key removes the key. Looking a key up the way C++ does, with `operator[]`, makes an empty entry for
a key that is not there (`touch`); the other operations do not.
-/

open Std (TreeMap TransCmp TransOrd LawfulEqOrd)

abbrev Index (κ ι ν : Type) [Ord κ] [Ord ι] : Type := TreeMap κ (TreeMap ι ν)

namespace Index

theorem nodup_map_fst_toList {κ ν : Type} {cmp : κ → κ → Ordering} [TransCmp cmp]
    (m : TreeMap κ ν cmp) : (m.toList.map Prod.fst).Nodup := by
  rw [TreeMap.map_fst_toList_eq_keys]
  exact TreeMap.nodup_keys

variable {κ ι ν : Type} [Ord κ] [Ord ι]

/-- The record with identifier `i` under the key `k`. -/
def lookup (m : Index κ ι ν) (k : κ) (i : ι) : Option ν := (m.getD k ∅)[i]?

/-- Add a record under a key; one that is there already is kept. -/
def add (i : ι) (v : ν) (m : Index κ ι ν) (k : κ) : Index κ ι ν :=
  m.insert k ((m.getD k ∅).insertIfNew i v)

/-- Remove a record under a key, and the key with its last record. -/
def remove (i : ι) (m : Index κ ι ν) (k : κ) : Index κ ι ν :=
  let records := (m.getD k ∅).erase i
  if records.isEmpty then m.erase k else m.insert k records

/-- Look a key up, making an empty entry for one that is not there. -/
def touch (m : Index κ ι ν) (k : κ) : Index κ ι ν := m.insertIfNew k ∅

def NoEmpty (m : Index κ ι ν) : Prop :=
  ∀ (k : κ) (records : TreeMap ι ν), m[k]? = some records → records.isEmpty = false

section

variable [TransOrd κ] {m : Index κ ι ν}

theorem noEmpty_empty : NoEmpty (∅ : Index κ ι ν) := by
  intro k records h
  rw [TreeMap.getElem?_emptyc] at h
  cases h

theorem lookup_empty [TransOrd ι] (k : κ) (i : ι) : lookup (∅ : Index κ ι ν) k i = none := by
  rw [lookup, TreeMap.getD_emptyc, TreeMap.getElem?_emptyc]

theorem noEmpty_add [TransOrd ι] (h : NoEmpty m) (i : ι) (v : ν) (k : κ) : NoEmpty (m.add i v k) := by
  intro k' records hget
  rw [add, TreeMap.getElem?_insert] at hget
  split at hget
  · obtain rfl := Option.some.inj hget
    exact TreeMap.isEmpty_insertIfNew
  · exact h k' records hget

theorem noEmpty_remove (h : NoEmpty m) (i : ι) (k : κ) : NoEmpty (m.remove i k) := by
  intro k' records hget
  rw [remove] at hget
  split at hget
  · rw [TreeMap.getElem?_erase] at hget
    split at hget
    · cases hget
    · exact h k' records hget
  · rename_i hne
    rw [TreeMap.getElem?_insert] at hget
    split at hget
    · obtain rfl := Option.some.inj hget
      exact Bool.eq_false_iff.mpr hne
    · exact h k' records hget

theorem NoEmpty.mem_iff [TransOrd ι] (h : NoEmpty m) {k : κ} :
    k ∈ m ↔ ∃ i v, m.lookup k i = some v := by
  constructor
  · intro hk
    obtain ⟨records, hget⟩ := Option.isSome_iff_exists.mp (TreeMap.mem_iff_isSome_getElem?.mp hk)
    obtain ⟨i, hi⟩ := TreeMap.isEmpty_eq_false_iff_exists_mem.mp (h k records hget)
    obtain ⟨v, hv⟩ := Option.isSome_iff_exists.mp (TreeMap.mem_iff_isSome_getElem?.mp hi)
    refine ⟨i, v, ?_⟩
    rw [lookup, TreeMap.getD_eq_getD_getElem?, hget, Option.getD_some, hv]
  · rintro ⟨i, v, hv⟩
    by_contra hk
    rw [lookup, TreeMap.getD_eq_fallback hk, TreeMap.getElem?_emptyc] at hv
    cases hv

theorem noEmpty_iff [TransOrd ι] :
    NoEmpty m ↔ ∀ k, k ∈ m → ∃ i v, m.lookup k i = some v := by
  constructor
  · exact fun h k hk => h.mem_iff.mp hk
  · intro h k records hget
    obtain ⟨i, v, hv⟩ := h k (TreeMap.mem_iff_isSome_getElem?.mpr (by rw [hget]; rfl))
    rw [lookup, TreeMap.getD_eq_getD_getElem?, hget, Option.getD_some] at hv
    exact TreeMap.isEmpty_eq_false_iff_exists_mem.mpr
      ⟨i, TreeMap.mem_iff_isSome_getElem?.mpr (by rw [hv]; rfl)⟩

end

variable [TransOrd κ] [LawfulEqOrd κ] {m : Index κ ι ν}

theorem lookup_insert [DecidableEq κ] (records : TreeMap ι ν) (k k' : κ) (i : ι) :
    Index.lookup (m.insert k records) k' i = if k = k' then records[i]? else m.lookup k' i := by
  rw [lookup, TreeMap.getD_insert]
  simp only [Std.compare_eq_iff_eq]
  split <;> rfl

theorem lookup_touch [TransOrd ι] (k k' : κ) (i : ι) :
    (m.touch k).lookup k' i = m.lookup k' i := by
  rw [touch, lookup, TreeMap.getD_insertIfNew]
  split
  · rename_i h
    rw [Std.compare_eq_iff_eq] at h
    rw [lookup, ← h.1, TreeMap.getD_eq_fallback h.2]
  · rfl

theorem mem_touch {k k' : κ} : k' ∈ m.touch k ↔ k = k' ∨ k' ∈ m := by
  rw [touch, TreeMap.mem_insertIfNew, Std.compare_eq_iff_eq]

theorem mem_remove {i : ι} {k k' : κ} (hk : k ≠ k') : k' ∈ m.remove i k ↔ k' ∈ m := by
  rw [remove]
  split
  · simp [TreeMap.mem_erase, hk]
  · simp [TreeMap.mem_insert, hk]

variable [TransOrd ι] [LawfulEqOrd ι] [DecidableEq κ] [DecidableEq ι]

theorem lookup_add (i i' : ι) (v : ν) (k k' : κ) :
    (m.add i v k).lookup k' i' =
      if k = k' ∧ i = i' then some ((m.lookup k i).getD v) else m.lookup k' i' := by
  have hinsert : ((m.getD k ∅).insertIfNew i v)[i']? =
      if i = i' then some ((m.lookup k i).getD v) else m.lookup k i' := by
    rw [TreeMap.getElem?_insertIfNew]
    simp only [Std.compare_eq_iff_eq]
    by_cases hi : i = i'
    · subst hi
      rw [if_pos (rfl : i = i)]
      by_cases hmem : i ∈ m.getD k ∅
      · obtain ⟨w, hw⟩ := Option.isSome_iff_exists.mp (TreeMap.mem_iff_isSome_getElem?.mp hmem)
        rw [if_neg fun h => h.2 hmem, lookup, hw, Option.getD_some]
      · rw [if_pos ⟨rfl, hmem⟩, lookup, TreeMap.getElem?_eq_none hmem, Option.getD_none]
    · rw [if_neg fun h => hi h.1, if_neg hi]
      rfl
  rw [add, lookup_insert]
  by_cases hk : k = k'
  · subst hk
    simp only [true_and]
    rw [if_pos trivial, hinsert]
  · rw [if_neg hk, if_neg fun h => hk h.1]

theorem lookup_remove (i i' : ι) (k k' : κ) :
    (m.remove i k).lookup k' i' = if k = k' ∧ i = i' then none else m.lookup k' i' := by
  have herase : ((m.getD k ∅).erase i)[i']? = if i = i' then none else m.lookup k i' := by
    rw [TreeMap.getElem?_erase]
    simp only [Std.compare_eq_iff_eq]
    rfl
  rw [remove]
  by_cases hk : k = k'
  · subst hk
    simp only [true_and]
    rw [← herase]
    split
    · rename_i hempty
      rw [lookup, TreeMap.getD_erase_self, TreeMap.getElem?_emptyc,
        TreeMap.getElem?_of_isEmpty hempty]
    · rw [lookup_insert, if_pos rfl]
  · rw [if_neg fun h : k = k' ∧ i = i' => hk h.1]
    split
    · rw [lookup, TreeMap.getD_erase, if_neg (by rwa [Std.compare_eq_iff_eq])]
      rfl
    · rw [lookup_insert, if_neg hk]

/-! ## A record under several keys -/

theorem lookup_foldl_add (i i' : ι) (v : ν) (ks : List κ) (k' : κ) :
    Index.lookup (ks.foldl (add i v) m) k' i' =
      if k' ∈ ks ∧ i = i' then some ((m.lookup k' i).getD v) else m.lookup k' i' := by
  induction ks generalizing m with
  | nil => simp
  | cons k ks ih =>
    rw [List.foldl_cons, ih, lookup_add, lookup_add]
    by_cases hi : i = i'
    · subst hi
      by_cases hk : k = k'
      · subst hk
        by_cases hks : k ∈ ks <;> simp [hks]
      · simp [hk, Ne.symm hk]
    · simp [hi]

theorem lookup_foldl_remove (i i' : ι) (ks : List κ) (k' : κ) :
    Index.lookup (ks.foldl (remove i) m) k' i' =
      if k' ∈ ks ∧ i = i' then none else m.lookup k' i' := by
  induction ks generalizing m with
  | nil => simp
  | cons k ks ih =>
    rw [List.foldl_cons, ih, lookup_remove]
    by_cases hi : i = i'
    · by_cases hk : k = k'
      · by_cases hks : k' ∈ ks <;> simp [hi, hk, hks]
      · simp [hk, Ne.symm hk]
    · simp [hi]

omit [LawfulEqOrd κ] [LawfulEqOrd ι] [DecidableEq κ] [DecidableEq ι] in
theorem noEmpty_foldl_add (h : NoEmpty m) (i : ι) (v : ν) (ks : List κ) :
    NoEmpty (ks.foldl (add i v) m) := by
  induction ks generalizing m with
  | nil => exact h
  | cons k ks ih => exact ih (noEmpty_add h i v k)

omit [LawfulEqOrd κ] [TransOrd ι] [LawfulEqOrd ι] [DecidableEq κ] [DecidableEq ι] in
theorem noEmpty_foldl_remove (h : NoEmpty m) (i : ι) (ks : List κ) :
    NoEmpty (ks.foldl (remove i) m) := by
  induction ks generalizing m with
  | nil => exact h
  | cons k ks ih => exact ih (noEmpty_remove h i k)

omit [TransOrd ι] [LawfulEqOrd ι] [DecidableEq κ] [DecidableEq ι] in
theorem mem_foldl_remove {i : ι} {ks : List κ} {k' : κ} (hk : k' ∉ ks) :
    k' ∈ ks.foldl (remove i) m ↔ k' ∈ m := by
  induction ks generalizing m with
  | nil => rfl
  | cons k ks ih =>
    obtain ⟨hne, hks⟩ := not_or.mp (mt List.mem_cons.mpr hk)
    rw [List.foldl_cons, ih hks, mem_remove fun h => hne h.symm]

end Index
