import Mathlib.Data.List.Basic
import Mathlib.Data.List.Sort
import Mathlib.Algebra.GroupWithZero.Nat

/-!
# Tables of buckets

A table is a list of buckets. Changing one bucket changes any sum over the buckets by what it
changes at that bucket (`sum_map_modify`), in particular how often an element occurs in the table
and how many elements the table has. A `std::set` is a sorted list without repetitions.
-/

namespace Buckets

variable {α : Type} {vv : List (List α)} {bucket : List α} {b : Nat}

/-! ## Changing one bucket -/

theorem sum_map_modify (g : List α → Nat) (f : List α → List α) (h : vv[b]? = some bucket) :
    ((vv.modify b f).map g).sum + g bucket = (vv.map g).sum + g (f bucket) := by
  induction vv generalizing b with
  | nil => simp at h
  | cons x vv ih =>
    cases b with
    | zero =>
      obtain rfl : x = bucket := by simpa using h
      simp only [List.modify_zero_cons, List.map_cons, List.sum_cons]
      omega
    | succ b =>
      have hrest := ih (b := b) (by simpa using h)
      simp only [List.modify_succ_cons, List.map_cons, List.sum_cons]
      omega

theorem length_flatten_modify (f : List α → List α) (h : vv[b]? = some bucket) :
    (vv.modify b f).flatten.length + bucket.length = vv.flatten.length + (f bucket).length := by
  rw [List.length_flatten, List.length_flatten]
  exact sum_map_modify List.length f h

theorem count_flatten_modify [DecidableEq α] (a : α) (f : List α → List α)
    (h : vv[b]? = some bucket) :
    (vv.modify b f).flatten.count a + bucket.count a = vv.flatten.count a + (f bucket).count a := by
  rw [List.count_flatten, List.count_flatten]
  exact sum_map_modify (List.count a) f h

theorem forall_modify {P : List α → Prop} {f : List α → List α} (hall : ∀ x ∈ vv, P x)
    (hf : ∀ bucket, vv[b]? = some bucket → P (f bucket)) : ∀ x ∈ vv.modify b f, P x := by
  intro x hx
  obtain ⟨i, hi⟩ := List.mem_iff_getElem?.mp hx
  rw [List.getElem?_modify] at hi
  obtain ⟨y, hy, heq⟩ := Option.map_eq_some_iff.mp hi
  split at heq
  · next hb =>
    subst hb heq
    exact hf y hy
  · subst heq
    exact hall _ (List.mem_of_getElem? hy)

theorem mem_flatten_iff {a : α} :
    a ∈ vv.flatten ↔ ∃ (b : Nat) (bucket : List α), vv[b]? = some bucket ∧ a ∈ bucket := by
  rw [List.mem_flatten]
  constructor
  · rintro ⟨bucket, hmem, ha⟩
    obtain ⟨b, hb⟩ := List.mem_iff_getElem?.mp hmem
    exact ⟨b, bucket, hb, ha⟩
  · rintro ⟨b, bucket, hb, ha⟩
    exact ⟨bucket, List.mem_of_getElem? hb, ha⟩

theorem exists_of_forall₂ {R : List α → List α → Prop} {ww : List (List α)}
    (h : List.Forall₂ R vv ww) (hb : vv[b]? = some bucket) :
    ∃ bucket', ww[b]? = some bucket' ∧ R bucket bucket' := by
  induction h generalizing b with
  | nil => cases hb
  | cons hR _ ih =>
    cases b with
    | zero =>
      obtain rfl := Option.some.inj hb
      exact ⟨_, rfl, hR⟩
    | succ b => exact ih hb

theorem length_flatten_le {k : Nat} (h : ∀ x ∈ vv, x.length ≤ k) :
    vv.flatten.length ≤ vv.length * k := by
  induction vv with
  | nil => exact Nat.zero_le _
  | cons x vv ih =>
    have hx := h x List.mem_cons_self
    have hrest := ih fun y hy => h y (List.mem_cons_of_mem _ hy)
    rw [List.flatten_cons, List.length_append, List.length_cons, Nat.succ_mul]
    omega

section

variable [DecidableEq α]

theorem count_flatten_map_erase (hn : ∀ x ∈ vv, x.Nodup) (a c : α) :
    (vv.map fun bucket => bucket.erase a).flatten.count c =
      if c = a then 0 else vv.flatten.count c := by
  induction vv with
  | nil => simp
  | cons x vv ih =>
    have hx := hn x List.mem_cons_self
    have hrest := ih fun y hy => hn y (List.mem_cons_of_mem _ hy)
    rw [List.map_cons, List.flatten_cons, List.flatten_cons, List.count_append, List.count_append,
      hrest]
    split
    · next heq =>
      subst heq
      rw [Nat.add_zero, List.count_eq_zero]
      exact hx.not_mem_erase
    · next hne => rw [List.count_erase_of_ne hne]

theorem countP_mem_eq_count_flatten (hn : ∀ x ∈ vv, x.Nodup) (a : α) :
    vv.countP (fun bucket => decide (a ∈ bucket)) = vv.flatten.count a := by
  induction vv with
  | nil => rfl
  | cons x vv ih =>
    have hrest := ih fun y hy => hn y (List.mem_cons_of_mem _ hy)
    rw [List.countP_cons, List.flatten_cons, List.count_append, hrest, Nat.add_comm,
      (hn x List.mem_cons_self).count]
    simp only [decide_eq_true_eq]

end

variable [LinearOrder α]

def setInsert (a : α) (l : List α) : List α := if a ∈ l then l else l.orderedInsert (· ≤ ·) a

theorem setInsert_perm {a : α} {l : List α} (h : a ∉ l) : (setInsert a l).Perm (a :: l) := by
  rw [setInsert, if_neg h]
  exact List.perm_orderedInsert _ _ _

theorem nodup_setInsert {a : α} {l : List α} (h : l.Nodup) : (setInsert a l).Nodup := by
  by_cases ha : a ∈ l
  · rwa [setInsert, if_pos ha]
  · rw [(setInsert_perm ha).nodup_iff, List.nodup_cons]
    exact ⟨ha, h⟩

theorem mem_setInsert {a c : α} {l : List α} : c ∈ setInsert a l ↔ c = a ∨ c ∈ l := by
  by_cases ha : a ∈ l
  · rw [setInsert, if_pos ha]
    constructor
    · exact .inr
    · rintro (rfl | h)
      · exact ha
      · exact h
  · rw [(setInsert_perm ha).mem_iff, List.mem_cons]

theorem length_setInsert {a : α} {l : List α} (h : a ∉ l) :
    (setInsert a l).length = l.length + 1 := by
  rw [(setInsert_perm h).length_eq, List.length_cons]

theorem count_setInsert {a c : α} {l : List α} (h : a ∉ l) :
    (setInsert a l).count c = l.count c + if c = a then 1 else 0 := by
  rw [(setInsert_perm h).count_eq, List.count_cons]
  by_cases hc : c = a
  · simp [hc]
  · simp [hc, Ne.symm hc]

end Buckets
