import Mathlib.Order.Lattice
import Mathlib.Data.List.Basic

/-!
# Queues ordered by time

A multimap from times to values, as the list of its entries: sorted by time, and a new entry goes
behind those of the same time. What is enqueued with times that do not decrease stays in order
(`sublist_enqueue`), whatever else is enqueued between and whatever is taken from the front.
-/

namespace TimedQueue

variable {K V : Type} [LinearOrder K]

/-- `insert` of a multimap. -/
def enqueue (e : K × V) : List (K × V) → List (K × V)
  | [] => [e]
  | x :: q => if x.1 ≤ e.1 then x :: enqueue e q else e :: x :: q

def Sorted (q : List (K × V)) : Prop := q.Pairwise fun x y => x.1 ≤ y.1

variable {e x : K × V} {q l taken : List (K × V)}

theorem enqueue_perm (e : K × V) (q : List (K × V)) : (enqueue e q).Perm (e :: q) := by
  induction q with
  | nil => exact List.Perm.refl _
  | cons x q ih =>
    unfold enqueue
    split
    · exact (ih.cons x).trans (List.Perm.swap e x q)
    · exact List.Perm.refl _

@[simp] theorem mem_enqueue : x ∈ enqueue e q ↔ x = e ∨ x ∈ q := by
  rw [(enqueue_perm e q).mem_iff, List.mem_cons]

theorem sublist_enqueue_self (e : K × V) (q : List (K × V)) : q.Sublist (enqueue e q) := by
  induction q with
  | nil => exact List.nil_sublist _
  | cons x q ih =>
    unfold enqueue
    split
    · exact ih.cons_cons x
    · exact List.sublist_cons_self _ _

theorem Sorted.enqueue (h : Sorted q) (e : K × V) : Sorted (enqueue e q) := by
  induction q with
  | nil => exact List.pairwise_singleton _ _
  | cons x q ih =>
    obtain ⟨hle, hq⟩ := List.pairwise_cons.mp h
    unfold TimedQueue.enqueue
    split
    · rename_i hxe
      apply List.pairwise_cons.mpr
      refine ⟨fun y hy => ?_, ih hq⟩
      rcases mem_enqueue.mp hy with rfl | hy
      · exact hxe
      · exact hle y hy
    · rename_i hxe
      have hlt : e.1 ≤ x.1 := (not_le.mp hxe).le
      apply List.pairwise_cons.mpr
      refine ⟨fun y hy => ?_, h⟩
      rcases List.mem_cons.mp hy with rfl | hy
      · exact hlt
      · exact hlt.trans (hle y hy)

/-- A new entry stands behind everything with a time that is not later. -/
theorem enqueue_split (h : Sorted q) (e : K × V) :
    ∃ before after, q = before ++ after ∧ enqueue e q = before ++ e :: after ∧
      ∀ x ∈ after, e.1 < x.1 := by
  induction q with
  | nil => exact ⟨[], [], rfl, rfl, by simp⟩
  | cons x q ih =>
    obtain ⟨hle, hq⟩ := List.pairwise_cons.mp h
    unfold enqueue
    split
    · obtain ⟨before, after, hsplit, henqueue, hafter⟩ := ih hq
      refine ⟨x :: before, after, ?_, ?_, hafter⟩
      · rw [hsplit, List.cons_append]
      · rw [henqueue, List.cons_append]
    · rename_i hxe
      refine ⟨[], x :: q, rfl, rfl, fun y hy => ?_⟩
      rcases List.mem_cons.mp hy with rfl | hy
      · exact not_le.mp hxe
      · exact (not_le.mp hxe).trans_le (hle y hy)

/-- Entries that are in order, with times up to that of a new one, are in order with it. -/
theorem sublist_enqueue (h : Sorted q) (hl : l.Sublist (taken ++ q)) (hle : ∀ x ∈ l, x.1 ≤ e.1) :
    (l ++ [e]).Sublist (taken ++ enqueue e q) := by
  obtain ⟨before, after, rfl, henqueue, hafter⟩ := enqueue_split h e
  rw [← List.append_assoc] at hl
  obtain ⟨l₁, l₂, rfl, hl₁, hl₂⟩ := List.sublist_append_iff.mp hl
  have hnil : l₂ = [] := by
    apply List.eq_nil_iff_forall_not_mem.mpr
    intro x hx
    exact absurd (hle x (List.mem_append_right _ hx)) (not_le.mpr (hafter x (hl₂.subset hx)))
  rw [hnil, List.append_nil, henqueue, ← List.append_assoc]
  apply hl₁.append
  apply List.Sublist.cons_cons
  exact List.nil_sublist _

end TimedQueue
