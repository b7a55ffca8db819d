import Mathlib.Data.Finset.Basic
import Mathlib.Data.List.Nodup

/-!
# Jobs with prerequisites

A `Plan` is a list of jobs with their prerequisites. Jobs without open prerequisites are ready. One
step takes a ready job, does it or drops it, and a job that is done may make others ready: those for
which it was the last open prerequisite. Which ready job is taken, and which ones are dropped, is
left open.

Whatever the choices, every job is done after its prerequisites, no job is taken twice, and when
nothing is ready any more the jobs that were taken are the ones whose prerequisites are all done
(`Inv`, `Inv.step`, `Inv.taken_perm`).
-/

namespace Agenda

variable {K : Type} [DecidableEq K]

structure Plan (K : Type) where
  jobs : List K
  deps : K → Finset K
  nodup : jobs.Nodup

/-- The jobs that are ready, the open prerequisites of every job, and the jobs that were taken, in
the order in which they were. -/
structure State (K : Type) where
  ready : List K
  pending : K → Finset K
  done : List K
  dropped : List K

namespace Plan

variable (plan : Plan K)

/-- Nothing has been taken. -/
structure Start (s : State K) : Prop where
  ready : s.ready.Perm (plan.jobs.filter fun j => plan.deps j = ∅)
  pending : ∀ j ∈ plan.jobs, s.pending j = plan.deps j
  done : s.done = []
  dropped : s.dropped = []

/-- The jobs for which `k` is the last open prerequisite. -/
def released (pending : K → Finset K) (k : K) : List K :=
  plan.jobs.filter fun j => k ∈ pending j ∧ (pending j).erase k = ∅

/-- The job `k` is taken and done. -/
structure Does (s : State K) (k : K) (s' : State K) : Prop where
  ready : ∃ rest, s.ready.Perm (k :: rest) ∧ s'.ready.Perm (rest ++ plan.released s.pending k)
  pending : ∀ j ∈ plan.jobs, s'.pending j = (s.pending j).erase k
  done : s'.done = s.done ++ [k]
  dropped : s'.dropped = s.dropped

/-- The job `k` is taken and dropped. -/
structure Drops (s : State K) (k : K) (s' : State K) : Prop where
  ready : s.ready.Perm (k :: s'.ready)
  pending : ∀ j ∈ plan.jobs, s'.pending j = s.pending j
  done : s'.done = s.done
  dropped : s'.dropped = s.dropped ++ [k]

end Plan

/-- Every job comes after its prerequisites. -/
def Ordered (deps : K → Finset K) (done : List K) : Prop :=
  ∀ before k after, done = before ++ k :: after → ∀ p ∈ deps k, p ∈ before

omit [DecidableEq K] in
theorem ordered_nil (deps : K → Finset K) : Ordered deps [] := by
  intro before k after h
  simp at h

omit [DecidableEq K] in
theorem Ordered.concat {deps : K → Finset K} {done : List K} {k : K} (h : Ordered deps done)
    (hk : ∀ p ∈ deps k, p ∈ done) : Ordered deps (done ++ [k]) := by
  intro before j after heq p hp
  rcases List.eq_nil_or_concat after with rfl | ⟨after', last, rfl⟩
  · obtain ⟨rfl, hj⟩ := List.append_inj' heq rfl
    obtain rfl : k = j := by simpa using hj
    exact hk p hp
  · have heq' : done ++ [k] = (before ++ j :: after') ++ [last] := by
      rw [heq]
      simp
    exact h before j after' (List.append_inj' heq' rfl).1 p hp

/-- What holds between the steps. -/
structure Inv (plan : Plan K) (s : State K) : Prop where
  pending : ∀ j ∈ plan.jobs, s.pending j = plan.deps j \ s.done.toFinset
  taken : (s.ready ++ (s.done ++ s.dropped)).Perm
    (plan.jobs.filter fun j => plan.deps j ⊆ s.done.toFinset)
  ordered : Ordered plan.deps s.done

namespace Inv

variable {plan : Plan K} {s s' : State K} {k j : K}

theorem start (h : plan.Start s) : Inv plan s where
  pending j hj := by simp [h.pending j hj, h.done]
  taken := by simpa [h.done, h.dropped] using h.ready
  ordered := h.done ▸ ordered_nil _

theorem nodup (h : Inv plan s) : (s.ready ++ (s.done ++ s.dropped)).Nodup :=
  h.taken.nodup_iff.mpr (plan.nodup.filter _)

theorem mem_iff (h : Inv plan s) : j ∈ s.ready ∨ j ∈ s.done ∨ j ∈ s.dropped ↔
    j ∈ plan.jobs ∧ plan.deps j ⊆ s.done.toFinset := by
  have hmem := h.taken.mem_iff (a := j)
  simpa using hmem

theorem mem_jobs_of_done (h : Inv plan s) (hj : j ∈ s.done) : j ∈ plan.jobs :=
  (h.mem_iff.mp (.inr (.inl hj))).1

theorem not_taken (h : Inv plan s) (hj : j ∈ s.ready) : j ∉ s.done ∧ j ∉ s.dropped := by
  have hdisjoint := (List.nodup_append.mp h.nodup).2.2
  exact ⟨fun hd => hdisjoint j hj j (List.mem_append_left _ hd) rfl,
    fun hd => hdisjoint j hj j (List.mem_append_right _ hd) rfl⟩

theorem drops (h : Inv plan s) (hstep : plan.Drops s k s') : Inv plan s' where
  pending j hj := by rw [hstep.pending j hj, hstep.done, h.pending j hj]
  taken := by
    rw [hstep.done, hstep.dropped]
    refine List.Perm.trans ?_ h.taken
    have hmove : (s'.ready ++ (s.done ++ (s.dropped ++ [k]))).Perm
        ((k :: s'.ready) ++ (s.done ++ s.dropped)) := by
      rw [← List.append_assoc s.done, ← List.append_assoc, List.cons_append]
      exact List.perm_append_singleton _ _
    exact hmove.trans (hstep.ready.symm.append_right _)
  ordered := hstep.done ▸ h.ordered

theorem mem_concat {done : List K} {p k : K} : p ∈ (done ++ [k]).toFinset ↔ p ∈ done ∨ p = k := by
  rw [List.mem_toFinset, List.mem_append, List.mem_singleton]

/-- The jobs whose prerequisites are done after one more job: those from before, and the released
ones. -/
theorem filter_subset_perm (h : Inv plan s) (hk : k ∉ s.done) :
    (plan.jobs.filter fun j => plan.deps j ⊆ (s.done ++ [k]).toFinset).Perm
      ((plan.jobs.filter fun j => plan.deps j ⊆ s.done.toFinset) ++
        plan.released s.pending k) := by
  have hreleased : ∀ j ∈ plan.jobs, (k ∈ s.pending j ∧ (s.pending j).erase k = ∅) ↔
      plan.deps j ⊆ (s.done ++ [k]).toFinset ∧ ¬ plan.deps j ⊆ s.done.toFinset := by
    intro j hj
    rw [h.pending j hj]
    constructor
    · rintro ⟨hmem, hempty⟩
      rw [Finset.mem_sdiff] at hmem
      refine ⟨fun p hp => ?_, fun hsub => hmem.2 (hsub hmem.1)⟩
      by_cases hpk : p = k
      · exact mem_concat.mpr (.inr hpk)
      · by_contra hnot
        have hpdone : p ∉ s.done.toFinset := by
          intro hp'
          exact hnot (mem_concat.mpr (.inl (List.mem_toFinset.mp hp')))
        have hmem' := Finset.mem_erase.mpr ⟨hpk, Finset.mem_sdiff.mpr ⟨hp, hpdone⟩⟩
        rw [hempty] at hmem'
        simp at hmem'
    · rintro ⟨hsub, hnot⟩
      have hall : ∀ p ∈ plan.deps j, p ∉ s.done → p = k := by
        intro p hp hdone
        exact (mem_concat.mp (hsub hp)).resolve_left hdone
      rw [Finset.not_subset] at hnot
      obtain ⟨p, hp, hpdone⟩ := hnot
      have hpk := hall p hp (by simpa using hpdone)
      subst hpk
      refine ⟨by simpa using ⟨hp, hk⟩, ?_⟩
      ext q
      simp only [Finset.mem_erase, Finset.mem_sdiff, List.mem_toFinset, Finset.notMem_empty,
        iff_false, not_and, not_not]
      intro hqp hq
      by_contra hqdone
      exact hqp (hall q hq hqdone)
  have hold : plan.jobs.filter (fun j => plan.deps j ⊆ s.done.toFinset) =
      plan.jobs.filter fun j => plan.deps j ⊆ (s.done ++ [k]).toFinset ∧
        plan.deps j ⊆ s.done.toFinset := by
    apply List.filter_congr
    intro j _
    rw [decide_eq_decide]
    refine ⟨fun hsub => ⟨fun p hp => ?_, hsub⟩, And.right⟩
    exact mem_concat.mpr (.inl (List.mem_toFinset.mp (hsub hp)))
  have hnew : plan.released s.pending k = plan.jobs.filter fun j =>
      plan.deps j ⊆ (s.done ++ [k]).toFinset ∧ ¬ plan.deps j ⊆ s.done.toFinset := by
    apply List.filter_congr
    intro j hj
    rw [decide_eq_decide]
    exact hreleased j hj
  have hsplit := List.filter_append_perm (fun j => decide (plan.deps j ⊆ s.done.toFinset))
    (plan.jobs.filter fun j => plan.deps j ⊆ (s.done ++ [k]).toFinset)
  rw [List.filter_filter, List.filter_filter] at hsplit
  rw [hold, hnew]
  refine hsplit.symm.trans (List.Perm.of_eq ?_)
  congr 1
  · apply List.filter_congr
    intro j _
    simp [Bool.and_comm]
  · apply List.filter_congr
    intro j _
    simp [Bool.and_comm]

theorem does (h : Inv plan s) (hstep : plan.Does s k s') : Inv plan s' := by
  obtain ⟨rest, hready, hready'⟩ := hstep.ready
  have hkready : k ∈ s.ready := hready.mem_iff.mpr List.mem_cons_self
  have hk := h.mem_iff.mp (.inl hkready)
  have hkdone := (h.not_taken hkready).1
  refine ⟨fun j hj => ?_, ?_, ?_⟩
  · rw [hstep.pending j hj, hstep.done, h.pending j hj]
    ext p
    simp only [Finset.mem_erase, Finset.mem_sdiff, List.mem_toFinset, List.mem_append,
      List.mem_singleton, not_or]
    exact ⟨fun hp => ⟨hp.2.1, hp.2.2, hp.1⟩, fun hp => ⟨hp.2.2, hp.1, hp.2.1⟩⟩
  · rw [hstep.done, hstep.dropped]
    refine List.Perm.trans ?_ (h.filter_subset_perm hkdone).symm
    have hbefore : ((k :: rest) ++ (s.done ++ s.dropped)).Perm
        (plan.jobs.filter fun j => plan.deps j ⊆ s.done.toFinset) :=
      (hready.symm.append_right _).trans h.taken
    refine List.Perm.trans ?_ (hbefore.append_right _)
    refine (hready'.append_right _).trans ?_
    -- the same jobs on both sides, each as often
    rw [List.perm_iff_count]
    intro a
    simp only [List.count_append, List.count_cons, List.count_nil]
    omega
  · rw [hstep.done]
    exact h.ordered.concat fun p hp => by simpa using hk.2 hp

theorem taken_perm (h : Inv plan s) (hready : s.ready = []) : (s.done ++ s.dropped).Perm
    (plan.jobs.filter fun j => plan.deps j ⊆ s.done.toFinset) := by
  have htaken := h.taken
  rwa [hready, List.nil_append] at htaken

theorem length_le (h : Inv plan s) :
    s.ready.length + (s.done.length + s.dropped.length) ≤ plan.jobs.length := by
  have hlen := h.taken.length_eq
  have hle := List.length_filter_le (fun j => decide (plan.deps j ⊆ s.done.toFinset)) plan.jobs
  simp only [List.length_append] at hlen
  omega

end Inv

end Agenda
