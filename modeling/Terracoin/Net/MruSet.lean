import Terracoin.Lib.Recent
import Mathlib.Data.Finset.Card

/-!
# Sets of the most recent elements

`mruset` of `mruset.h`: a set with a queue of its elements, in the order in which they came in. An
insertion comes in if its element is not in the set at the time (`comesIn`); the queue is the end of
the list of all insertions that came in (`mruset_spec`). An element that has left comes in again, at
the end, if it is inserted once more; that is the difference from the order of first insertions
(`not_firstInserted`).
-/

namespace Terracoin

open Recent

/-- `mruset`. -/
structure MruSet (T : Type) where
  set : Finset T
  queue : List T
  nMaxSize : Nat

namespace MruSet

variable {T : Type} [DecidableEq T]

/-- A call that changes the set. -/
inductive Call (T : Type)
  | insert (x : T)
  | maxSize (s : Nat)

def new (nMaxSizeIn : Nat) : MruSet T := ⟨∅, [], nMaxSizeIn⟩

/-- `set.erase(queue.front()); queue.pop_front();` -/
def popFront (set : Finset T) : List T → Finset T × List T
  | [] => (set, [])
  | front :: queue => (set.erase front, queue)

def insert (m : MruSet T) (x : T) : MruSet T × Bool :=
  if x ∈ m.set then (m, false)
  else
    let set := Insert.insert x m.set
    let (set, queue) :=
      if m.nMaxSize ≠ 0 ∧ m.queue.length = m.nMaxSize then popFront set m.queue else (set, m.queue)
    ({ m with set, queue := queue ++ [x] }, true)

/-- The loop of `max_size`: remove elements until no more than `s` are left. -/
def shrink (s : Nat) (set : Finset T) : List T → Finset T × List T
  | [] => (set, [])
  | front :: queue =>
    if s < (front :: queue).length then shrink s (set.erase front) queue else (set, front :: queue)

def maxSize (m : MruSet T) (s : Nat) : MruSet T :=
  let (set, queue) := if s ≠ 0 then shrink s m.set m.queue else (m.set, m.queue)
  ⟨set, queue, s⟩

def step (m : MruSet T) : Call T → MruSet T
  | .insert x => (m.insert x).1
  | .maxSize s => m.maxSize s

def run (m : MruSet T) (calls : List (Call T)) : MruSet T := calls.foldl step m

/-- The element that a call brings into the set. -/
def comesIn (m : MruSet T) : Call T → List T
  | .insert x => if x ∈ m.set then [] else [x]
  | .maxSize _ => []

/-- The elements that came in in a run, in this order. -/
def cameIn : MruSet T → List (Call T) → List T
  | _, [] => []
  | m, c :: calls => m.comesIn c ++ (m.step c).cameIn calls

/-- The elements of the insertions, in the order of their first ones. -/
def firstInserted (calls : List (Call T)) : List T :=
  calls.foldl (fun l c =>
    match c with
    | .insert x => if x ∈ l then l else l ++ [x]
    | .maxSize _ => l) []

variable {m : MruSet T} {set : Finset T} {queue history : List T} {x : T} {c : Call T}
  {calls : List (Call T)} {s : Nat}

/-! ## One call -/

/-- The set has the elements of the queue, each of them once. -/
structure InStep (set : Finset T) (queue : List T) : Prop where
  nodup : queue.Nodup
  mem_iff : ∀ x, x ∈ set ↔ x ∈ queue

theorem InStep.set_eq (h : InStep set queue) : set = queue.toFinset := by
  ext x
  rw [h.mem_iff, List.mem_toFinset]

theorem InStep.card (h : InStep set queue) : set.card = queue.length := by
  rw [h.set_eq, List.toFinset_card_of_nodup h.nodup]

theorem InStep.erase {front : T} (h : InStep set (front :: queue)) :
    InStep (set.erase front) queue := by
  obtain ⟨hnotMem, hnodup⟩ := List.nodup_cons.mp h.nodup
  refine ⟨hnodup, fun x => ?_⟩
  rw [Finset.mem_erase, h.mem_iff, List.mem_cons]
  constructor
  · rintro ⟨hne, hx⟩
    exact hx.resolve_left hne
  · intro hx
    exact ⟨fun heq => hnotMem (heq ▸ hx), Or.inr hx⟩

theorem InStep.concat (h : InStep set queue) (hx : x ∉ set) :
    InStep (Insert.insert x set) (queue ++ [x]) := by
  have hnotMem : x ∉ queue := fun hmem => hx ((h.mem_iff x).mpr hmem)
  refine ⟨by simpa using h.nodup.concat hnotMem, fun y => ?_⟩
  rw [Finset.mem_insert, h.mem_iff, List.mem_append, List.mem_singleton, or_comm]

theorem InStep.shrink (h : InStep set queue) (s : Nat) :
    InStep (shrink s set queue).1 (shrink s set queue).2 := by
  induction queue generalizing set with
  | nil => exact h
  | cons front queue ih =>
    unfold MruSet.shrink
    split
    · exact ih h.erase
    · exact h

theorem shrink_queue (s : Nat) (set : Finset T) (queue : List T) :
    (MruSet.shrink s set queue).2 = queue.rtake s := by
  induction queue generalizing set with
  | nil => exact (List.rtake_nil s).symm
  | cons front queue ih =>
    unfold MruSet.shrink
    split
    · rename_i hlt
      rw [ih, List.rtake, List.rtake, show (front :: queue).length - s = queue.length - s + 1 by
        rw [List.length_cons] at hlt ⊢; omega, List.drop_succ_cons]
    · rename_i hle
      exact (rtake_of_length_le (Nat.not_lt.mp hle)).symm

/-- What holds between the calls. -/
structure Inv (m : MruSet T) : Prop where
  inStep : InStep m.set m.queue
  length_le : m.nMaxSize ≠ 0 → m.queue.length ≤ m.nMaxSize

omit [DecidableEq T] in
theorem inv_new (nMaxSizeIn : Nat) : (new nMaxSizeIn : MruSet T).Inv :=
  ⟨⟨List.nodup_nil, by simp [new]⟩, fun _ => Nat.zero_le _⟩

theorem insert_of_mem (hx : x ∈ m.set) : (m.insert x).1 = m := by
  rw [insert, if_pos hx]

/-- An element that comes in goes to the end of the queue, and a full queue loses its front. -/
theorem insert_of_notMem (hm : m.Inv) (hx : x ∉ m.set) :
    InStep (m.insert x).1.set (push m.nMaxSize m.queue x) ∧
      (m.insert x).1.queue = push m.nMaxSize m.queue x ∧
      (m.insert x).1.nMaxSize = m.nMaxSize := by
  have hin := hm.inStep.concat hx
  by_cases hfull : m.nMaxSize ≠ 0 ∧ m.queue.length = m.nMaxSize
  · obtain ⟨set, queue, nMaxSize⟩ := m
    cases queue with
    | nil => exact absurd hfull.2.symm hfull.1
    | cons front queue =>
      simp only [insert, if_neg hx, if_pos hfull, popFront, push, if_pos hfull.2, List.tail_cons,
        and_true]
      exact hin.erase
  · have hpush : push m.nMaxSize m.queue x = m.queue ++ [x] := by
      by_cases hzero : m.nMaxSize = 0
      · rw [hzero, push_zero]
      · exact push_of_ne fun hlength => hfull ⟨hzero, hlength⟩
    rw [hpush]
    simp only [insert, if_neg hx, if_neg hfull, and_true]
    exact hin

theorem maxSize_queue (hs : s ≠ 0) : (m.maxSize s).queue = m.queue.rtake s := by
  simp only [maxSize, if_pos hs]
  exact shrink_queue s m.set m.queue

theorem Inv.insert (hm : m.Inv) (x : T) : (m.insert x).1.Inv := by
  by_cases hx : x ∈ m.set
  · rw [insert_of_mem hx]
    exact hm
  · obtain ⟨hin, hqueue, hmax⟩ := insert_of_notMem hm hx
    refine ⟨hqueue ▸ hin, fun hne => ?_⟩
    rw [hmax] at hne ⊢
    rw [hqueue]
    exact length_push_le (Nat.pos_of_ne_zero hne) (hm.length_le hne)

theorem Inv.maxSize (hm : m.Inv) (s : Nat) : (m.maxSize s).Inv := by
  by_cases hs : s = 0
  · subst hs
    exact ⟨hm.inStep, fun hne => absurd rfl hne⟩
  · refine ⟨?_, fun _ => ?_⟩
    · simp only [MruSet.maxSize, if_pos (show s ≠ 0 from hs)]
      exact hm.inStep.shrink s
    · rw [maxSize_queue hs, length_rtake]
      exact Nat.min_le_left _ _

theorem Inv.step (hm : m.Inv) (c : Call T) : (m.step c).Inv := by
  cases c with
  | insert x => exact hm.insert x
  | maxSize s => exact hm.maxSize s

theorem step_suffix (hm : m.Inv) (c : Call T) : (m.step c).queue <:+ m.queue ++ m.comesIn c := by
  cases c with
  | insert x =>
    by_cases hx : x ∈ m.set
    · simp [step, comesIn, hx, insert_of_mem]
    · simp only [step, comesIn, if_neg hx, (insert_of_notMem hm hx).2.1]
      exact push_suffix m.nMaxSize m.queue x
  | maxSize s =>
    simp only [step, comesIn, List.append_nil]
    by_cases hs : s = 0
    · subst hs
      exact List.suffix_rfl
    · rw [maxSize_queue hs]
      exact rtake_suffix m.queue s

/-- The queue after an element has left: as many newer elements as the limit says. -/
theorem step_leaves (hm : m.Inv) (hx : x ∈ m.set) (hout : x ∉ (m.step c).set) :
    (m.step c).nMaxSize ≠ 0 ∧ (m.step c).queue.length = (m.step c).nMaxSize ∧
      ∃ older newer, m.queue ++ m.comesIn c = older ++ x :: newer ∧
        (m.step c).queue <:+ newer := by
  have hmem : x ∈ m.queue := (hm.inStep.mem_iff x).mp hx
  have hnotMem : x ∉ (m.step c).queue := fun h => hout (((hm.step c).inStep.mem_iff x).mpr h)
  cases c with
  | insert y =>
    by_cases hy : y ∈ m.set
    · rw [step, insert_of_mem hy] at hnotMem
      exact absurd hmem hnotMem
    · obtain ⟨-, hqueue, hmax⟩ := insert_of_notMem hm hy
      simp only [step, comesIn, if_neg hy] at hnotMem ⊢
      rw [hqueue] at hnotMem
      obtain ⟨hfull, hcons, hpush⟩ := push_of_notMem hmem hnotMem
      have hpos : 0 < m.queue.length := List.length_pos_of_mem hmem
      refine ⟨by omega, ?_, [], m.queue.tail ++ [y], ?_, ?_⟩
      · rw [hqueue, hpush, hmax, List.length_append, List.length_tail, List.length_singleton]
        omega
      · rw [List.nil_append, ← List.cons_append, ← hcons]
      · rw [hqueue, hpush]
  | maxSize s =>
    by_cases hs : s = 0
    · subst hs
      exact absurd hmem hnotMem
    · simp only [step, comesIn, List.append_nil, maxSize_queue hs] at hnotMem ⊢
      have hsplit : m.queue = m.queue.take (m.queue.length - s) ++ m.queue.rtake s :=
        (List.take_append_drop _ _).symm
      have hold : x ∈ m.queue.take (m.queue.length - s) := by
        rw [hsplit] at hmem
        exact (List.mem_append.mp hmem).resolve_right hnotMem
      have hlt : 0 < (m.queue.take (m.queue.length - s)).length := List.length_pos_of_mem hold
      obtain ⟨older, rest, hrest⟩ := List.append_of_mem hold
      refine ⟨hs, ?_, older, rest ++ m.queue.rtake s, ?_, List.suffix_append _ _⟩
      · rw [List.length_take] at hlt
        rw [length_rtake]
        exact Nat.min_eq_left (by omega)
      · conv_lhs => rw [hsplit, hrest]
        rw [List.append_assoc, List.cons_append]

/-! ## Runs -/

theorem run_concat (m : MruSet T) (calls : List (Call T)) (c : Call T) :
    m.run (calls ++ [c]) = (m.run calls).step c := by
  simp [run]

theorem cameIn_concat (m : MruSet T) (calls : List (Call T)) (c : Call T) :
    m.cameIn (calls ++ [c]) = m.cameIn calls ++ (m.run calls).comesIn c := by
  induction calls generalizing m with
  | nil => simp [cameIn, run]
  | cons c' calls ih => simp [cameIn, run, ih]

theorem Inv.run (hm : m.Inv) (calls : List (Call T)) : (m.run calls).Inv :=
  List.foldlRecOn calls MruSet.step hm fun _ h c _ => h.step c

theorem queue_suffix (nMaxSizeIn : Nat) (calls : List (Call T)) :
    ((new nMaxSizeIn).run calls).queue <:+ (new nMaxSizeIn).cameIn calls := by
  induction calls using List.reverseRecOn with
  | nil => exact List.suffix_rfl
  | append_singleton calls c ih =>
    rw [run_concat, cameIn_concat]
    refine (step_suffix ((inv_new nMaxSizeIn).run calls) c).trans ?_
    obtain ⟨older, holder⟩ := ih
    exact ⟨older, by rw [← holder, List.append_assoc]⟩

/-- As long as no element comes in a second time, the elements come in in the order of the first
insertions. -/
theorem firstInserted_eq (nMaxSizeIn : Nat) (calls : List (Call T))
    (h : ((new nMaxSizeIn).cameIn calls).Nodup) :
    firstInserted calls = (new nMaxSizeIn).cameIn calls := by
  induction calls using List.reverseRecOn with
  | nil => rfl
  | append_singleton calls c ih =>
    rw [cameIn_concat] at h ⊢
    have hcalls := ih (List.Nodup.of_append_left h)
    rw [firstInserted, List.foldl_append, ← firstInserted, hcalls, List.foldl_cons, List.foldl_nil]
    cases c with
    | maxSize s => exact (List.append_nil _).symm
    | insert x =>
      simp only [comesIn] at h ⊢
      split at h
      · rename_i hx
        have hmem : x ∈ (new nMaxSizeIn).cameIn calls :=
          (queue_suffix nMaxSizeIn calls).subset
            ((((inv_new nMaxSizeIn).run calls).inStep.mem_iff x).mp hx)
        rw [if_pos hx, if_pos hmem, List.append_nil]
      · rename_i hx
        have hnotMem : x ∉ (new nMaxSizeIn).cameIn calls := fun hmem =>
          List.disjoint_of_nodup_append h hmem List.mem_cons_self
        rw [if_neg hx, if_neg hnotMem]

/-- The set is in step with its queue and within its limit; the queue is the end of the list of the
insertions that came in, which is the order of the first insertions as long as no element comes in
twice. An element that leaves is older than as many elements as the limit says. -/
theorem mruset_spec (nMaxSizeIn : Nat) (calls : List (Call T)) :
    let m := (new nMaxSizeIn).run calls
    m.set = m.queue.toFinset ∧ m.queue.Nodup ∧ (m.nMaxSize ≠ 0 → m.set.card ≤ m.nMaxSize) ∧
      m.queue = ((new nMaxSizeIn).cameIn calls).rtake m.set.card ∧
      (((new nMaxSizeIn).cameIn calls).Nodup → m.queue = (firstInserted calls).rtake m.set.card) ∧
      ∀ c x, x ∈ m.set → x ∉ (m.step c).set →
        (m.step c).nMaxSize ≠ 0 ∧ (m.step c).queue.length = (m.step c).nMaxSize ∧
          (m.step c).queue.Nodup ∧
          ∃ older newer, (new nMaxSizeIn).cameIn (calls ++ [c]) = older ++ x :: newer ∧
            (m.step c).queue <:+ newer := by
  intro m
  have hm : m.Inv := (inv_new nMaxSizeIn).run calls
  have hsuffix : m.queue <:+ (new nMaxSizeIn).cameIn calls := queue_suffix nMaxSizeIn calls
  have hqueue : m.queue = ((new nMaxSizeIn).cameIn calls).rtake m.set.card := by
    rw [hm.inStep.card]
    exact eq_rtake_of_suffix hsuffix
  refine ⟨hm.inStep.set_eq, hm.inStep.nodup, fun hne => ?_, hqueue, fun hnodup => ?_, ?_⟩
  · rw [hm.inStep.card]
    exact hm.length_le hne
  · rw [firstInserted_eq nMaxSizeIn calls hnodup]
    exact hqueue
  · intro c x hx hout
    obtain ⟨hne, hlength, older, newer, happend, hnewer⟩ := step_leaves hm hx hout
    obtain ⟨oldest, holdest⟩ := hsuffix
    refine ⟨hne, hlength, (hm.step c).inStep.nodup, oldest ++ older, newer, ?_, hnewer⟩
    rw [cameIn_concat, ← holdest, List.append_assoc, happend, List.append_assoc]

/-- With room for two, the first of three elements leaves and comes in again at the end. -/
theorem not_firstInserted : ¬ ∀ (nMaxSizeIn : Nat) (calls : List (Call Nat)),
    let m := (new nMaxSizeIn).run calls
    m.set = ((firstInserted calls).rtake m.set.card).toFinset := by
  intro h
  exact absurd (h 2 [.insert 1, .insert 2, .insert 3, .insert 1]) (by decide)

end MruSet

end Terracoin
