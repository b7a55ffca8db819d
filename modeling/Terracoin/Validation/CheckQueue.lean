import Terracoin.Lib.Run
import Mathlib.Data.List.Basic
import Mathlib.Data.List.Perm.Basic
import Mathlib.Data.List.Count
import Mathlib.Data.List.Flatten
import Mathlib.Algebra.BigOperators.Group.List.Basic
import Mathlib.Algebra.GroupWithZero.Nat

/-!
# The check queue

`CCheckQueue`: a master adds checks, worker threads take batches of them under the lock and run
them outside it, and `Wait` lets the master help until all is done. Every thread is in one critical
section at a time, so a run is any order of the critical sections of all threads, with the checks
that are evaluated between them.

Nothing is assumed about when a waiting thread wakes up: it may do so at any time, as a condition
variable allows, and finds out itself whether there is something to do.
-/

namespace Terracoin

/-- `CCheckQueue`. The end of the vector, where checks are taken from, comes first. -/
structure CCheckQueue (T : Type) where
  queue : List T
  /-- The number of threads that are idle. -/
  nIdle : Nat
  /-- The total number of threads. -/
  nTotal : Nat
  fAllOk : Bool
  /-- The number of checks that have not completed yet, those in batches included. -/
  nTodo : Nat
  fQuit : Bool
  nBatchSize : Nat
deriving DecidableEq, Repr

namespace CCheckQueue

variable {T : Type}

/-- Where a thread is in `Loop`. -/
inductive Thread (T : Type) where
  /-- It has not called `Loop`, or has returned. -/
  | outside
  /-- In `cond.wait(lock)`. -/
  | waiting
  /-- Working on a batch of `nNow` checks, of which `vChecks` are left. -/
  | running (nNow : Nat) (vChecks : List T) (fOk : Bool)
deriving DecidableEq, Repr

def init (nBatchSize : Nat) : CCheckQueue T := ⟨[], 0, 0, true, 0, false, nBatchSize⟩

/-- What a thread does first in a critical section: it begins, goes on after waiting, or does the
clean-up of its batch. -/
def enter (q : CCheckQueue T) : Thread T → Option (CCheckQueue T)
  | .outside => some { q with nTotal := q.nTotal + 1 }
  | .waiting => some { q with nIdle := q.nIdle - 1 }
  | .running nNow [] fOk =>
    some { q with fAllOk := q.fAllOk && fOk, nTodo := q.nTodo - nNow }
  | .running _ (_ :: _) _ => none

def batchSize (q : CCheckQueue T) : Nat :=
  max 1 (min q.nBatchSize (q.queue.length / (q.nTotal + q.nIdle + 1)))

/-- The rest of the critical section: the thread returns, waits or takes a batch. -/
def takeWork (fMaster : Bool) (q : CCheckQueue T) : CCheckQueue T × Thread T × Option Bool :=
  if q.queue.isEmpty then
    if (fMaster || q.fQuit) && q.nTodo == 0 then
      -- reset the status for new work later
      ({ q with nTotal := q.nTotal - 1, fAllOk := fMaster || q.fAllOk }, .outside, some q.fAllOk)
    else ({ q with nIdle := q.nIdle + 1 }, .waiting, none)
  else
    let nNow := q.batchSize
    ({ q with queue := q.queue.drop nNow }, .running nNow (q.queue.take nNow) q.fAllOk, none)

def add (q : CCheckQueue T) (vChecks : List T) : CCheckQueue T :=
  { q with queue := vChecks.reverse ++ q.queue, nTodo := q.nTodo + vChecks.length }

/-! ## The threads -/

/-- What became of the checks that were added since the previous `Wait`. -/
structure Round (T : Type) where
  added : List T
  /-- The checks that were evaluated, with the results. -/
  executed : List (T × Bool)
  /-- The checks of batches that came after a failure. -/
  skipped : List T
deriving DecidableEq, Repr

/-- The queue and the threads, the master first, with the rounds that `Wait` has ended and what it
returned. -/
structure Pool (T : Type) where
  queue : CCheckQueue T
  threads : List (Thread T)
  current : Round T
  finished : List (Round T × Bool)
deriving DecidableEq, Repr

inductive Op (T : Type) where
  /-- A critical section of `Loop`; that of a master who is outside is the first of a `Wait`. -/
  | critical (thread : Nat)
  /-- A thread comes to the next check of its batch. If it evaluates it, this is the result. -/
  | check (thread : Nat) (result : Bool)
  /-- `Add`, which only the master calls. -/
  | add (vChecks : List T)
  /-- `Quit` sets its flag. -/
  | quit
deriving DecidableEq, Repr

namespace Pool

def init (nBatchSize nWorkers : Nat) : Pool T :=
  ⟨.init nBatchSize, List.replicate (nWorkers + 1) .outside, ⟨[], [], []⟩, []⟩

def runCheck (r : Round T) (result : Bool) : Thread T → Option (Round T × Thread T)
  | .running nNow (check :: vChecks) true =>
    some ({ r with executed := r.executed ++ [(check, result)] }, .running nNow vChecks result)
  | .running nNow (check :: vChecks) false =>
    some ({ r with skipped := r.skipped ++ [check] }, .running nNow vChecks false)
  | _ => none

/-- The end of a critical section; when the master returns, this ends the round. -/
def leave (s : Pool T) (i : Nat) : CCheckQueue T × Thread T × Option Bool → Pool T
  | (q, t, fRet) =>
    let s := { s with queue := q, threads := s.threads.set i t }
    match i, fRet with
    | 0, some fRet =>
      { s with current := ⟨[], [], []⟩, finished := s.finished ++ [(s.current, fRet)] }
    | _, _ => s

def step (s : Pool T) : Op T → Option (Pool T)
  | .critical i =>
    (s.threads[i]?.bind s.queue.enter).map fun q => s.leave i (q.takeWork (i == 0))
  | .check i result =>
    (s.threads[i]?.bind (runCheck s.current result)).map fun (r, t) =>
      { s with current := r, threads := s.threads.set i t }
  | .add vChecks =>
    match s.threads.head? with
    | some .outside =>
      some { s with queue := s.queue.add vChecks,
                    current := { s.current with added := s.current.added ++ vChecks } }
    | _ => none
  | .quit => some { s with queue := { s.queue with fQuit := true } }

/-! ## The invariant -/

end Pool

namespace Thread

/-- What a thread adds to `nIdle`. -/
@[simp] def idle : Thread T → Nat
  | .outside => 0
  | .waiting => 1
  | .running _ _ _ => 0

/-- What a thread adds to `nTotal`. -/
@[simp] def total : Thread T → Nat
  | .outside => 0
  | .waiting => 1
  | .running _ _ _ => 1

/-- What a thread adds to `nTodo`. -/
@[simp] def nNow : Thread T → Nat
  | .outside => 0
  | .waiting => 0
  | .running nNow _ _ => nNow

/-- The checks that are left of its batch. -/
@[simp] def vChecks : Thread T → List T
  | .outside => []
  | .waiting => []
  | .running _ vChecks _ => vChecks

/-- Its batch has had no failure so far. -/
@[simp] def fOk : Thread T → Bool
  | .outside => true
  | .waiting => true
  | .running _ _ fOk => fOk

/-- A batch is not empty. -/
@[simp] def Works : Thread T → Prop
  | .outside => True
  | .waiting => True
  | .running nNow _ _ => 0 < nNow

variable {t : Thread T}

theorem fOk_of_nNow_eq_zero (hw : t.Works) (h : t.nNow = 0) : t.fOk = true := by
  cases t with
  | outside => rfl
  | waiting => rfl
  | running nNow vChecks fOk => exact absurd h (Nat.ne_of_gt hw)

theorem vChecks_of_nNow_eq_zero (hw : t.Works) (h : t.nNow = 0) : t.vChecks = [] := by
  cases t with
  | outside => rfl
  | waiting => rfl
  | running nNow vChecks fOk => exact absurd h (Nat.ne_of_gt hw)

theorem total_eq_idle_of_nNow_eq_zero (hw : t.Works) (h : t.nNow = 0) : t.total = t.idle := by
  cases t with
  | outside => rfl
  | waiting => rfl
  | running nNow vChecks fOk => exact absurd h (Nat.ne_of_gt hw)

end Thread

/-- The counters and flags agree with what the threads do and with what became of the checks. While
a thread is inside a critical section it counts as one of `nTotal` and has no batch. -/
structure Inv (q : CCheckQueue T) (threads : List (Thread T)) (r : Round T) (inside : Nat) :
    Prop where
  idle : q.nIdle = (threads.map Thread.idle).sum
  total : q.nTotal = (threads.map Thread.total).sum + inside
  todo : q.nTodo = q.queue.length + (threads.map Thread.nNow).sum
  todo_le : q.nTodo ≤ r.added.length
  works : ∀ t ∈ threads, t.Works
  perm : r.added.Perm
    (r.executed.map Prod.fst ++ r.skipped ++ q.queue ++ threads.flatMap Thread.vChecks)
  ok : (q.fAllOk = true ∧ ∀ t ∈ threads, t.fOk = true) ↔ ∀ e ∈ r.executed, e.2 = true
  skipped : r.skipped ≠ [] → ∃ e ∈ r.executed, e.2 = false

variable {q q' : CCheckQueue T} {threads threads' : List (Thread T)} {t : Thread T} {r : Round T}

theorem batchSize_pos (q : CCheckQueue T) : 0 < q.batchSize := by
  rw [batchSize]
  omega

theorem batchSize_le (hq : q.queue ≠ []) : q.batchSize ≤ q.queue.length := by
  have hpos := List.length_pos_iff.mpr hq
  have hdiv := Nat.div_le_self q.queue.length (q.nTotal + q.nIdle + 1)
  rw [batchSize]
  omega

namespace Inv

theorem of_perm {inside : Nat} (hp : threads.Perm threads') (h : Inv q threads r inside) :
    Inv q threads' r inside where
  idle := h.idle.trans (hp.map _).sum_eq
  total := by rw [h.total, (hp.map _).sum_eq]
  todo := by rw [h.todo, (hp.map _).sum_eq]
  todo_le := h.todo_le
  works t ht := h.works t (hp.mem_iff.mpr ht)
  perm := h.perm.trans ((hp.flatMap_right _).append_left _)
  ok := by rw [← h.ok]; simp only [hp.mem_iff]
  skipped := h.skipped

theorem enter_outside (h : Inv q (.outside :: threads) r 0) :
    Inv { q with nTotal := q.nTotal + 1 } (.outside :: threads) r 1 :=
  { h with total := congrArg (· + 1) h.total }

theorem enter_waiting (h : Inv q (.waiting :: threads) r 0) :
    Inv { q with nIdle := q.nIdle - 1 } (.outside :: threads) r 1 where
  idle := by
    have hidle := h.idle
    simp only [List.map_cons, List.sum_cons, Thread.idle] at hidle ⊢
    omega
  total := by
    have htotal := h.total
    simp only [List.map_cons, List.sum_cons, Thread.total] at htotal ⊢
    omega
  todo := by simpa using h.todo
  todo_le := h.todo_le
  works := by simpa using h.works
  perm := by simpa using h.perm
  ok := by simpa using h.ok
  skipped := h.skipped

theorem enter_running {nNow : Nat} {fOk : Bool} (h : Inv q (.running nNow [] fOk :: threads) r 0) :
    Inv { q with fAllOk := q.fAllOk && fOk, nTodo := q.nTodo - nNow } (.outside :: threads) r 1 where
  idle := by simpa using h.idle
  total := by
    have htotal := h.total
    simp only [List.map_cons, List.sum_cons, Thread.total] at htotal ⊢
    omega
  todo := by
    have htodo := h.todo
    simp only [List.map_cons, List.sum_cons, Thread.nNow] at htodo ⊢
    omega
  todo_le := Nat.le_trans (Nat.sub_le _ _) h.todo_le
  works := by simpa using fun t ht => h.works t (List.mem_cons_of_mem _ ht)
  perm := by simpa using h.perm
  ok := by
    rw [← h.ok]
    simp [and_assoc]
  skipped := h.skipped

theorem enter (h : Inv q (t :: threads) r 0) (hq : q.enter t = some q') :
    Inv q' (.outside :: threads) r 1 := by
  cases t with
  | outside => exact Option.some.inj hq ▸ h.enter_outside
  | waiting => exact Option.some.inj hq ▸ h.enter_waiting
  | running nNow vChecks fOk =>
    cases vChecks with
    | nil => exact Option.some.inj hq ▸ h.enter_running
    | cons check vChecks => cases hq

theorem returns (h : Inv q (.outside :: threads) r 1) :
    Inv { q with nTotal := q.nTotal - 1 } (.outside :: threads) r 0 :=
  { h with
    total := by
      have htotal := h.total
      simp only [List.map_cons, List.sum_cons, Thread.total] at htotal ⊢
      omega }

theorem waits (h : Inv q (.outside :: threads) r 1) :
    Inv { q with nIdle := q.nIdle + 1 } (.waiting :: threads) r 0 where
  idle := by
    have hidle := h.idle
    simp only [List.map_cons, List.sum_cons, Thread.idle] at hidle ⊢
    omega
  total := by
    have htotal := h.total
    simp only [List.map_cons, List.sum_cons, Thread.total] at htotal ⊢
    omega
  todo := by simpa using h.todo
  todo_le := h.todo_le
  works := by simpa using h.works
  perm := by simpa using h.perm
  ok := by simpa using h.ok
  skipped := h.skipped

theorem takes {n : Nat} (hn : 0 < n) (hle : n ≤ q.queue.length)
    (h : Inv q (.outside :: threads) r 1) :
    Inv { q with queue := q.queue.drop n }
      (.running n (q.queue.take n) q.fAllOk :: threads) r 0 where
  idle := by simpa using h.idle
  total := by
    have htotal := h.total
    simp only [List.map_cons, List.sum_cons, Thread.total] at htotal ⊢
    omega
  todo := by
    have htodo := h.todo
    simp only [List.map_cons, List.sum_cons, Thread.nNow, List.length_drop] at htodo ⊢
    omega
  todo_le := h.todo_le
  works := by simpa using ⟨hn, fun t ht => h.works t (List.mem_cons_of_mem _ ht)⟩
  perm := by
    -- the batch moves from the end of the queue into the hands of the thread
    have hsplit : q.queue.Perm (q.queue.drop n ++ q.queue.take n) := by
      conv_lhs => rw [← List.take_append_drop n q.queue]
      exact List.perm_append_comm
    refine h.perm.trans ?_
    simp only [List.flatMap_cons, Thread.vChecks, List.nil_append, List.append_assoc]
    refine List.Perm.append_left _ (List.Perm.append_left _ ?_)
    rw [← List.append_assoc]
    exact hsplit.append_right _
  ok := by
    rw [← h.ok]
    simp only [List.forall_mem_cons, Thread.fOk, true_and]
    exact ⟨fun h => ⟨h.1, h.2.2⟩, fun h => ⟨h.1, h.1, h.2⟩⟩
  skipped := h.skipped

theorem nNow_eq_zero {inside : Nat} (h : Inv q threads r inside) (htodo : q.nTodo = 0) :
    q.queue = [] ∧ ∀ t ∈ threads, t.nNow = 0 := by
  have hsum := h.todo
  rw [htodo] at hsum
  refine ⟨List.eq_nil_of_length_eq_zero (by omega), fun t ht => ?_⟩
  have hzero : (threads.map Thread.nNow).sum = 0 := by omega
  exact List.sum_eq_zero_iff_forall_eq_nat.mp hzero _ (List.mem_map_of_mem ht)

theorem perm_of_nTodo {inside : Nat} (h : Inv q threads r inside) (htodo : q.nTodo = 0) :
    r.added.Perm (r.executed.map Prod.fst ++ r.skipped) := by
  obtain ⟨hqueue, hnow⟩ := h.nNow_eq_zero htodo
  have hbatches : threads.flatMap Thread.vChecks = [] := List.flatMap_eq_nil_iff.mpr
    fun t ht => Thread.vChecks_of_nNow_eq_zero (h.works t ht) (hnow t ht)
  simpa [hqueue, hbatches] using h.perm

theorem fAllOk_iff {inside : Nat} (h : Inv q threads r inside) (htodo : q.nTodo = 0) :
    q.fAllOk = true ↔ ∀ e ∈ r.executed, e.2 = true := by
  obtain ⟨-, hnow⟩ := h.nNow_eq_zero htodo
  rw [← h.ok]
  exact ⟨fun hq => ⟨hq, fun t ht => Thread.fOk_of_nNow_eq_zero (h.works t ht) (hnow t ht)⟩, And.left⟩

end Inv

/-! ## Rounds -/

/-- What `Wait` says about the checks added since the previous one. -/
structure Round.Ended (r : Round T) (fRet : Bool) : Prop where
  /-- Every check was evaluated or skipped, and only once. -/
  perm : r.added.Perm (r.executed.map Prod.fst ++ r.skipped)
  /-- If all evaluations succeed, every check was evaluated. -/
  all : (∀ e ∈ r.executed, e.2 = true) → r.added.Perm (r.executed.map Prod.fst)
  /-- The result is true exactly if every check was evaluated to true. -/
  result : fRet = true ↔ r.added.Perm ((r.executed.filter Prod.snd).map Prod.fst)

namespace Inv

theorem ended {inside : Nat} (h : Inv q threads r inside) (htodo : q.nTodo = 0) :
    r.Ended q.fAllOk := by
  have hperm := h.perm_of_nTodo htodo
  have hall : (∀ e ∈ r.executed, e.2 = true) → r.added.Perm (r.executed.map Prod.fst) := by
    intro htrue
    have hskipped : r.skipped = [] := by
      by_contra hne
      obtain ⟨e, he, hfalse⟩ := h.skipped hne
      rw [htrue e he] at hfalse
      cases hfalse
    simpa [hskipped] using hperm
  refine ⟨hperm, hall, (h.fAllOk_iff htodo).trans ⟨fun htrue => ?_, fun hadded => ?_⟩⟩
  · rw [List.filter_eq_self.mpr htrue]
    exact hall htrue
  · -- as many evaluations to true as checks: there was no other evaluation
    have hlength := hperm.symm.trans hadded |>.length_eq
    have hle := List.length_filter_le Prod.snd r.executed
    simp only [List.length_append, List.length_map] at hlength
    exact List.length_filter_eq_length_iff.mp (by omega)

theorem new_round {inside : Nat} (h : Inv q threads r inside) (htodo : q.nTodo = 0) :
    Inv { q with fAllOk := true } threads ⟨[], [], []⟩ inside := by
  obtain ⟨hqueue, hnow⟩ := h.nNow_eq_zero htodo
  have hbatches : threads.flatMap Thread.vChecks = [] := List.flatMap_eq_nil_iff.mpr
    fun t ht => Thread.vChecks_of_nNow_eq_zero (h.works t ht) (hnow t ht)
  exact
    { h with
      todo_le := Nat.le_of_eq htodo
      perm := by simp [hqueue, hbatches]
      ok := by
        simpa using fun t ht => Thread.fOk_of_nNow_eq_zero (h.works t ht) (hnow t ht)
      skipped := fun hne => absurd rfl hne }

/-- The round after a critical section: a new one if the master has returned. -/
def roundAfter (fMaster : Bool) (r : Round T) (fRet : Option Bool) : Round T :=
  if fMaster && fRet.isSome then ⟨[], [], []⟩ else r

theorem takeWork (fMaster : Bool) (h : Inv q (.outside :: threads) r 1) :
    Inv (q.takeWork fMaster).1 ((q.takeWork fMaster).2.1 :: threads)
      (roundAfter fMaster r (q.takeWork fMaster).2.2) 0 ∧
    ∀ fRet, fMaster = true → (q.takeWork fMaster).2.2 = some fRet → r.Ended fRet := by
  rw [CCheckQueue.takeWork]
  split
  · split
    · next hdone =>
      have htodo : q.nTodo = 0 := by
        rw [Bool.and_eq_true] at hdone
        exact eq_of_beq hdone.2
      refine ⟨?_, fun fRet _ hret => Option.some.inj hret ▸ h.ended htodo⟩
      cases fMaster with
      | false => exact h.returns
      | true => exact (h.new_round htodo).returns
    · refine ⟨?_, fun fRet _ hret => by cases hret⟩
      rw [roundAfter, Option.isSome_none, Bool.and_false]
      exact h.waits
  · next hne =>
    have hqueue : q.queue ≠ [] := fun hnil => hne (by rw [hnil]; rfl)
    refine ⟨?_, fun fRet _ hret => by cases hret⟩
    rw [roundAfter, Option.isSome_none, Bool.and_false]
    exact h.takes (batchSize_pos q) (batchSize_le hqueue)

/-- A check that a thread evaluates is one of its batch. -/
theorem executes {nNow : Nat} {check : T} {vChecks : List T} {result : Bool}
    (h : Inv q (.running nNow (check :: vChecks) true :: threads) r 0) :
    Inv q (.running nNow vChecks result :: threads)
      { r with executed := r.executed ++ [(check, result)] } 0 where
  idle := by simpa using h.idle
  total := by simpa using h.total
  todo := by simpa using h.todo
  todo_le := h.todo_le
  works := by simpa using h.works
  perm := by
    classical
    rw [List.perm_iff_count]
    intro other
    have hcount := h.perm.count_eq other
    simp only [List.flatMap_cons, Thread.vChecks, List.map_append, List.map_cons, List.map_nil,
      List.count_append, List.count_cons, List.count_nil] at hcount ⊢
    omega
  ok := by
    have hok := h.ok
    simp only [List.forall_mem_cons, Thread.fOk, true_and] at hok ⊢
    rw [List.forall_mem_append, ← hok, List.forall_mem_singleton]
    exact ⟨fun ⟨hq, hr, hall⟩ => ⟨⟨hq, hall⟩, hr⟩, fun ⟨⟨hq, hall⟩, hr⟩ => ⟨hq, hr, hall⟩⟩
  skipped hne := by
    obtain ⟨e, he, hfalse⟩ := h.skipped hne
    exact ⟨e, List.mem_append_left _ he, hfalse⟩

/-- A thread skips a check only if there was a failure. -/
theorem skips {nNow : Nat} {check : T} {vChecks : List T}
    (h : Inv q (.running nNow (check :: vChecks) false :: threads) r 0) :
    Inv q (.running nNow vChecks false :: threads) { r with skipped := r.skipped ++ [check] } 0 where
  idle := by simpa using h.idle
  total := by simpa using h.total
  todo := by simpa using h.todo
  todo_le := h.todo_le
  works := by simpa using h.works
  perm := by
    classical
    rw [List.perm_iff_count]
    intro other
    have hcount := h.perm.count_eq other
    simp only [List.flatMap_cons, Thread.vChecks, List.count_append, List.count_cons,
      List.count_nil] at hcount ⊢
    omega
  ok := by simpa using h.ok
  skipped _ := by
    by_contra hnone
    have htrue : ∀ e ∈ r.executed, e.2 = true := fun e he =>
      eq_true_of_ne_false fun hfalse => hnone ⟨e, he, hfalse⟩
    exact Bool.false_ne_true ((h.ok.mpr htrue).2 _ List.mem_cons_self)

theorem runCheck {result : Bool} {r' : Round T} {t' : Thread T} (h : Inv q (t :: threads) r 0)
    (hrun : Pool.runCheck r result t = some (r', t')) : Inv q (t' :: threads) r' 0 := by
  cases t with
  | outside => cases hrun
  | waiting => cases hrun
  | running nNow vChecks fOk =>
    cases vChecks with
    | nil => cases hrun
    | cons check vChecks =>
      cases fOk with
      | true =>
        obtain ⟨rfl, rfl⟩ := Prod.mk.inj (Option.some.inj hrun)
        exact h.executes
      | false =>
        obtain ⟨rfl, rfl⟩ := Prod.mk.inj (Option.some.inj hrun)
        exact h.skips

theorem add (h : Inv q threads r 0) (vChecks : List T) :
    Inv (q.add vChecks) threads { r with added := r.added ++ vChecks } 0 where
  idle := h.idle
  total := h.total
  todo := by
    have htodo := h.todo
    simp only [CCheckQueue.add, List.length_append, List.length_reverse] at htodo ⊢
    omega
  todo_le := by
    have hle := h.todo_le
    simp only [CCheckQueue.add, List.length_append] at hle ⊢
    omega
  works := h.works
  perm := by
    classical
    rw [List.perm_iff_count]
    intro check
    have hcount := h.perm.count_eq check
    simp only [CCheckQueue.add, List.count_append, List.count_reverse] at hcount ⊢
    omega
  ok := h.ok
  skipped := h.skipped

end Inv

/-! ## All threads -/

namespace Pool

/-- The invariant of the queue, and what was said at the end of each round. -/
structure Consistent (s : Pool T) : Prop where
  inv : Inv s.queue s.threads s.current 0
  ended : ∀ e ∈ s.finished, e.1.Ended e.2

theorem consistent_init (nBatchSize nWorkers : Nat) :
    Consistent (init nBatchSize nWorkers : Pool T) where
  inv := by
    constructor <;> simp [init, CCheckQueue.init]
  ended e he := absurd he List.not_mem_nil

theorem perm_set {α : Type} {l : List α} {i : Nat} {a : α} (h : l[i]? = some a) :
    ∃ rest, l.Perm (a :: rest) ∧ ∀ b, (b :: rest).Perm (l.set i b) := by
  obtain ⟨hi, rfl⟩ := List.getElem?_eq_some_iff.mp h
  refine ⟨l.take i ++ l.drop (i + 1), ?_, fun b => ?_⟩
  · refine List.Perm.trans (.of_eq ?_) List.perm_middle
    rw [List.getElem_cons_drop, List.take_append_drop]
  · rw [List.set_eq_take_append_cons_drop, if_pos hi]
    exact List.perm_middle.symm

theorem Consistent.leave {s : Pool T} (hs : Consistent s) {i : Nat}
    (h : s.threads[i]? = some t) (hq : s.queue.enter t = some q') :
    Consistent (s.leave i (q'.takeWork (i == 0))) := by
  obtain ⟨rest, hfirst, hset⟩ := perm_set h
  obtain ⟨hinv, hended⟩ := ((hs.inv.of_perm hfirst).enter hq).takeWork (i == 0)
  have hinv := hinv.of_perm (hset _)
  revert hinv hended
  obtain ⟨q1, t1, fRet⟩ := q'.takeWork (i == 0)
  intro hended hinv
  cases i with
  | succ i => exact ⟨hinv, hs.ended⟩
  | zero =>
    cases fRet with
    | none => exact ⟨hinv, hs.ended⟩
    | some fRet =>
      refine ⟨hinv, fun e he => ?_⟩
      rcases List.mem_append.mp he with hold | hnew
      · exact hs.ended e hold
      · rw [List.mem_singleton.mp hnew]
        exact hended fRet rfl rfl

theorem Consistent.step {s s' : Pool T} (hs : Consistent s) {op : Op T}
    (h : s.step op = some s') : Consistent s' := by
  cases op with
  | critical i =>
    obtain ⟨q', hq, rfl⟩ := Option.map_eq_some_iff.mp h
    obtain ⟨t, ht, hq⟩ := Option.bind_eq_some_iff.mp hq
    exact hs.leave ht hq
  | check i result =>
    obtain ⟨⟨r, t'⟩, hr, rfl⟩ := Option.map_eq_some_iff.mp h
    obtain ⟨t, ht, hr⟩ := Option.bind_eq_some_iff.mp hr
    obtain ⟨rest, hfirst, hset⟩ := perm_set ht
    exact ⟨((hs.inv.of_perm hfirst).runCheck hr).of_perm (hset t'), hs.ended⟩
  | add vChecks =>
    rw [Pool.step] at h
    split at h
    · obtain rfl := Option.some.inj h
      exact ⟨hs.inv.add vChecks, hs.ended⟩
    · cases h
  | quit =>
    obtain rfl := Option.some.inj h
    exact ⟨{ hs.inv with }, hs.ended⟩

/-- What `CCheckQueueControl` asserts of an unused queue. -/
def Unused (q : CCheckQueue T) : Prop := q.nTotal = q.nIdle ∧ q.nTodo = 0 ∧ q.fAllOk = true

theorem Consistent.unused {s : Pool T} (hs : Consistent s) (hnone : s.current.added = []) :
    Unused s.queue := by
  have htodo : s.queue.nTodo = 0 := by
    have hle := hs.inv.todo_le
    rw [hnone] at hle
    exact Nat.le_zero.mp hle
  obtain ⟨-, hnow⟩ := hs.inv.nNow_eq_zero htodo
  have hperm := hs.inv.perm_of_nTodo htodo
  rw [hnone, List.nil_perm, List.append_eq_nil_iff, List.map_eq_nil_iff] at hperm
  refine ⟨?_, htodo, (hs.inv.fAllOk_iff htodo).mpr fun e he => ?_⟩
  · rw [hs.inv.total, hs.inv.idle, Nat.add_zero]
    exact congrArg List.sum (List.map_congr_left fun t ht =>
      Thread.total_eq_idle_of_nNow_eq_zero (hs.inv.works t ht) (hnow t ht))
  · rw [hperm.1] at he
    exact absurd he List.not_mem_nil

/-- In any order of the critical sections of a master and his workers: the result of every `Wait`
is true exactly if all checks added since the previous one were evaluated to true, no check is lost
or evaluated twice, and until something is added again the queue is unused. -/
theorem checkQueue_spec (nBatchSize nWorkers : Nat) (ops : List (Op T)) (s : Pool T)
    (h : Run.run step (init nBatchSize nWorkers) ops = some s) :
    (∀ e ∈ s.finished, e.1.Ended e.2) ∧
      s.current.added.Perm (s.current.executed.map Prod.fst ++ s.current.skipped ++ s.queue.queue ++
        s.threads.flatMap Thread.vChecks) ∧
      (s.current.added = [] → Unused s.queue) := by
  have hs : Consistent s := Run.run_invariant (fun _ _ _ _ hs h => Consistent.step hs h)
    (consistent_init nBatchSize nWorkers) h
  exact ⟨hs.ended, hs.inv.perm, hs.unused⟩

namespace CheckQueueSample

/-- Two rounds with one worker; in the second one a check fails, and another is skipped. -/
def ops : List (Op Nat) :=
  [.critical 1, .add [5, 6, 7], .critical 0, .critical 1, .check 0 true, .check 1 true, .critical 1,
    .critical 0, .check 1 true, .critical 1, .critical 0,
    .add [8, 9], .critical 0, .check 0 false, .critical 0, .check 0 true, .critical 0]

def last : Pool Nat :=
  ⟨⟨[], 1, 1, true, 0, false, 2⟩, [.outside, .waiting], ⟨[], [], []⟩,
    [(⟨[5, 6, 7], [(7, true), (6, true), (5, true)], []⟩, true),
      (⟨[8, 9], [(9, false)], [8]⟩, false)]⟩

theorem checkQueue_spec_sample : (∀ e ∈ last.finished, e.1.Ended e.2) ∧ Unused last.queue := by
  obtain ⟨hended, -, hunused⟩ := checkQueue_spec 2 1 ops last (by decide +kernel)
  exact ⟨hended, hunused rfl⟩

end CheckQueueSample

end Pool

end CCheckQueue

end Terracoin
