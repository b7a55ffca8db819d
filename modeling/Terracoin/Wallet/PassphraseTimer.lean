import Mathlib.Algebra.Group.Int.Defs
import Mathlib.Order.Bounds.Basic
import Terracoin.Lib.Run

/-!
# The timer of `walletpassphrase`

`walletpassphrase` unlocks the wallet and starts a thread (`ThreadCleanWalletPassphrase`) that
locks it again after a timeout. All these threads share `nWalletUnlockTime`; the first one that
finds it 0 sets it and sleeps until then, the others only move it forward. `walletlock` locks the
wallet and sets it to 0.

A thread that is slow to start can come after a `walletlock` and a new `walletpassphrase`: it then
takes the 0 for its own and sets its old deadline, or locks the wallet at once. As long as no thread
does that, the wallet stays unlocked until the deadlines have passed and a thread waits to lock it
(`passphraseTimer_spec`).
-/

namespace Terracoin

/-- How far a `ThreadCleanWalletPassphrase` has come. -/
inductive CleanPhase where
  /-- It has been started with this timeout. -/
  | created (nTimeout : Int)
  /-- It has read the clock and waits for the critical section. -/
  | ready (nMyWakeTime : Int)
  /-- It has left the critical section and sleeps until `nUntil`. -/
  | sleeping (nMyWakeTime nUntil : Int)
  | finished (nMyWakeTime : Int)
deriving DecidableEq, Repr

namespace CleanPhase

/-- The deadline, once it has been computed. -/
def deadline : CleanPhase → Option Int
  | created _ => none
  | ready nMyWakeTime => some nMyWakeTime
  | sleeping nMyWakeTime _ => some nMyWakeTime
  | finished nMyWakeTime => some nMyWakeTime

/-- The deadline of a thread that has run its first critical section. -/
def entered : CleanPhase → Option Int
  | created _ => none
  | ready _ => none
  | sleeping nMyWakeTime _ => some nMyWakeTime
  | finished nMyWakeTime => some nMyWakeTime

theorem deadline_of_entered {phase : CleanPhase} {w : Int} (h : phase.entered = some w) :
    phase.deadline = some w := by
  cases phase with
  | created nTimeout => cases h
  | ready nMyWakeTime => cases h
  | sleeping nMyWakeTime nUntil => exact h
  | finished nMyWakeTime => exact h

end CleanPhase

/-- A thread, with the number of `walletlock` calls before its start. -/
structure CleanThread where
  nLocks : Nat
  phase : CleanPhase
deriving DecidableEq, Repr

/-- An encrypted wallet with the timer. -/
structure PassphraseTimer where
  /-- `GetTimeMillis()`. -/
  now : Int
  fLocked : Bool
  nWalletUnlockTime : Int
  /-- The timeout of a `walletpassphrase` that has unlocked the wallet and has not started its
  thread. -/
  pending : Option Int
  threads : List CleanThread
  /-- How often `walletlock` was called. -/
  nLocks : Nat
deriving DecidableEq, Repr

inductive TimerAction where
  | tick (now : Int)
  /-- `walletpassphrase` up to the thread that it starts. -/
  | unlock (nTimeout : Int)
  /-- The rest of `walletpassphrase`. -/
  | newThread
  | walletlock
  /-- A thread reads the clock. -/
  | start (i : Nat)
  /-- The first critical section of a thread. -/
  | enter (i : Nat)
  /-- A thread wakes up and runs its next critical section. -/
  | wake (i : Nat)
deriving DecidableEq, Repr

namespace PassphraseTimer

def setPhase (s : PassphraseTimer) (i : Nat) (phase : CleanPhase) : PassphraseTimer :=
  { s with threads := s.threads.modify i fun thread => { thread with phase := phase } }

/-- The loop until the thread sleeps, and what follows the loop if it leaves it. -/
def checkTime (s : PassphraseTimer) (i : Nat) (nMyWakeTime : Int) : PassphraseTimer :=
  if s.nWalletUnlockTime = 0 then s.setPhase i (.finished nMyWakeTime)
  else if s.nWalletUnlockTime - s.now ≤ 0 then
    { s with nWalletUnlockTime := 0, fLocked := true }.setPhase i (.finished nMyWakeTime)
  else s.setPhase i (.sleeping nMyWakeTime s.nWalletUnlockTime)

/-- `ThreadCleanWalletPassphrase` from the first critical section on. -/
def firstSection (s : PassphraseTimer) (i : Nat) (nMyWakeTime : Int) : PassphraseTimer :=
  if s.nWalletUnlockTime = 0 then
    { s with nWalletUnlockTime := nMyWakeTime }.checkTime i nMyWakeTime
  else
    { s with nWalletUnlockTime :=
        if s.nWalletUnlockTime < nMyWakeTime then nMyWakeTime
        else s.nWalletUnlockTime }.setPhase i (.finished nMyWakeTime)

/-- The calls hold `cs_main`, so no other one comes between the two halves of `walletpassphrase`.
The clock does not go back, and no deadline overflows. A thread may wake up at any time. -/
def step (s : PassphraseTimer) : TimerAction → Option PassphraseTimer
  | .tick now => if s.now ≤ now then some { s with now := now } else none
  | .unlock nTimeout =>
    -- the wallet must be locked, with the right passphrase it is unlocked
    if s.fLocked = true ∧ s.pending = none then
      some { s with fLocked := false, pending := some nTimeout }
    else none
  | .newThread =>
    match s.pending with
    | none => none
    | some nTimeout =>
      some { s with pending := none, threads := s.threads ++ [⟨s.nLocks, .created nTimeout⟩] }
  | .walletlock =>
    if s.pending = none then
      some { s with fLocked := true, nWalletUnlockTime := 0, nLocks := s.nLocks + 1 }
    else none
  | .start i =>
    match s.threads[i]? with
    | some ⟨_, .created nTimeout⟩ =>
      if -2 ^ 63 ≤ s.now + nTimeout * 1000 ∧ s.now + nTimeout * 1000 < 2 ^ 63 then
        some (s.setPhase i (.ready (s.now + nTimeout * 1000)))
      else none
    | _ => none
  | .enter i =>
    match s.threads[i]? with
    | some ⟨_, .ready nMyWakeTime⟩ => some (s.firstSection i nMyWakeTime)
    | _ => none
  | .wake i =>
    match s.threads[i]? with
    | some ⟨_, .sleeping nMyWakeTime _⟩ => some (s.checkTime i nMyWakeTime)
    | _ => none

/-- A locked wallet without threads. -/
def init (now : Int) : PassphraseTimer := ⟨now, true, 0, none, [], 0⟩

/-- A deadline that was requested since the last `walletlock`. -/
def Requested (s : PassphraseTimer) (nDeadline : Int) : Prop :=
  ∃ thread ∈ s.threads, thread.nLocks = s.nLocks ∧ thread.phase.deadline = some nDeadline

/-- Every request since the last `walletlock` has a deadline, and it has passed. -/
def AllPassed (s : PassphraseTimer) : Prop :=
  s.pending = none ∧ ∀ thread ∈ s.threads, thread.nLocks = s.nLocks →
    ∃ nDeadline, thread.phase.deadline = some nDeadline ∧ nDeadline ≤ s.now

/-- The action is not a thread that locks the wallet before the deadlines. -/
def NotEarly (s : PassphraseTimer) (action : TimerAction) : Prop :=
  action ≠ .walletlock → s.fLocked = false →
    ∀ s', s.step action = some s' → s'.fLocked = true → s.AllPassed

/-- If the wallet is unlocked and every thread has run its first critical section, the timer is set
to the latest deadline and a thread sleeps until then. -/
def TimerSet (s : PassphraseTimer) : Prop :=
  s.fLocked = false → s.pending = none → (∀ thread ∈ s.threads, thread.phase.entered.isSome) →
    IsGreatest s.Requested s.nWalletUnlockTime ∧
      ∃ thread ∈ s.threads, ∃ nMyWakeTime,
        thread.phase = .sleeping nMyWakeTime s.nWalletUnlockTime

/-- The condition on a first critical section: a thread that was started after the last
`walletlock` has a deadline other than 0, and one that was started before it finds nothing to
change. -/
def InOrder (s : PassphraseTimer) : TimerAction → Prop
  | .enter i => ∀ (nLocks : Nat) (nMyWakeTime : Int),
      s.threads[i]? = some ⟨nLocks, .ready nMyWakeTime⟩ →
      if nLocks = s.nLocks then nMyWakeTime ≠ 0
      else if s.nWalletUnlockTime = 0 then s.fLocked = true ∧ nMyWakeTime ≤ s.now
      else nMyWakeTime ≤ s.nWalletUnlockTime
  | _ => True

/-! ## The invariant -/

/-- Every thread since the last `walletlock`, other than `i`, has run its first critical section and
has its deadline by `t`. -/
def EnteredBut (s : PassphraseTimer) (i : Option Nat) (t : Int) : Prop :=
  ∀ (j : Nat) (thread : CleanThread), s.threads[j]? = some thread → thread.nLocks = s.nLocks →
    i ≠ some j → ∃ w, thread.phase.entered = some w ∧ w ≤ t

/-- The thread `i` is the one that is still to set the timer. -/
def Starting (s : PassphraseTimer) (i : Nat) : Prop :=
  ∃ thread, s.threads[i]? = some thread ∧ thread.nLocks = s.nLocks ∧ thread.phase.entered = none

inductive Inv (s : PassphraseTimer) : Prop
  | locked (fLocked : s.fLocked = true) (time : s.nWalletUnlockTime = 0)
    (pending : s.pending = none) (entered : s.EnteredBut none s.now)
  | requested (fLocked : s.fLocked = false) (time : s.nWalletUnlockTime = 0)
    (pending : s.pending.isSome = true) (entered : s.EnteredBut none s.now)
  | starting (fLocked : s.fLocked = false) (time : s.nWalletUnlockTime = 0)
    (pending : s.pending = none) (i : Nat) (thread : s.Starting i)
    (entered : s.EnteredBut (some i) s.now)
  | set (fLocked : s.fLocked = false) (time : s.nWalletUnlockTime ≠ 0)
    (pending : s.pending = none) (entered : s.EnteredBut none s.nWalletUnlockTime)
    (requested : s.Requested s.nWalletUnlockTime)
    (sleeping : ∃ (j : Nat) (n : Nat) (w : Int),
      s.threads[j]? = some ⟨n, .sleeping w s.nWalletUnlockTime⟩)

variable {s s' : PassphraseTimer} {i : Nat} {thread : CleanThread} {phase : CleanPhase} {t : Int}

theorem getElem?_setPhase (s : PassphraseTimer) (i j : Nat) (phase : CleanPhase) :
    (s.setPhase i phase).threads[j]? =
      (s.threads[j]?).map fun thread => if i = j then { thread with phase := phase } else thread := by
  rw [setPhase, List.getElem?_modify]
  rfl

theorem getElem?_setPhase_eq_some {j : Nat} {thread' : CleanThread}
    (hi : s.threads[i]? = some thread) (h : (s.setPhase i phase).threads[j]? = some thread') :
    j = i ∧ thread' = { thread with phase := phase } ∨ j ≠ i ∧ s.threads[j]? = some thread' := by
  rw [getElem?_setPhase] at h
  obtain ⟨thread0, h0, rfl⟩ := Option.map_eq_some_iff.mp h
  by_cases hij : i = j
  · subst hij
    obtain rfl := Option.some.inj (hi.symm.trans h0)
    exact .inl ⟨rfl, by rw [if_pos rfl]⟩
  · exact .inr ⟨Ne.symm hij, by rw [if_neg hij, h0]⟩

theorem getElem?_setPhase_self (hi : s.threads[i]? = some thread) :
    (s.setPhase i phase).threads[i]? = some { thread with phase := phase } := by
  rw [getElem?_setPhase, hi, Option.map_some, if_pos rfl]

theorem getElem?_setPhase_ne {j : Nat} (hij : j ≠ i) :
    (s.setPhase i phase).threads[j]? = s.threads[j]? := by
  rw [getElem?_setPhase]
  simp [hij.symm]

theorem EnteredBut.mono {o : Option Nat} {t' : Int} (h : s.EnteredBut o t) (ht : t ≤ t') :
    s.EnteredBut o t' := by
  intro j thread hj hfresh hne
  obtain ⟨w, hw, hle⟩ := h j thread hj hfresh hne
  exact ⟨w, hw, hle.trans ht⟩

theorem EnteredBut.setPhase {o : Option Nat} (h : s.EnteredBut o t)
    (hi : s.threads[i]? = some thread)
    (hphase : thread.nLocks = s.nLocks → o ≠ some i → ∃ w, phase.entered = some w ∧ w ≤ t) :
    (s.setPhase i phase).EnteredBut o t := by
  intro j thread' hj hfresh hne
  rcases getElem?_setPhase_eq_some hi hj with ⟨rfl, rfl⟩ | ⟨-, hj⟩
  · exact hphase hfresh hne
  · exact h j thread' hj hfresh hne

/-- A thread that changes its phase and not what the others see of it. -/
theorem Inv.setPhase (h : s.Inv) (hi : s.threads[i]? = some thread)
    (hentered : thread.nLocks = s.nLocks → phase.entered = thread.phase.entered)
    (hsleeping : s.nWalletUnlockTime ≠ 0 → ∀ w, thread.phase = .sleeping w s.nWalletUnlockTime →
      ∃ w', phase = .sleeping w' s.nWalletUnlockTime) : (s.setPhase i phase).Inv := by
  have hkeep : ∀ (o : Option Nat) (t : Int), s.EnteredBut o t →
      (s.setPhase i phase).EnteredBut o t := by
    intro o t hall
    refine hall.setPhase hi fun hfresh hne => ?_
    rw [hentered hfresh]
    exact hall i thread hi hfresh hne
  cases h with
  | locked fLocked time pending entered => exact .locked fLocked time pending (hkeep _ _ entered)
  | requested fLocked time pending entered =>
    exact .requested fLocked time pending (hkeep _ _ entered)
  | starting fLocked time pending j hstarting entered =>
    refine .starting fLocked time pending j ?_ (hkeep _ _ entered)
    obtain ⟨thread', hj, hfresh, hnone⟩ := hstarting
    by_cases hij : j = i
    · subst hij
      obtain rfl := Option.some.inj (hi.symm.trans hj)
      exact ⟨_, getElem?_setPhase_self hi, hfresh, (hentered hfresh).trans hnone⟩
    · exact ⟨thread', (getElem?_setPhase_ne hij).trans hj, hfresh, hnone⟩
  | set fLocked time pending entered hrequested sleeping =>
    refine .set fLocked time pending (hkeep _ _ entered) ?_ ?_
    · obtain ⟨thread', hmem, hfresh, hdeadline⟩ := hrequested
      obtain ⟨j, hj⟩ := List.mem_iff_getElem?.mp hmem
      by_cases hij : j = i
      · subst hij
        obtain rfl := Option.some.inj (hi.symm.trans hj)
        obtain ⟨w, hw, -⟩ := entered j thread hi hfresh nofun
        rw [CleanPhase.deadline_of_entered hw] at hdeadline
        refine ⟨_, List.mem_iff_getElem?.mpr ⟨j, getElem?_setPhase_self hi⟩, hfresh, ?_⟩
        exact CleanPhase.deadline_of_entered ((hentered hfresh).trans (hw.trans hdeadline))
      · exact ⟨thread', List.mem_iff_getElem?.mpr ⟨j, (getElem?_setPhase_ne hij).trans hj⟩, hfresh,
          hdeadline⟩
    · obtain ⟨j, n, w, hj⟩ := sleeping
      by_cases hij : j = i
      · subst hij
        obtain rfl := Option.some.inj (hi.symm.trans hj)
        obtain ⟨w', rfl⟩ := hsleeping time w rfl
        exact ⟨j, n, w', getElem?_setPhase_self hi⟩
      · exact ⟨j, n, w, (getElem?_setPhase_ne hij).trans hj⟩

/-- A thread before its first critical section is the one that is to set the timer, if it was
started since the last `walletlock`. -/
theorem Inv.starting_of_ready (h : s.Inv) (hi : s.threads[i]? = some thread)
    (hfresh : thread.nLocks = s.nLocks) (hnone : thread.phase.entered = none) :
    s.fLocked = false ∧ s.nWalletUnlockTime = 0 ∧ s.pending = none ∧
      s.EnteredBut (some i) s.now := by
  have hnot : ∀ t, ¬ s.EnteredBut none t := by
    intro t hall
    obtain ⟨w, hw, -⟩ := hall i thread hi hfresh nofun
    rw [hnone] at hw
    cases hw
  cases h with
  | locked fLocked time pending entered => exact absurd entered (hnot _)
  | requested fLocked time pending entered => exact absurd entered (hnot _)
  | set fLocked time pending entered hrequested sleeping => exact absurd entered (hnot _)
  | starting fLocked time pending j hstarting entered =>
    by_cases hij : j = i
    · subst hij
      exact ⟨fLocked, time, pending, entered⟩
    · obtain ⟨w, hw, -⟩ := entered i thread hi hfresh fun heq => hij (Option.some.inj heq)
      rw [hnone] at hw
      cases hw

/-! ## The steps -/

/-- The first critical section of the thread that is to set the timer. -/
theorem Inv.firstSection {n : Nat} {w : Int} (h : s.Inv)
    (hi : s.threads[i]? = some ⟨n, .ready w⟩) (hfresh : n = s.nLocks) (hw : w ≠ 0) :
    (s.firstSection i w).Inv ∧ ((s.firstSection i w).fLocked = true → s.AllPassed) := by
  obtain ⟨fLocked, time, pending, entered⟩ := h.starting_of_ready hi hfresh rfl
  have hothers : ∀ {t : Int} {phase : CleanPhase}, s.now ≤ t → w ≤ t → phase.entered = some w →
      (s.setPhase i phase).EnteredBut none t := by
    intro t phase hnow hwt hphase j thread' hj hfresh' _
    rcases getElem?_setPhase_eq_some hi hj with ⟨rfl, rfl⟩ | ⟨hij, hj⟩
    · exact ⟨w, hphase, hwt⟩
    · obtain ⟨w', hw', hle⟩ := entered j thread' hj hfresh' fun heq => hij (Option.some.inj heq).symm
      exact ⟨w', hw', hle.trans hnow⟩
  rw [PassphraseTimer.firstSection, if_pos time, checkTime, if_neg hw]
  split
  · next hpassed =>
    have hpassed : w ≤ s.now := by
      dsimp only at hpassed
      omega
    refine ⟨.locked rfl rfl pending (hothers (le_refl s.now) hpassed rfl),
      fun _ => ⟨pending, fun thread hmem hfresh' => ?_⟩⟩
    obtain ⟨j, hj⟩ := List.mem_iff_getElem?.mp hmem
    by_cases hij : j = i
    · subst hij
      obtain rfl := Option.some.inj (hi.symm.trans hj)
      exact ⟨w, rfl, hpassed⟩
    · obtain ⟨w', hw', hle⟩ := entered j thread hj hfresh' fun heq => hij (Option.some.inj heq).symm
      exact ⟨w', CleanPhase.deadline_of_entered hw', hle⟩
  · next hfuture =>
    have hfuture : s.now ≤ w := by
      dsimp only at hfuture
      omega
    refine ⟨.set fLocked hw pending (hothers hfuture (le_refl w) rfl) ?_ ?_,
      fun hlocked => ?_⟩
    · exact ⟨_, List.mem_iff_getElem?.mpr ⟨i, getElem?_setPhase_self hi⟩, hfresh, rfl⟩
    · exact ⟨i, n, w, getElem?_setPhase_self hi⟩
    · exact absurd (fLocked.symm.trans hlocked) Bool.false_ne_true

/-- A thread from before the last `walletlock` that finds nothing to change. -/
theorem firstSection_of_stale {w : Int}
    (hC : if s.nWalletUnlockTime = 0 then s.fLocked = true ∧ w ≤ s.now
      else w ≤ s.nWalletUnlockTime) :
    s.firstSection i w = s.setPhase i (.finished w) := by
  obtain ⟨now, fLocked, time, pending, threads, nLocks⟩ := s
  rw [firstSection]
  split at hC
  · next htime =>
    obtain ⟨rfl, hle⟩ := hC
    obtain rfl : time = 0 := htime
    rw [if_pos rfl, checkTime]
    split
    · next hw =>
      obtain rfl : w = 0 := hw
      rfl
    · rw [if_pos (by dsimp only at hle ⊢; omega)]
  · next htime =>
    rw [if_neg htime, if_neg (by omega)]

/-- A thread that wakes up. -/
theorem Inv.checkTime {n : Nat} {w nUntil : Int} (h : s.Inv)
    (hi : s.threads[i]? = some ⟨n, .sleeping w nUntil⟩) :
    (s.checkTime i w).Inv ∧
      (s.fLocked = false → (s.checkTime i w).fLocked = true → s.AllPassed) := by
  rw [PassphraseTimer.checkTime]
  split
  · next htime =>
    refine ⟨h.setPhase hi (fun _ => rfl) fun hne => absurd htime hne, fun hfalse htrue => ?_⟩
    exact absurd (hfalse.symm.trans htrue) Bool.false_ne_true
  · next htime =>
    split
    · next hpassed =>
      cases h with
      | locked fLocked time => exact absurd time htime
      | requested fLocked time => exact absurd time htime
      | starting fLocked time => exact absurd time htime
      | set fLocked time pending entered hrequested sleeping =>
        have hall : s.EnteredBut none s.now := entered.mono (by omega)
        refine ⟨.locked rfl rfl pending (hall.setPhase hi fun hfresh hne => ?_),
          fun _ _ => ⟨pending, fun thread hmem hfresh => ?_⟩⟩
        · exact hall i _ hi hfresh hne
        · obtain ⟨j, hj⟩ := List.mem_iff_getElem?.mp hmem
          obtain ⟨w', hw', hle⟩ := hall j thread hj hfresh nofun
          exact ⟨w', CleanPhase.deadline_of_entered hw', hle⟩
    · refine ⟨h.setPhase hi (fun _ => rfl) fun _ w' _ => ⟨w, rfl⟩, fun hfalse htrue => ?_⟩
      exact absurd (hfalse.symm.trans htrue) Bool.false_ne_true

/-- The invariant, and that no thread is ahead of the count of `walletlock` calls. -/
structure Good (s : PassphraseTimer) : Prop where
  inv : s.Inv
  nLocks_le : ∀ thread ∈ s.threads, thread.nLocks ≤ s.nLocks

theorem nLocks_le_setPhase (h : ∀ thread ∈ s.threads, thread.nLocks ≤ s.nLocks) :
    ∀ thread ∈ (s.setPhase i phase).threads, thread.nLocks ≤ s.nLocks := by
  intro thread hmem
  obtain ⟨j, hj⟩ := List.mem_iff_getElem?.mp hmem
  rw [getElem?_setPhase] at hj
  obtain ⟨thread0, h0, rfl⟩ := Option.map_eq_some_iff.mp hj
  have hle := h thread0 (List.mem_of_getElem? h0)
  split
  · exact hle
  · exact hle

theorem nLocks_le_checkTime {w : Int} (h : ∀ thread ∈ s.threads, thread.nLocks ≤ s.nLocks) :
    ∀ thread ∈ (s.checkTime i w).threads, thread.nLocks ≤ (s.checkTime i w).nLocks := by
  rw [checkTime]
  split
  · exact nLocks_le_setPhase h
  · split
    · exact nLocks_le_setPhase (s := { s with nWalletUnlockTime := 0, fLocked := true }) h
    · exact nLocks_le_setPhase h

theorem nLocks_le_firstSection {w : Int} (h : ∀ thread ∈ s.threads, thread.nLocks ≤ s.nLocks) :
    ∀ thread ∈ (s.firstSection i w).threads, thread.nLocks ≤ (s.firstSection i w).nLocks := by
  rw [firstSection]
  split
  · exact nLocks_le_checkTime (s := { s with nWalletUnlockTime := w }) h
  · exact nLocks_le_setPhase h

theorem notEarly_of_step {action : TimerAction} (hstep : s.step action = some s')
    (h : s.fLocked = false → s'.fLocked = true → s.AllPassed) : s.NotEarly action := by
  intro _ hfalse s1 h1 htrue
  obtain rfl := Option.some.inj (hstep.symm.trans h1)
  exact h hfalse htrue

theorem notEarly_of_imp {action : TimerAction} (hstep : s.step action = some s')
    (h : s'.fLocked = true → s.fLocked = true) : s.NotEarly action := by
  apply notEarly_of_step hstep
  intro hfalse htrue
  exact absurd (hfalse.symm.trans (h htrue)) Bool.false_ne_true

theorem Good.tick {now : Int} (h : s.Good) (hstep : s.step (.tick now) = some s') :
    s'.Good ∧ s.NotEarly (.tick now) := by
  have hs := hstep
  rw [PassphraseTimer.step, Option.ite_none_right_eq_some] at hs
  obtain ⟨hle, hs⟩ := hs
  obtain rfl := Option.some.inj hs
  refine ⟨⟨?_, h.nLocks_le⟩, notEarly_of_imp hstep id⟩
  cases h.inv with
  | locked fLocked time pending entered => exact .locked fLocked time pending (entered.mono hle)
  | requested fLocked time pending entered =>
    exact .requested fLocked time pending (entered.mono hle)
  | starting fLocked time pending i thread entered =>
    exact .starting fLocked time pending i thread (entered.mono hle)
  | set fLocked time pending entered hrequested sleeping =>
    exact .set fLocked time pending entered hrequested sleeping

theorem Good.unlock {nTimeout : Int} (h : s.Good) (hstep : s.step (.unlock nTimeout) = some s') :
    s'.Good ∧ s.NotEarly (.unlock nTimeout) := by
  have hs := hstep
  rw [PassphraseTimer.step, Option.ite_none_right_eq_some] at hs
  obtain ⟨⟨hlocked, -⟩, hs⟩ := hs
  obtain rfl := Option.some.inj hs
  refine ⟨⟨?_, h.nLocks_le⟩, notEarly_of_imp hstep fun _ => hlocked⟩
  cases h.inv with
  | locked fLocked time pending entered => exact .requested rfl time rfl entered
  | requested fLocked => exact absurd (fLocked.symm.trans hlocked) Bool.false_ne_true
  | starting fLocked => exact absurd (fLocked.symm.trans hlocked) Bool.false_ne_true
  | set fLocked => exact absurd (fLocked.symm.trans hlocked) Bool.false_ne_true

/-- The new thread is the one that is to set the timer. -/
theorem Good.newThread (h : s.Good) (hstep : s.step .newThread = some s') :
    s'.Good ∧ s.NotEarly .newThread := by
  have hs := hstep
  rw [PassphraseTimer.step] at hs
  split at hs
  · cases hs
  · next nTimeout hpending =>
    obtain rfl := Option.some.inj hs
    refine ⟨⟨?_, fun thread hmem => ?_⟩, notEarly_of_imp hstep id⟩
    · have hnone : s.pending ≠ none := by rw [hpending]; exact nofun
      cases h.inv with
      | locked fLocked time pending => exact absurd pending hnone
      | starting fLocked time pending => exact absurd pending hnone
      | set fLocked time pending => exact absurd pending hnone
      | requested fLocked time pending entered =>
        refine .starting fLocked time rfl s.threads.length ?_ ?_
        · exact ⟨_, List.getElem?_concat_length, rfl, rfl⟩
        · intro j thread hj hfresh hne
          have hlt := (List.getElem?_eq_some_iff.mp hj).1
          have hne : j ≠ s.threads.length := fun heq => hne (congrArg some heq.symm)
          rw [List.length_append, List.length_singleton] at hlt
          dsimp only at hj
          rw [List.getElem?_append_left (by omega)] at hj
          exact entered j thread hj hfresh nofun
    · rcases List.mem_append.mp hmem with hmem | hmem
      · exact h.nLocks_le thread hmem
      · rw [List.mem_singleton.mp hmem]

theorem Good.walletlock (h : s.Good) (hstep : s.step .walletlock = some s') :
    s'.Good ∧ s.NotEarly .walletlock := by
  rw [PassphraseTimer.step, Option.ite_none_right_eq_some] at hstep
  obtain ⟨hpending, hs⟩ := hstep
  obtain rfl := Option.some.inj hs
  refine ⟨⟨.locked rfl rfl hpending ?_, fun thread hmem => ?_⟩, fun hne => absurd rfl hne⟩
  · intro j thread hj hfresh _
    have hle := h.nLocks_le thread (List.mem_of_getElem? hj)
    dsimp only at hfresh
    omega
  · exact (h.nLocks_le thread hmem).trans (Nat.le_succ _)

theorem Good.start (h : s.Good) (hstep : s.step (.start i) = some s') :
    s'.Good ∧ s.NotEarly (.start i) := by
  have hs := hstep
  rw [PassphraseTimer.step] at hs
  split at hs
  · next n nTimeout hi =>
    rw [Option.ite_none_right_eq_some] at hs
    obtain rfl := Option.some.inj hs.2
    exact ⟨⟨h.inv.setPhase hi (fun _ => rfl) nofun, nLocks_le_setPhase h.nLocks_le⟩,
      notEarly_of_imp hstep id⟩
  · cases hs

theorem Good.enter (h : s.Good) (hC : s.InOrder (.enter i)) (hstep : s.step (.enter i) = some s') :
    s'.Good ∧ s.NotEarly (.enter i) := by
  have hs := hstep
  rw [PassphraseTimer.step] at hs
  split at hs
  · next n w hi =>
    obtain rfl := Option.some.inj hs
    have hcond := hC n w hi
    by_cases hfresh : n = s.nLocks
    · rw [if_pos hfresh] at hcond
      obtain ⟨hinv, hpassed⟩ := h.inv.firstSection hi hfresh hcond
      exact ⟨⟨hinv, nLocks_le_firstSection h.nLocks_le⟩,
        notEarly_of_step hstep fun _ htrue => hpassed htrue⟩
    · rw [if_neg hfresh] at hcond
      rw [firstSection_of_stale hcond] at hstep ⊢
      exact ⟨⟨h.inv.setPhase hi (fun heq => absurd heq hfresh) nofun,
        nLocks_le_setPhase h.nLocks_le⟩, notEarly_of_imp hstep id⟩
  · cases hs

theorem Good.wake (h : s.Good) (hstep : s.step (.wake i) = some s') :
    s'.Good ∧ s.NotEarly (.wake i) := by
  have hs := hstep
  rw [PassphraseTimer.step] at hs
  split at hs
  · next n w nUntil hi =>
    obtain rfl := Option.some.inj hs
    obtain ⟨hinv, hpassed⟩ := h.inv.checkTime hi
    exact ⟨⟨hinv, nLocks_le_checkTime h.nLocks_le⟩, notEarly_of_step hstep hpassed⟩
  · cases hs

theorem Good.step {action : TimerAction} (h : s.Good) (hC : s.InOrder action)
    (hstep : s.step action = some s') : s'.Good ∧ s.NotEarly action := by
  cases action with
  | tick now => exact h.tick hstep
  | unlock nTimeout => exact h.unlock hstep
  | newThread => exact h.newThread hstep
  | walletlock => exact h.walletlock hstep
  | start i => exact h.start hstep
  | enter i => exact h.enter hC hstep
  | wake i => exact h.wake hstep

theorem Inv.timerSet (h : s.Inv) : s.TimerSet := by
  intro hunlocked hpending hall
  cases h with
  | locked fLocked => exact absurd (hunlocked.symm.trans fLocked) Bool.false_ne_true
  | requested fLocked time pending =>
    rw [hpending] at pending
    cases pending
  | starting fLocked time pending i hstarting =>
    obtain ⟨thread, hi, -, hnone⟩ := hstarting
    have hsome := hall thread (List.mem_of_getElem? hi)
    rw [hnone] at hsome
    cases hsome
  | set fLocked time pending entered hrequested sleeping =>
    refine ⟨⟨hrequested, ?_⟩, ?_⟩
    · rintro w ⟨thread, hmem, hfresh, hw⟩
      obtain ⟨j, hj⟩ := List.mem_iff_getElem?.mp hmem
      obtain ⟨w', hw', hle⟩ := entered j thread hj hfresh nofun
      rw [CleanPhase.deadline_of_entered hw'] at hw
      exact Option.some.inj hw ▸ hle
    · obtain ⟨j, n, w, hj⟩ := sleeping
      exact ⟨_, List.mem_of_getElem? hj, w, rfl⟩

/-- In every run whose first critical sections meet the condition, no thread locks the wallet before
the deadlines, and the timer is set whenever the wallet is unlocked and no thread is starting. -/
theorem passphraseTimer_spec (now : Int) {actions : List TimerAction}
    (hrun : Run.run step (init now) actions = some s)
    (hmeets : Run.Meets InOrder step (init now) actions) :
    Run.Meets NotEarly step (init now) actions ∧
      Run.Throughout TimerSet step (init now) actions := by
  have hinit : (init now).Good :=
    ⟨.locked rfl rfl rfl fun j thread hj => by simp [init] at hj, fun thread hmem => by cases hmem⟩
  generalize init now = s0 at hrun hmeets hinit
  induction actions generalizing s0 with
  | nil => exact ⟨trivial, hinit.inv.timerSet⟩
  | cons action actions ih =>
    obtain ⟨s1, h1, h2⟩ := Run.run_cons.mp hrun
    obtain ⟨hgood, hearly⟩ := hinit.step hmeets.1 h1
    obtain ⟨hrest, hset⟩ := ih s1 h2 (hmeets.2 s1 h1) hgood
    refine ⟨⟨hearly, fun s' hs' => ?_⟩, hinit.inv.timerSet, fun s' hs' => ?_⟩
    · obtain rfl := Option.some.inj (h1.symm.trans hs')
      exact hrest
    · obtain rfl := Option.some.inj (h1.symm.trans hs')
      exact hset

namespace TimerSample

/-- A call for ten seconds, its thread, and the lock after them. -/
def actions : List TimerAction :=
  [.unlock 10, .newThread, .start 0, .enter 0, .tick 11000, .wake 0]

theorem passphraseTimer_spec_sample :
    Run.Meets NotEarly step (init 1000) actions ∧
      Run.Throughout TimerSet step (init 1000) actions := by
  have hrun : ∃ s, Run.run step (init 1000) actions = some s := Option.isSome_iff_exists.mp rfl
  obtain ⟨s, hrun⟩ := hrun
  refine passphraseTimer_spec 1000 hrun ?_
  refine ⟨trivial, ?_⟩
  rintro _ ⟨⟩
  refine ⟨trivial, ?_⟩
  rintro _ ⟨⟩
  refine ⟨trivial, ?_⟩
  rintro _ ⟨⟩
  refine ⟨?_, ?_⟩
  · rintro n w ⟨⟩
    decide
  rintro _ ⟨⟩
  refine ⟨trivial, ?_⟩
  rintro _ ⟨⟩
  refine ⟨trivial, ?_⟩
  rintro _ ⟨⟩
  trivial

/-- The thread of a call for 0 seconds is slow. -/
def slow : List TimerAction :=
  [.unlock 0, .newThread, .walletlock, .unlock 100, .newThread, .start 1, .start 0, .enter 0]

/-- After a `walletlock` and a call for 100 seconds it finds `nWalletUnlockTime` to be 0 and locks
the wallet at once. -/
theorem not_passphraseTimer_spec : ¬ ∀ (now : Int) (actions : List TimerAction)
    (s : PassphraseTimer), Run.run step (init now) actions = some s →
      Run.Meets NotEarly step (init now) actions ∧
        Run.Throughout TimerSet step (init now) actions := by
  intro h
  obtain ⟨s, hrun⟩ : ∃ s, Run.run step (init 1000) slow = some s := Option.isSome_iff_exists.mp rfl
  obtain ⟨-, h⟩ := (h 1000 slow s hrun).1
  obtain ⟨-, h⟩ := h _ rfl
  obtain ⟨-, h⟩ := h _ rfl
  obtain ⟨-, h⟩ := h _ rfl
  obtain ⟨-, h⟩ := h _ rfl
  obtain ⟨-, h⟩ := h _ rfl
  obtain ⟨-, h⟩ := h _ rfl
  obtain ⟨hearly, -⟩ := h _ rfl
  obtain ⟨-, hpassed⟩ := hearly nofun rfl _ rfl rfl
  obtain ⟨w, hw, hle⟩ := hpassed ⟨1, .ready 101000⟩ (by decide) rfl
  obtain rfl := Option.some.inj hw
  exact absurd hle (by decide)

end TimerSample

end PassphraseTimer

end Terracoin
