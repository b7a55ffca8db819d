import Terracoin.Lib.CheckedInt
import Terracoin.Lib.Run
import Terracoin.Lib.TimedQueue
import Terracoin.Primitives.Transaction
import Mathlib.Logic.Function.Basic

/-!
# Asking for inventory

`CNode::AskFor` of `net.h` schedules a request to a peer, two minutes after the last time that is
recorded for the item in `mapAlreadyAskedFor`; `SendMessages` sends what is due and records the time
at which it does. That time can be earlier than the one recorded, which was the time of a retry on
another peer, and the next request comes less than two minutes after that (`not_two_minutes_apart`).
As long as this does not happen, any two requests are at least two minutes apart (`askFor_spec`). The
order of the items that are asked for the first time does not depend on it.
-/

namespace Terracoin

open Checked TimedQueue

structure CInv where
  type : Int32
  hash : uint256
deriving DecidableEq

abbrev NodeId := Nat

/-- What asking for inventory reads and writes. -/
structure AskState where
  /-- `GetTime()`. -/
  time : Int
  /-- The static variable of `AskFor`. -/
  nLastTime : Int
  mapAlreadyAskedFor : CInv → Option Int
  mapAskFor : NodeId → List (Int × CInv)

namespace AskState

def init (time : Int) : AskState := ⟨time, 0, fun _ => none, fun _ => []⟩

/-- `pnode->AskFor(inv)`, and the time that it schedules. -/
def askFor (s : AskState) (pnode : NodeId) (inv : CInv) : Option (AskState × Int) := do
  let nRequestTime := (s.mapAlreadyAskedFor inv).getD 0
  let nNow ← int64 ((s.time - 1) * 1000000)
  let nLastTime ← int64 (s.nLastTime + 1)
  let nNow := max nNow nLastTime
  let nRetryTime ← int64 (nRequestTime + 2 * 60 * 1000000)
  let nRequestTime := max nRetryTime nNow
  pure ({ s with
    nLastTime := nNow
    mapAlreadyAskedFor := Function.update s.mapAlreadyAskedFor inv (some nRequestTime)
    mapAskFor :=
      Function.update s.mapAskFor pnode (enqueue (nRequestTime, inv) (s.mapAskFor pnode)) },
    nRequestTime)

/-- What the loop of `SendMessages` over `mapAskFor` writes. -/
structure GetData where
  mapAlreadyAskedFor : CInv → Option Int
  vGetData : List CInv
  /-- The messages pushed so far. -/
  pushed : List (List CInv)

def GetData.request (g : GetData) (nNow : Int) (inv : CInv) : GetData :=
  let vGetData := g.vGetData ++ [inv]
  let (vGetData, pushed) :=
    if 1000 ≤ vGetData.length then ([], g.pushed ++ [vGetData]) else (vGetData, g.pushed)
  ⟨Function.update g.mapAlreadyAskedFor inv (some nNow), vGetData, pushed⟩

/-- The loop of `SendMessages`, and what it leaves of `mapAskFor`. -/
def getDataLoop (alreadyHave : CInv → Bool) (nNow : Int) (g : GetData) :
    List (Int × CInv) → GetData × List (Int × CInv)
  | [] => (g, [])
  | (nTime, inv) :: mapAskFor =>
    if nTime ≤ nNow then
      getDataLoop alreadyHave nNow (if alreadyHave inv then g else g.request nNow inv) mapAskFor
    else (g, (nTime, inv) :: mapAskFor)

/-- The `getdata` part of `SendMessages(pto)`, and the messages that it pushes. -/
def sendMessages (s : AskState) (pto : NodeId) (alreadyHave : CInv → Bool) :
    Option (AskState × List (List CInv)) := do
  let nNow ← int64 (s.time * 1000000)
  let (g, mapAskFor) := getDataLoop alreadyHave nNow ⟨s.mapAlreadyAskedFor, [], []⟩ (s.mapAskFor pto)
  pure ({ s with
    mapAlreadyAskedFor := g.mapAlreadyAskedFor
    mapAskFor := Function.update s.mapAskFor pto mapAskFor },
    if g.vGetData = [] then g.pushed else g.pushed ++ [g.vGetData])

/-- `mapAlreadyAskedFor.erase(inv)`, when the item has been received. -/
def received (s : AskState) (inv : CInv) : AskState :=
  { s with mapAlreadyAskedFor := Function.update s.mapAlreadyAskedFor inv none }

end AskState

/-! ## Runs -/

inductive AskEvent
  | tick (seconds : Nat)
  | askFor (pnode : NodeId) (inv : CInv)
  | sendMessages (pto : NodeId) (alreadyHave : CInv → Bool)
  | received (inv : CInv)

/-- A state and what has happened so far. -/
structure AskHistory where
  state : AskState
  /-- The times scheduled for an item since it was received last, in the order of the calls. -/
  scheduled : CInv → List Int
  /-- The entries of the items that a peer was asked for when nothing was recorded for them. -/
  firstTime : NodeId → List (Int × CInv)
  /-- The entries that `SendMessages` has taken from the queue of a peer, and whether it requests
  their items. -/
  taken : NodeId → List ((Int × CInv) × Bool)
  /-- The `getdata` messages to a peer. -/
  getdata : NodeId → List (List CInv)

namespace AskHistory

open AskState

def init (time : Int) : AskHistory :=
  ⟨.init time, fun _ => [], fun _ => [], fun _ => [], fun _ => []⟩

def due (nNow : Int) (mapAskFor : List (Int × CInv)) : List (Int × CInv) :=
  mapAskFor.takeWhile (·.1 ≤ nNow)

def step (h : AskHistory) : AskEvent → Option AskHistory
  | .tick seconds =>
    (int64 (h.state.time + seconds)).map fun time => { h with state := { h.state with time } }
  | .askFor pnode inv =>
    (h.state.askFor pnode inv).map fun (state, nRequestTime) =>
      { h with
        state
        scheduled := Function.update h.scheduled inv (h.scheduled inv ++ [nRequestTime])
        firstTime :=
          if h.state.mapAlreadyAskedFor inv = none then
            Function.update h.firstTime pnode (h.firstTime pnode ++ [(nRequestTime, inv)])
          else h.firstTime }
  | .sendMessages pto alreadyHave =>
    (h.state.sendMessages pto alreadyHave).map fun (state, messages) =>
      { h with
        state
        taken := Function.update h.taken pto (h.taken pto ++
          (due (h.state.time * 1000000) (h.state.mapAskFor pto)).map fun e => (e, !alreadyHave e.2))
        getdata := Function.update h.getdata pto (h.getdata pto ++ messages) }
  | .received inv =>
    some { h with
      state := h.state.received inv
      scheduled := Function.update h.scheduled inv [] }

/-- `SendMessages` requests no item before the time recorded for it. -/
def NotLowered (h : AskHistory) : AskEvent → Prop
  | .sendMessages pto alreadyHave =>
    ∀ e ∈ due (h.state.time * 1000000) (h.state.mapAskFor pto), alreadyHave e.2 = false →
      ∀ nTime ∈ h.state.mapAlreadyAskedFor e.2, nTime ≤ h.state.time * 1000000
  | _ => True

instance (h : AskHistory) : ∀ e, Decidable (NotLowered h e)
  | .sendMessages _ _ => inferInstanceAs (Decidable (∀ e ∈ due _ _, _ → ∀ nTime ∈ _, _))
  | .tick _ => .isTrue trivial
  | .askFor _ _ => .isTrue trivial
  | .received _ => .isTrue trivial

end AskHistory

/-! ## One call -/

namespace AskState

variable {s s' : AskState} {pnode pto : NodeId} {inv : CInv} {nRequestTime nNow : Int} {g : GetData}
  {alreadyHave : CInv → Bool} {messages : List (List CInv)}

theorem askFor_eq_some (h : s.askFor pnode inv = some (s', nRequestTime)) :
    s.nLastTime < s'.nLastTime ∧
      nRequestTime =
        max ((s.mapAlreadyAskedFor inv).getD 0 + 2 * 60 * 1000000) s'.nLastTime ∧
      s'.mapAlreadyAskedFor = Function.update s.mapAlreadyAskedFor inv (some nRequestTime) ∧
      s'.mapAskFor =
        Function.update s.mapAskFor pnode (enqueue (nRequestTime, inv) (s.mapAskFor pnode)) := by
  simp only [askFor, Option.bind_eq_bind, Option.bind_eq_some_iff, int64_eq_some, Option.pure_def,
    Option.some.injEq, Prod.mk.injEq] at h
  obtain ⟨_, ⟨rfl, -⟩, _, ⟨rfl, -⟩, _, ⟨rfl, -⟩, rfl, rfl⟩ := h
  refine ⟨?_, rfl, rfl, rfl⟩
  apply lt_of_lt_of_le (Int.lt_succ s.nLastTime)
  exact le_max_right _ _

/-- The items of the due entries that the node does not have. -/
def wanted (alreadyHave : CInv → Bool) (due : List (Int × CInv)) : List CInv :=
  (due.filter fun e => !alreadyHave e.2).map Prod.snd

theorem due_cons {e : Int × CInv} {mapAskFor : List (Int × CInv)} (h : e.1 ≤ nNow) :
    AskHistory.due nNow (e :: mapAskFor) = e :: AskHistory.due nNow mapAskFor := by
  simp [AskHistory.due, h]

theorem wanted_cons (e : Int × CInv) (due : List (Int × CInv)) :
    wanted alreadyHave (e :: due) =
      if alreadyHave e.2 then wanted alreadyHave due else e.2 :: wanted alreadyHave due := by
  cases halready : alreadyHave e.2 <;> simp [wanted, halready]

def GetData.requested (g : GetData) : List CInv := g.pushed.flatten ++ g.vGetData

theorem GetData.requested_request (g : GetData) (nNow : Int) (inv : CInv) :
    (g.request nNow inv).requested = g.requested ++ [inv] := by
  unfold GetData.requested GetData.request
  simp only
  split <;> simp

/-- The loop takes the due entries, requests those items of them that the node does not have, and
records the time for these. -/
theorem getDataLoop_spec (alreadyHave : CInv → Bool) (nNow : Int) (g : GetData)
    (mapAskFor : List (Int × CInv)) :
    (getDataLoop alreadyHave nNow g mapAskFor).2 = mapAskFor.dropWhile (·.1 ≤ nNow) ∧
      (getDataLoop alreadyHave nNow g mapAskFor).1.requested =
        g.requested ++ wanted alreadyHave (AskHistory.due nNow mapAskFor) ∧
      ∀ inv, (getDataLoop alreadyHave nNow g mapAskFor).1.mapAlreadyAskedFor inv =
        if inv ∈ wanted alreadyHave (AskHistory.due nNow mapAskFor) then some nNow
        else g.mapAlreadyAskedFor inv := by
  induction mapAskFor generalizing g with
  | nil => simp [getDataLoop, wanted, AskHistory.due]
  | cons e mapAskFor ih =>
    obtain ⟨nTime, item⟩ := e
    by_cases hdue : nTime ≤ nNow
    · obtain ⟨hrest, hrequested, hrecorded⟩ :=
        ih (if alreadyHave item then g else g.request nNow item)
      rw [getDataLoop, if_pos hdue]
      refine ⟨?_, ?_, fun inv => ?_⟩
      · simp [hrest, hdue]
      · rw [hrequested, due_cons hdue, wanted_cons]
        cases halready : alreadyHave item <;> simp [GetData.requested_request]
      · rw [hrecorded inv, due_cons hdue, wanted_cons]
        cases halready : alreadyHave item
        · by_cases heq : inv = item
          · simp [GetData.request, heq]
          · simp [GetData.request, heq]
        · simp
    · simp [getDataLoop, wanted, AskHistory.due, hdue]

theorem sendMessages_eq_some (h : s.sendMessages pto alreadyHave = some (s', messages)) :
    let due := AskHistory.due (s.time * 1000000) (s.mapAskFor pto)
    s'.nLastTime = s.nLastTime ∧ messages.flatten = wanted alreadyHave due ∧
      (∀ inv, s'.mapAlreadyAskedFor inv =
        if inv ∈ wanted alreadyHave due then some (s.time * 1000000)
        else s.mapAlreadyAskedFor inv) ∧
      s'.mapAskFor = Function.update s.mapAskFor pto
        ((s.mapAskFor pto).dropWhile (·.1 ≤ s.time * 1000000)) := by
  simp only [sendMessages, Option.bind_eq_bind, Option.bind_eq_some_iff, int64_eq_some,
    Option.pure_def, Option.some.injEq, Prod.mk.injEq] at h
  obtain ⟨_, ⟨rfl, -⟩, rfl, rfl⟩ := h
  obtain ⟨hrest, hrequested, hrecorded⟩ := getDataLoop_spec alreadyHave (s.time * 1000000)
    ⟨s.mapAlreadyAskedFor, [], []⟩ (s.mapAskFor pto)
  refine ⟨rfl, ?_, hrecorded, by rw [hrest]⟩
  rw [show wanted alreadyHave _ = _ from hrequested.symm]
  split
  · rename_i hnil
    rw [GetData.requested, hnil, List.append_nil]
  · simp [GetData.requested]

end AskState

namespace AskHistory

open AskState Run

variable {h h' : AskHistory} {e : AskEvent} {events : List AskEvent}

/-! ## The order of the first requests -/

/-- The entries of the items asked for the first time are in the order of the calls, first those
taken from the queue and then those in it; and what was taken and is wanted is what the messages
request. -/
structure Ordered (h : AskHistory) : Prop where
  sorted : ∀ p, Sorted (h.state.mapAskFor p)
  firstTime_le : ∀ p, ∀ e ∈ h.firstTime p, e.1 ≤ max (2 * 60 * 1000000) h.state.nLastTime
  sublist : ∀ p, (h.firstTime p).Sublist ((h.taken p).map Prod.fst ++ h.state.mapAskFor p)
  getdata : ∀ p, (h.getdata p).flatten = ((h.taken p).filter (·.2)).map (·.1.2)

theorem ordered_init (time : Int) : (init time).Ordered :=
  ⟨fun _ => List.Pairwise.nil, fun _ _ he => (nomatch he), fun _ => List.Sublist.refl _, fun _ => rfl⟩

theorem Ordered.askFor {pnode : NodeId} {inv : CInv} (hord : h.Ordered)
    (hstep : h.step (.askFor pnode inv) = some h') : h'.Ordered := by
  simp only [step, Option.map_eq_some_iff, Prod.exists] at hstep
  obtain ⟨s', nRequestTime, hask, rfl⟩ := hstep
  obtain ⟨hlt, htime, -, hqueue⟩ := askFor_eq_some hask
  have hlater : max (2 * 60 * 1000000) h.state.nLastTime ≤ max (2 * 60 * 1000000) s'.nLastTime :=
    max_le_max_left _ hlt.le
  refine ⟨fun p => ?_, fun p e he => ?_, fun p => ?_, hord.getdata⟩
  · simp only [hqueue]
    by_cases hp : p = pnode
    · subst hp
      simpa using (hord.sorted p).enqueue _
    · simpa [hp] using hord.sorted p
  · simp only at he
    split at he
    · rename_i hfirst
      by_cases hp : p = pnode
      · subst hp
        rw [Function.update_self, List.mem_append, List.mem_singleton] at he
        rcases he with he | rfl
        · exact (hord.firstTime_le p e he).trans hlater
        · simp [htime, hfirst]
      · rw [Function.update_of_ne hp] at he
        exact (hord.firstTime_le p e he).trans hlater
    · exact (hord.firstTime_le p e he).trans hlater
  · have hbehind : (h.firstTime p).Sublist ((h.taken p).map Prod.fst ++ s'.mapAskFor p) := by
      rw [hqueue]
      by_cases hp : p = pnode
      · subst hp
        rw [Function.update_self]
        apply (hord.sublist p).trans
        exact (List.Sublist.refl _).append (sublist_enqueue_self _ _)
      · rw [Function.update_of_ne hp]
        exact hord.sublist p
    simp only
    split
    · rename_i hfirst
      by_cases hp : p = pnode
      · subst hp
        rw [hqueue, Function.update_self, Function.update_self]
        apply sublist_enqueue (hord.sorted p) (hord.sublist p)
        intro e he
        simpa [htime, hfirst] using (hord.firstTime_le p e he).trans hlater
      · rw [Function.update_of_ne hp]
        exact hbehind
    · exact hbehind

theorem Ordered.sendMessages {pto : NodeId} {alreadyHave : CInv → Bool} (hord : h.Ordered)
    (hstep : h.step (.sendMessages pto alreadyHave) = some h') : h'.Ordered := by
  simp only [step, Option.map_eq_some_iff, Prod.exists] at hstep
  obtain ⟨s', messages, hsend, rfl⟩ := hstep
  obtain ⟨hlast, hmessages, -, hqueue⟩ := sendMessages_eq_some hsend
  refine ⟨fun p => ?_, fun p e he => ?_, fun p => ?_, fun p => ?_⟩
  · simp only [hqueue]
    by_cases hp : p = pto
    · subst hp
      rw [Function.update_self]
      exact (hord.sorted p).sublist (List.dropWhile_sublist _)
    · simpa [hp] using hord.sorted p
  · simp only [hlast]
    exact hord.firstTime_le p e he
  · simp only [hqueue]
    by_cases hp : p = pto
    · subst hp
      simpa [due, Function.comp_def] using hord.sublist p
    · simpa [hp] using hord.sublist p
  · by_cases hp : p = pto
    · subst hp
      simp [hord.getdata p, hmessages, wanted, List.filter_map, Function.comp_def]
    · simpa [hp] using hord.getdata p

theorem Ordered.step (hord : h.Ordered) (hstep : h.step e = some h') : h'.Ordered := by
  cases e with
  | tick seconds =>
    obtain ⟨time, -, rfl⟩ := Option.map_eq_some_iff.mp hstep
    exact ⟨hord.sorted, hord.firstTime_le, hord.sublist, hord.getdata⟩
  | askFor pnode inv => exact hord.askFor hstep
  | sendMessages pto alreadyHave => exact hord.sendMessages hstep
  | received inv =>
    obtain rfl := Option.some.inj hstep
    exact ⟨hord.sorted, hord.firstTime_le, hord.sublist, hord.getdata⟩

/-! ## The distance between requests -/

/-- The times scheduled for an item are two minutes apart, and none is later than the recorded
one. -/
structure Spaced (h : AskHistory) : Prop where
  pairwise : ∀ inv, (h.scheduled inv).Pairwise fun t t' => t + 2 * 60 * 1000000 ≤ t'
  recorded : ∀ inv, ∀ t ∈ h.scheduled inv, ∃ nTime ∈ h.state.mapAlreadyAskedFor inv, t ≤ nTime

theorem spaced_init (time : Int) : (init time).Spaced :=
  ⟨fun _ => List.Pairwise.nil, fun _ _ ht => nomatch ht⟩

theorem Spaced.askFor {pnode : NodeId} {inv : CInv} (hspaced : h.Spaced)
    (hstep : h.step (.askFor pnode inv) = some h') : h'.Spaced := by
  simp only [step, Option.map_eq_some_iff, Prod.exists] at hstep
  obtain ⟨s', nRequestTime, hask, rfl⟩ := hstep
  obtain ⟨-, htime, hrecorded, -⟩ := askFor_eq_some hask
  have hapart : ∀ t ∈ h.scheduled inv, t + 2 * 60 * 1000000 ≤ nRequestTime := by
    intro t ht
    obtain ⟨nTime, hmem, hle⟩ := hspaced.recorded inv t ht
    rw [htime, Option.mem_def.mp hmem, Option.getD_some]
    apply le_trans _ (le_max_left _ _)
    exact Int.add_le_add_right hle _
  constructor
  · intro item
    by_cases hitem : item = inv
    · subst hitem
      simp only [Function.update_self]
      apply List.pairwise_append.mpr
      refine ⟨hspaced.pairwise item, List.pairwise_singleton _ _, fun t ht t' ht' => ?_⟩
      rw [List.mem_singleton.mp ht']
      exact hapart t ht
    · simpa [hitem] using hspaced.pairwise item
  · intro item t ht
    simp only [hrecorded]
    by_cases hitem : item = inv
    · subst hitem
      simp only [Function.update_self, List.mem_append, List.mem_singleton] at ht ⊢
      refine ⟨nRequestTime, rfl, ?_⟩
      rcases ht with ht | rfl
      · have := hapart t ht
        omega
      · exact le_rfl
    · simp only [Function.update_of_ne hitem] at ht ⊢
      exact hspaced.recorded item t ht

theorem Spaced.sendMessages {pto : NodeId} {alreadyHave : CInv → Bool} (hspaced : h.Spaced)
    (hnot : h.NotLowered (.sendMessages pto alreadyHave))
    (hstep : h.step (.sendMessages pto alreadyHave) = some h') : h'.Spaced := by
  simp only [step, Option.map_eq_some_iff, Prod.exists] at hstep
  obtain ⟨s', messages, hsend, rfl⟩ := hstep
  obtain ⟨-, -, hrecorded, -⟩ := sendMessages_eq_some hsend
  refine ⟨hspaced.pairwise, fun inv t ht => ?_⟩
  obtain ⟨nTime, hmem, hle⟩ := hspaced.recorded inv t ht
  simp only [hrecorded]
  split
  · rename_i hwanted
    obtain ⟨e, he, rfl⟩ := List.mem_map.mp hwanted
    obtain ⟨hdue, halready⟩ := List.mem_filter.mp he
    refine ⟨_, rfl, hle.trans ?_⟩
    exact hnot e hdue (by simpa using halready) nTime hmem
  · exact ⟨nTime, hmem, hle⟩

theorem Spaced.received {inv : CInv} (hspaced : h.Spaced)
    (hstep : h.step (.received inv) = some h') : h'.Spaced := by
  obtain rfl := Option.some.inj hstep
  constructor
  · intro item
    by_cases hitem : item = inv
    · simp [hitem]
    · simpa [hitem] using hspaced.pairwise item
  · intro item t ht
    by_cases hitem : item = inv
    · simp [hitem] at ht
    · simp only [AskState.received, Function.update_of_ne hitem] at ht ⊢
      exact hspaced.recorded item t ht

theorem Spaced.step (hspaced : h.Spaced) (hnot : h.NotLowered e) (hstep : h.step e = some h') :
    h'.Spaced := by
  cases e with
  | tick seconds =>
    obtain ⟨time, -, rfl⟩ := Option.map_eq_some_iff.mp hstep
    exact ⟨hspaced.pairwise, hspaced.recorded⟩
  | askFor pnode inv => exact hspaced.askFor hstep
  | sendMessages pto alreadyHave => exact hspaced.sendMessages hnot hstep
  | received inv => exact hspaced.received hstep

/-! ## Results -/

/-- In every run the items that a peer is asked for the first time are taken from its queue, and
requested if they are wanted, in the order of the calls. If no item is requested before the time
recorded for it, any two times scheduled for an item since it was received are two minutes apart. -/
theorem askFor_spec (time : Int) (events : List AskEvent) (h : AskHistory)
    (hrun : run step (init time) events = some h) :
    (∀ p, (h.firstTime p).Sublist ((h.taken p).map Prod.fst ++ h.state.mapAskFor p) ∧
      (h.getdata p).flatten = ((h.taken p).filter (·.2)).map (·.1.2)) ∧
    (Meets NotLowered step (init time) events →
      ∀ inv, (h.scheduled inv).Pairwise fun t t' => t + 2 * 60 * 1000000 ≤ t') := by
  constructor
  · have hord : h.Ordered :=
      run_invariant (fun _ _ _ _ hord hstep => hord.step hstep) (ordered_init time) hrun
    exact fun p => ⟨hord.sublist p, hord.getdata p⟩
  · intro hmeets
    have hspaced : h.Spaced :=
      run_invariant_of_meets (fun _ _ _ hnot hspaced hstep => hspaced.step hnot hstep) hmeets
        (spaced_init time) hrun
    exact hspaced.pairwise

/-- A request to one peer that stays without an answer, and then one to another peer. -/
def twoPeers : List AskEvent :=
  [.askFor 0 ⟨1, 7⟩, .tick 1, .sendMessages 0 fun _ => false, .askFor 1 ⟨1, 7⟩, .tick 120,
    .sendMessages 1 fun _ => false]

theorem askFor_spec_sample : ∃ h, run step (init 1400000000) twoPeers = some h ∧
    (∀ p, (h.firstTime p).Sublist ((h.taken p).map Prod.fst ++ h.state.mapAskFor p) ∧
      (h.getdata p).flatten = ((h.taken p).filter (·.2)).map (·.1.2)) ∧
    ∀ inv, (h.scheduled inv).Pairwise fun t t' => t + 2 * 60 * 1000000 ≤ t' := by
  obtain ⟨h, hrun⟩ : ∃ h, run step (init 1400000000) twoPeers = some h :=
    Option.isSome_iff_exists.mp (by decide)
  obtain ⟨horder, happart⟩ := askFor_spec 1400000000 twoPeers h hrun
  exact ⟨h, hrun, horder, happart (by decide)⟩

/-- Two peers have the item and the request to the first goes out, and then a third has it. -/
def threePeers : List AskEvent :=
  [.askFor 0 ⟨1, 7⟩, .askFor 1 ⟨1, 7⟩, .tick 1, .sendMessages 0 fun _ => false, .askFor 2 ⟨1, 7⟩]

/-- The third request is scheduled two seconds after the second. -/
theorem not_two_minutes_apart : ¬ ∀ (time : Int) (events : List AskEvent) (h : AskHistory),
    run step (init time) events = some h →
      ∀ inv, (h.scheduled inv).Pairwise fun t t' =>
        t + 2 * 60 * 1000000 ≤ t' ∨ t' + 2 * 60 * 1000000 ≤ t := by
  intro hall
  obtain ⟨h, hrun⟩ : ∃ h, run step (init 1400000000) threePeers = some h :=
    Option.isSome_iff_exists.mp (by decide)
  have hscheduled : (run step (init 1400000000) threePeers).map (·.scheduled ⟨1, 7⟩) =
      some [1399999999000000, 1400000119000000, 1400000121000000] := by decide
  rw [hrun, Option.map_some, Option.some.injEq] at hscheduled
  have happart := hall 1400000000 threePeers h hrun ⟨1, 7⟩
  rw [hscheduled] at happart
  exact absurd happart (by decide)

end AskHistory

end Terracoin
