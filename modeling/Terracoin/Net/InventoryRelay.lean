import Terracoin.Lib.Batches
import Terracoin.Net.AskFor
import Terracoin.Net.MruSet

/-!
# Relaying inventory

What a node tells one of its peers to have. `PushInventory` puts an item on the peer's queue unless
the peer is known to have it, and the inventory part of `SendMessages` works off the queue: it
announces the items that are still not known, and keeps some of the transactions for a later call, so
that nobody can tell from the order who had them first. Nothing is lost on the way: an item stays on
the queue until the peer has been told about it or has announced it itself; and the peer is not told
twice, unless it has been told so much in between that the item has left `setInventoryKnown`
(`inventory_spec`).
-/

namespace Terracoin

def MSG_TX : Int32 := 1
def MSG_BLOCK : Int32 := 2
def MSG_FILTERED_BLOCK : Int32 := 3

namespace MruSet

variable {T : Type} [DecidableEq T] {n : Nat} {xs : List T}

def insertAll (m : MruSet T) (xs : List T) : MruSet T := m.run (xs.map Call.insert)

theorem insertAll_concat (m : MruSet T) (xs : List T) (x : T) :
    m.insertAll (xs ++ [x]) = ((m.insertAll xs).insert x).1 := by
  rw [insertAll, List.map_append, List.map_singleton, run_concat]
  rfl

theorem insertAll_append (m : MruSet T) (xs ys : List T) :
    m.insertAll (xs ++ ys) = (m.insertAll xs).insertAll ys := by
  simp [insertAll, run]

theorem Inv.insertAll {m : MruSet T} (h : m.Inv) (xs : List T) : (m.insertAll xs).Inv := h.run _

/-- Elements that are there already do not come in. -/
def incoming (m : MruSet T) (xs : List T) : List T := m.cameIn (xs.map Call.insert)

theorem incoming_concat (m : MruSet T) (xs : List T) (x : T) :
    m.incoming (xs ++ [x]) =
      m.incoming xs ++ if x ∈ (m.insertAll xs).set then [] else [x] := by
  rw [incoming, List.map_append, List.map_singleton, cameIn_concat]
  rfl

theorem incoming_append (m : MruSet T) (xs ys : List T) :
    m.incoming (xs ++ ys) = m.incoming xs ++ (m.insertAll xs).incoming ys := by
  induction ys using List.reverseRecOn with
  | nil => simp [incoming, cameIn]
  | append_singleton ys y ih =>
    rw [← List.append_assoc, incoming_concat, ih, incoming_concat, insertAll_append,
      List.append_assoc]

theorem incoming_subset (m : MruSet T) (xs : List T) {x : T} (hx : x ∈ m.incoming xs) : x ∈ xs := by
  induction xs using List.reverseRecOn with
  | nil => exact hx
  | append_singleton xs y ih =>
    rw [incoming_concat] at hx
    rcases List.mem_append.mp hx with hx | hx
    · exact List.mem_append_left _ (ih hx)
    · split at hx
      · exact absurd hx List.not_mem_nil
      · exact List.mem_append_right _ hx

theorem length_incoming_le (m : MruSet T) (xs : List T) : (m.incoming xs).length ≤ xs.length := by
  induction xs using List.reverseRecOn with
  | nil => exact Nat.le_refl _
  | append_singleton xs y ih =>
    rw [incoming_concat, List.length_append, List.length_append]
    split
    · exact Nat.add_le_add ih (Nat.zero_le _)
    · exact Nat.add_le_add ih (Nat.le_refl _)

theorem notMem_of_incoming_eq {m : MruSet T} {before after : List T} {x : T}
    (h : m.incoming (before ++ x :: after) = before ++ x :: after) :
    x ∉ (m.insertAll before).set := by
  intro hmem
  have hsplit : m.incoming (before ++ x :: after) = m.incoming before ++
      ((m.insertAll (before ++ [x])).incoming after) := by
    rw [List.append_cons, incoming_append, incoming_concat, if_pos hmem, List.append_nil]
  have hlength := congrArg List.length (hsplit.symm.trans h)
  have hbefore := m.length_incoming_le before
  have hafter := (m.insertAll (before ++ [x])).length_incoming_le after
  simp only [List.length_append, List.length_cons] at hlength
  omega

theorem mem_incoming_or (m : MruSet T) (hm : m.Inv) {x : T} (hx : x ∈ (m.insertAll xs).set) :
    x ∈ m.set ∨ x ∈ m.incoming xs := by
  induction xs using List.reverseRecOn with
  | nil => exact .inl hx
  | append_singleton xs y ih =>
    rw [insertAll_concat] at hx
    rw [incoming_concat]
    by_cases hold : x ∈ (m.insertAll xs).set
    · exact (ih hold).imp_right (List.mem_append_left _)
    · right
      apply List.mem_append_right
      by_cases hy : y ∈ (m.insertAll xs).set
      · rw [insert_of_mem hy] at hx
        exact absurd hx hold
      · have hinv := hm.insertAll xs
        rw [(hinv.insert y).inStep.mem_iff, (insert_of_notMem hinv hy).2.1] at hx
        rw [if_neg hy]
        have hmem := (Recent.push_suffix _ _ _).subset hx
        rw [List.mem_append, ← hinv.inStep.mem_iff] at hmem
        exact hmem.resolve_left hold

/-- A set that is filled by insertions alone: its queue is the end of what came in. -/
theorem queue_insertAll (n : Nat) (xs : List T) :
    ((new n).insertAll xs).nMaxSize = n ∧ ((new n).insertAll xs).queue =
      if n = 0 then (new n).incoming xs else ((new n).incoming xs).rtake n := by
  induction xs using List.reverseRecOn with
  | nil =>
    refine ⟨rfl, ?_⟩
    show ([] : List T) = if n = 0 then [] else List.rtake [] n
    rw [List.rtake_nil, ite_self]
  | append_singleton xs x ih =>
    obtain ⟨hmax, hqueue⟩ := ih
    rw [insertAll_concat, incoming_concat]
    by_cases hx : x ∈ ((new n).insertAll xs).set
    · rw [insert_of_mem hx, if_pos hx, List.append_nil]
      exact ⟨hmax, hqueue⟩
    · obtain ⟨-, hpush, hmax'⟩ := insert_of_notMem ((inv_new n).insertAll xs) hx
      refine ⟨hmax'.trans hmax, ?_⟩
      rw [hpush, hmax, hqueue, if_neg hx]
      by_cases hn : n = 0
      · rw [if_pos hn, if_pos hn, hn, Recent.push_zero]
      · rw [if_neg hn, if_neg hn, Recent.push_rtake (Nat.pos_of_ne_zero hn)]

/-- What comes in a second time has left before, so as much as the limit says has come in since. -/
theorem spaced_incoming (n : Nat) (xs : List T) :
    (n = 0 → ((new n).incoming xs).Nodup) ∧ Recent.Spaced n ((new n).incoming xs) := by
  induction xs using List.reverseRecOn with
  | nil => exact ⟨fun _ => List.nodup_nil, Recent.Spaced.nil n⟩
  | append_singleton xs x ih =>
    obtain ⟨hnodup, hspaced⟩ := ih
    rw [incoming_concat]
    split
    · rw [List.append_nil]
      exact ⟨hnodup, hspaced⟩
    · rename_i hx
      rw [((inv_new n).insertAll xs).inStep.mem_iff, (queue_insertAll n xs).2] at hx
      refine ⟨fun hn => ?_, ?_⟩
      · rw [if_pos hn] at hx
        simpa using (hnodup hn).concat hx
      · by_cases hn : n = 0
        · subst hn
          exact fun _ _ _ _ _ => Nat.zero_le _
        · rw [if_neg hn] at hx
          exact hspaced.concat hx

end MruSet

/-! ## The calls -/

/-- The inventory of a `CNode`. -/
structure PeerInventory where
  setInventoryKnown : MruSet CInv
  vInventoryToSend : List CInv

/-- The variables of the loop in `SendMessages`. -/
structure InventoryLoop where
  setInventoryKnown : MruSet CInv
  vInv : Batches CInv
  vInvWait : List CInv

namespace PeerInventory

/-- The constructor of `CNode`, with `SendBufferSize() / 1000`. -/
def new (nMaxSize : Nat) : PeerInventory := ⟨.new nMaxSize, []⟩

def addInventoryKnown (s : PeerInventory) (inv : CInv) : PeerInventory :=
  { s with setInventoryKnown := (s.setInventoryKnown.insert inv).1 }

def pushInventory (s : PeerInventory) (inv : CInv) : PeerInventory :=
  if inv ∈ s.setInventoryKnown.set then s
  else { s with vInventoryToSend := s.vInventoryToSend ++ [inv] }

/-- The body of the loop. `fTrickleWait` is what the salted hash of an item and the wallet say. -/
def sendInventory (fSendTrickle : Bool) (fTrickleWait : uint256 → Bool) (l : InventoryLoop)
    (inv : CInv) : InventoryLoop :=
  if inv ∈ l.setInventoryKnown.set then l
  else if inv.type = MSG_TX ∧ fSendTrickle = false ∧ fTrickleWait inv.hash = true then
    { l with vInvWait := l.vInvWait ++ [inv] }
  else
    match l.setInventoryKnown.insert inv with
    | (setInventoryKnown, true) =>
      { l with setInventoryKnown := setInventoryKnown, vInv := l.vInv.add 1000 inv }
    | (setInventoryKnown, false) => { l with setInventoryKnown := setInventoryKnown }

/-- The inventory part of `SendMessages`, and the `inv` messages that it pushes. -/
def sendMessages (s : PeerInventory) (fSendTrickle : Bool) (fTrickleWait : uint256 → Bool) :
    PeerInventory × List (List CInv) :=
  let l := s.vInventoryToSend.foldl (sendInventory fSendTrickle fTrickleWait)
    ⟨s.setInventoryKnown, .empty, []⟩
  (⟨l.setInventoryKnown, l.vInvWait⟩, l.vInv.messages)

end PeerInventory

inductive InventoryEvent
  | addInventoryKnown (inv : CInv)
  | pushInventory (inv : CInv)
  | sendMessages (fSendTrickle : Bool) (fTrickleWait : uint256 → Bool)

/-- The inventory of a peer, and what has happened so far. -/
structure InventoryHistory where
  state : PeerInventory
  /-- The items that were inserted into `setInventoryKnown`, new or not. -/
  told : List CInv
  /-- The arguments of `PushInventory`. -/
  asked : List CInv
  /-- The `inv` messages. -/
  messages : List (List CInv)

namespace InventoryHistory

open PeerInventory

def init (nMaxSize : Nat) : InventoryHistory := ⟨.new nMaxSize, [], [], []⟩

def step (h : InventoryHistory) : InventoryEvent → InventoryHistory
  | .addInventoryKnown inv =>
    { h with state := h.state.addInventoryKnown inv, told := h.told ++ [inv] }
  | .pushInventory inv =>
    { h with state := h.state.pushInventory inv, asked := h.asked ++ [inv] }
  | .sendMessages fSendTrickle fTrickleWait =>
    let (state, messages) := h.state.sendMessages fSendTrickle fTrickleWait
    { h with
      state := state
      told := h.told ++ messages.flatten
      messages := h.messages ++ messages }

def run (h : InventoryHistory) (events : List InventoryEvent) : InventoryHistory :=
  events.foldl step h

end InventoryHistory

/-! ## One call -/

namespace PeerInventory

variable {s : PeerInventory} {fSendTrickle : Bool} {fTrickleWait : uint256 → Bool}
  {l l' : InventoryLoop} {known : MruSet CInv} {items announced waits : List CInv} {inv : CInv}

/-- The loop over `items` has announced some of them and kept others. -/
structure Sent (fSendTrickle : Bool) (fTrickleWait : uint256 → Bool) (known : MruSet CInv)
    (items announced waits : List CInv) (l : InventoryLoop) : Prop where
  setInventoryKnown : l.setInventoryKnown = known.insertAll announced
  incoming : known.incoming announced = announced
  contents : l.vInv.contents = announced
  within : l.vInv.Within 1000
  vInvWait : l.vInvWait = waits
  announced_sublist : announced.Sublist items
  waits_sublist : waits.Sublist items
  wait : ∀ inv ∈ waits, inv.type = MSG_TX ∧ fSendTrickle = false ∧ fTrickleWait inv.hash = true
  kept : ∀ inv ∈ items, inv ∈ known.set ∨ inv ∈ announced ∨ inv ∈ waits

theorem Sent.start (known : MruSet CInv) :
    Sent fSendTrickle fTrickleWait known [] [] [] ⟨known, .empty, []⟩ where
  setInventoryKnown := rfl
  incoming := rfl
  contents := rfl
  within := .empty (by decide)
  vInvWait := rfl
  announced_sublist := List.Sublist.refl _
  waits_sublist := List.Sublist.refl _
  wait _ hmem := absurd hmem List.not_mem_nil
  kept _ hmem := absurd hmem List.not_mem_nil

/-- One round of the loop. -/
theorem Sent.step (hknown : known.Inv)
    (h : Sent fSendTrickle fTrickleWait known items announced waits l) (inv : CInv) :
    ∃ announced' waits', Sent fSendTrickle fTrickleWait known (items ++ [inv]) announced' waits'
      (sendInventory fSendTrickle fTrickleWait l inv) := by
  have hleft : ∀ x ∈ items, x ∈ known.set ∨ x ∈ announced ∨ x ∈ waits := h.kept
  unfold sendInventory
  split
  · -- the peer has it
    rename_i hmem
    refine ⟨announced, waits, h.setInventoryKnown, h.incoming, h.contents, h.within, h.vInvWait,
      h.announced_sublist.trans (List.sublist_append_left _ _), h.waits_sublist.trans (List.sublist_append_left _ _),
      h.wait, fun x hx => ?_⟩
    rcases List.mem_append.mp hx with hx | hx
    · exact hleft x hx
    · rw [List.mem_singleton.mp hx]
      rw [h.setInventoryKnown] at hmem
      have hor := known.mem_incoming_or hknown hmem
      rw [h.incoming] at hor
      exact hor.imp_right .inl
  · rename_i hmem
    split
    · -- for a later call
      rename_i hwait
      refine ⟨announced, waits ++ [inv], h.setInventoryKnown, h.incoming, h.contents, h.within, ?_,
        h.announced_sublist.trans (List.sublist_append_left _ _), h.waits_sublist.append (List.Sublist.refl _),
        fun x hx => ?_, fun x hx => ?_⟩
      · rw [h.vInvWait]
      · rcases List.mem_append.mp hx with hx | hx
        · exact h.wait x hx
        · exact List.mem_singleton.mp hx ▸ hwait
      · rcases List.mem_append.mp hx with hx | hx
        · exact (hleft x hx).imp_right (Or.imp_right (List.mem_append_left _))
        · exact .inr (.inr (List.mem_append_right _ hx))
    · have hinsert : l.setInventoryKnown.insert inv = ((l.setInventoryKnown.insert inv).1, true) := by
        rw [MruSet.insert, if_neg hmem]
      rw [hinsert]
      rw [h.setInventoryKnown] at hmem
      refine ⟨announced ++ [inv], waits, ?_, ?_, ?_, h.within.add inv, h.vInvWait,
        h.announced_sublist.append (List.Sublist.refl _), h.waits_sublist.trans (List.sublist_append_left _ _),
        h.wait, fun x hx => ?_⟩
      · rw [MruSet.insertAll_concat, h.setInventoryKnown]
      · rw [MruSet.incoming_concat, h.incoming, if_neg hmem]
      · rw [Batches.contents_add, h.contents]
      · rcases List.mem_append.mp hx with hx | hx
        · exact (hleft x hx).imp_right (Or.imp_left (List.mem_append_left _))
        · exact .inr (.inl (List.mem_append_right _ hx))

variable (fSendTrickle fTrickleWait) in
theorem sendInventory_foldl (hknown : known.Inv) (items : List CInv) :
    ∃ announced waits, Sent fSendTrickle fTrickleWait known items announced waits
      (items.foldl (sendInventory fSendTrickle fTrickleWait) ⟨known, .empty, []⟩) := by
  induction items using List.reverseRecOn with
  | nil => exact ⟨[], [], .start known⟩
  | append_singleton items inv ih =>
    obtain ⟨announced, waits, hsent⟩ := ih
    rw [List.foldl_append, List.foldl_cons, List.foldl_nil]
    exact hsent.step hknown inv

/-- What a call of `SendMessages` does to the inventory. -/
structure Sends (fSendTrickle : Bool) (fTrickleWait : uint256 → Bool) (s : PeerInventory)
    (announced : List CInv) (s' : PeerInventory) : Prop where
  setInventoryKnown : s'.setInventoryKnown = s.setInventoryKnown.insertAll announced
  incoming : s.setInventoryKnown.incoming announced = announced
  announced_sublist : announced.Sublist s.vInventoryToSend
  waits_sublist : s'.vInventoryToSend.Sublist s.vInventoryToSend
  wait : ∀ inv ∈ s'.vInventoryToSend,
    inv.type = MSG_TX ∧ fSendTrickle = false ∧ fTrickleWait inv.hash = true
  kept : ∀ inv ∈ s.vInventoryToSend,
    inv ∈ s.setInventoryKnown.set ∨ inv ∈ announced ∨ inv ∈ s'.vInventoryToSend

variable (fSendTrickle fTrickleWait) in
theorem sendMessages_spec (hs : s.setInventoryKnown.Inv) :
    Sends fSendTrickle fTrickleWait s (s.sendMessages fSendTrickle fTrickleWait).2.flatten
        (s.sendMessages fSendTrickle fTrickleWait).1 ∧
      ∀ message ∈ (s.sendMessages fSendTrickle fTrickleWait).2,
        message ≠ [] ∧ message.length ≤ 1000 := by
  obtain ⟨announced, waits, hsent⟩ :=
    sendInventory_foldl fSendTrickle fTrickleWait hs
      s.vInventoryToSend
  have hflatten : (s.sendMessages fSendTrickle fTrickleWait).2.flatten = announced :=
    (Batches.flatten_messages _).trans hsent.contents
  have hwaits : (s.sendMessages fSendTrickle fTrickleWait).1.vInventoryToSend = waits :=
    hsent.vInvWait
  refine ⟨?_, hsent.within.messages⟩
  constructor
  · rw [hflatten]
    exact hsent.setInventoryKnown
  · rw [hflatten]
    exact hsent.incoming
  · rw [hflatten]
    exact hsent.announced_sublist
  · rw [hwaits]
    exact hsent.waits_sublist
  · rw [hwaits]
    exact hsent.wait
  · rw [hflatten, hwaits]
    exact hsent.kept

end PeerInventory

/-! ## Runs -/

namespace InventoryHistory

open PeerInventory

variable {n : Nat} {h : InventoryHistory} {inv : CInv}

/-- What holds between the calls. -/
structure Inv (n : Nat) (h : InventoryHistory) : Prop where
  known : h.state.setInventoryKnown = (MruSet.new n).insertAll h.told
  queued : ∀ inv ∈ h.state.vInventoryToSend, inv ∈ h.asked
  announced : h.messages.flatten.Sublist ((MruSet.new n).incoming h.told)
  wanted : ∀ inv ∈ h.messages.flatten, inv ∈ h.asked
  messages : ∀ message ∈ h.messages, message ≠ [] ∧ message.length ≤ 1000

theorem inv_init (n : Nat) : (init n).Inv n where
  known := rfl
  queued _ hmem := absurd hmem List.not_mem_nil
  announced := List.nil_sublist _
  wanted _ hmem := absurd hmem List.not_mem_nil
  messages _ hmem := absurd hmem List.not_mem_nil

theorem Inv.known_inv (h : Inv n h') : h'.state.setInventoryKnown.Inv := by
  rw [h.known]
  exact (MruSet.inv_new n).insertAll _

theorem Inv.step (hinv : h.Inv n) (e : InventoryEvent) : (h.step e).Inv n := by
  cases e with
  | addInventoryKnown inv =>
    refine ⟨?_, hinv.queued, ?_, hinv.wanted, hinv.messages⟩
    · show (h.state.setInventoryKnown.insert inv).1 = _
      rw [hinv.known, ← MruSet.insertAll_concat]
      rfl
    · show h.messages.flatten.Sublist ((MruSet.new n).incoming (h.told ++ [inv]))
      rw [MruSet.incoming_concat]
      exact hinv.announced.trans (List.sublist_append_left _ _)
  | pushInventory inv =>
    have hasked : ∀ x ∈ h.asked, x ∈ h.asked ++ [inv] := fun x => List.mem_append_left _
    refine ⟨?_, fun x hx => ?_, hinv.announced, fun x hx => hasked x (hinv.wanted x hx),
      hinv.messages⟩
    · show (h.state.pushInventory inv).setInventoryKnown = (MruSet.new n).insertAll h.told
      rw [← hinv.known, pushInventory]
      split
      · rfl
      · rfl
    · change x ∈ (h.state.pushInventory inv).vInventoryToSend at hx
      rw [pushInventory] at hx
      split at hx
      · exact hasked x (hinv.queued x hx)
      · rcases List.mem_append.mp hx with hx | hx
        · exact hasked x (hinv.queued x hx)
        · exact List.mem_append_right _ hx
  | sendMessages fSendTrickle fTrickleWait =>
    obtain ⟨hsends, hmessages⟩ := sendMessages_spec fSendTrickle fTrickleWait
      hinv.known_inv
    have hflatten : (h.step (.sendMessages fSendTrickle fTrickleWait)).messages.flatten =
        h.messages.flatten ++ (h.state.sendMessages fSendTrickle fTrickleWait).2.flatten :=
      List.flatten_append
    refine ⟨?_, fun x hx => ?_, ?_, fun x hx => ?_, fun message hmem => ?_⟩
    · show (h.state.sendMessages fSendTrickle fTrickleWait).1.setInventoryKnown = _
      rw [hsends.setInventoryKnown, hinv.known, ← MruSet.insertAll_append]
      rfl
    · exact hinv.queued x (hsends.waits_sublist.subset hx)
    · rw [hflatten]
      show List.Sublist _ ((MruSet.new n).incoming
        (h.told ++ (h.state.sendMessages fSendTrickle fTrickleWait).2.flatten))
      rw [MruSet.incoming_append, ← hinv.known, hsends.incoming]
      exact hinv.announced.append (List.Sublist.refl _)
    · rw [hflatten] at hx
      rcases List.mem_append.mp hx with hx | hx
      · exact hinv.wanted x hx
      · exact hinv.queued x (hsends.announced_sublist.subset hx)
    · rcases List.mem_append.mp hmem with hmem | hmem
      · exact hinv.messages message hmem
      · exact hmessages message hmem

theorem Inv.run (hinv : h.Inv n) (events : List InventoryEvent) : (h.run events).Inv n :=
  List.foldlRecOn events InventoryHistory.step hinv fun _ hinv e _ => hinv.step e

/-- The item is on the queue, or the peer has heard of it since, one way or the other. -/
structure Pending (n : Nat) (before : List CInv) (inv : CInv) (h : InventoryHistory) : Prop where
  toInv : h.Inv n
  since : ∃ since, h.told = before ++ since ∧ (inv ∈ h.state.vInventoryToSend ∨ inv ∈ since)

theorem Pending.step {before : List CInv} (hnew : inv ∉ ((MruSet.new n).insertAll before).set)
    (h : Pending n before inv h') (e : InventoryEvent) : Pending n before inv (h'.step e) := by
  obtain ⟨since, htold, hor⟩ := h.since
  refine ⟨h.toInv.step e, ?_⟩
  cases e with
  | addInventoryKnown other =>
    refine ⟨since ++ [other], ?_, hor.imp_right (List.mem_append_left _)⟩
    show h'.told ++ [other] = _
    rw [htold, List.append_assoc]
  | pushInventory other =>
    refine ⟨since, htold, hor.imp_left fun hmem => ?_⟩
    show inv ∈ (h'.state.pushInventory other).vInventoryToSend
    rw [pushInventory]
    split
    · exact hmem
    · exact List.mem_append_left _ hmem
  | sendMessages fSendTrickle fTrickleWait =>
    obtain ⟨hsends, -⟩ := sendMessages_spec fSendTrickle fTrickleWait
      h.toInv.known_inv
    refine ⟨since ++ (h'.state.sendMessages fSendTrickle fTrickleWait).2.flatten, ?_, ?_⟩
    · rw [← List.append_assoc, ← htold]
      rfl
    · rcases hor with hmem | hmem
      · rcases hsends.kept inv hmem with hknown | hannounced | hkept
        · -- known at last, so it has come in since
          rw [h.toInv.known, htold, MruSet.insertAll_append] at hknown
          have hcame := MruSet.mem_incoming_or _ ((MruSet.inv_new n).insertAll before) hknown
          have hsince := MruSet.incoming_subset _ since (hcame.resolve_left hnew)
          exact .inr (List.mem_append_left _ hsince)
        · exact .inr (List.mem_append_right _ hannounced)
        · exact .inl hkept
      · exact .inr (List.mem_append_left _ hmem)

end InventoryHistory

open InventoryHistory in
/-- A peer is told about items in messages of at most 1000, only what it was to be told, and nothing
that `setInventoryKnown` has at that moment, with what the call has announced before: between two
announcements of an item at least as many others have come in as the set has room for, and without a
limit there is no second one. What is pushed stays on the queue until the peer has heard of it; a call
with `fSendTrickle` leaves nothing on the queue, and any other call only transactions. -/
theorem inventory_spec (n : Nat) (events : List InventoryEvent) :
    let h := (init n).run events
    let cameIn := (MruSet.new n).incoming h.told
    h.messages.flatten.Sublist cameIn ∧ (n = 0 → cameIn.Nodup) ∧ Recent.Spaced n cameIn ∧
      (∀ message ∈ h.messages, message ≠ [] ∧ message.length ≤ 1000) ∧
      (∀ inv ∈ h.messages.flatten, inv ∈ h.asked) ∧
      (∀ inv, inv ∉ h.state.setInventoryKnown.set → ∀ later,
        ∃ since, ((h.step (.pushInventory inv)).run later).told = h.told ++ since ∧
          (inv ∈ ((h.step (.pushInventory inv)).run later).state.vInventoryToSend ∨ inv ∈ since)) ∧
      ∀ fSendTrickle fTrickleWait,
        (∀ inv ∈ (h.step (.sendMessages fSendTrickle fTrickleWait)).state.vInventoryToSend,
          inv.type = MSG_TX ∧ fSendTrickle = false ∧ fTrickleWait inv.hash = true) ∧
        ∃ announced, (h.step (.sendMessages fSendTrickle fTrickleWait)).messages.flatten =
            h.messages.flatten ++ announced ∧
          ∀ before inv after, announced = before ++ inv :: after →
            inv ∉ (h.state.setInventoryKnown.insertAll before).set := by
  intro h cameIn
  have hinv : h.Inv n := (inv_init n).run events
  obtain ⟨hnodup, hspaced⟩ := MruSet.spaced_incoming n h.told
  refine ⟨hinv.announced, hnodup, hspaced, hinv.messages, hinv.wanted, fun inv hnew later => ?_,
    fun fSendTrickle fTrickleWait => ?_⟩
  · have hstart : Pending n h.told inv (h.step (.pushInventory inv)) := by
      refine ⟨hinv.step _, [], (List.append_nil _).symm, .inl ?_⟩
      show inv ∈ (h.state.pushInventory inv).vInventoryToSend
      rw [PeerInventory.pushInventory, if_neg hnew]
      exact List.mem_append_right _ (List.mem_singleton_self inv)
    rw [hinv.known] at hnew
    have hrun : Pending n h.told inv ((h.step (.pushInventory inv)).run later) :=
      List.foldlRecOn later InventoryHistory.step hstart fun _ hpending e _ => hpending.step hnew e
    exact hrun.since
  · have hsends := (PeerInventory.sendMessages_spec fSendTrickle fTrickleWait hinv.known_inv).1
    refine ⟨hsends.wait, _, List.flatten_append, fun before inv after heq => ?_⟩
    have hincoming := hsends.incoming
    change (h.state.sendMessages fSendTrickle fTrickleWait).2.flatten = _ at heq
    rw [heq] at hincoming
    exact MruSet.notMem_of_incoming_eq hincoming

end Terracoin
