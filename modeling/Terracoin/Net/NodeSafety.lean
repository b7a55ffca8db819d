import Terracoin.Net.NodeReferences

/-!
# Nodes in memory

No step of the threads touches a node that was freed (`nodes_spec`). A node that was disconnected
before its connection was marked, or that a second call of `ConnectNode` has found, is never freed.
-/

namespace Terracoin.NodeLife.Nodes

variable {A O : Type} {s s' : Nodes A O} {finders finders' : Nat → Nat} {released : Nat → Bool}
  {p : Nat} {o : O} {phase : Opening}

/-! ## The sections of the socket thread -/

/-- The invariant of the next state, in which no node that was pinned has come loose. -/
def Next (s : Nodes A O) (finders : Nat → Nat) (released : Nat → Bool) (s' : Nodes A O) : Prop :=
  ∃ finders' released', s'.Inv finders' released' ∧
    ∀ q, s.Pinned finders released q → s'.Pinned finders' released' q

theorem disconnectNode_spec (h : s.Inv finders released) (hp : p ∈ s.vNodes) :
    ∃ s' released', s.disconnectNode p = some s' ∧ s'.Inv finders released' ∧
      (∀ q, s.Pinned finders released q → s'.Pinned finders released' q) ∧
      ∀ q ∈ s.vNodes, q ≠ p → q ∈ s'.vNodes := by
  obtain ⟨pnode, hpnode⟩ := Option.isSome_iff_exists.mp (h.counted.live p hp)
  rw [disconnectNode, hpnode, Option.bind_some]
  by_cases hunused : pnode.unused s.now = true
  · rw [if_pos hunused, modify, hpnode, Option.map_some]
    exact ⟨s.disconnected p pnode, _, rfl,
      ⟨h.counted.disconnected hp hpnode, fun o => (h.safe o).disconnected h.counted hp hpnode,
        h.owner⟩, fun q hq => hq.disconnected h.counted hp,
      fun q hq hqp => mem_vNodes_disconnected.mpr ⟨hq, hqp⟩⟩
  · rw [if_neg hunused]
    exact ⟨s, released, rfl, h, fun _ hq => hq, fun _ hq _ => hq⟩

theorem disconnectLoop_spec {ps : List Nat} (h : s.Inv finders released) (hnodup : ps.Nodup)
    (hps : ∀ p ∈ ps, p ∈ s.vNodes) :
    ∃ s' released', ps.foldlM disconnectNode s = some s' ∧ s'.Inv finders released' ∧
      ∀ q, s.Pinned finders released q → s'.Pinned finders released' q := by
  induction ps generalizing s released with
  | nil => exact ⟨s, released, rfl, h, fun _ hq => hq⟩
  | cons p ps ih =>
    obtain ⟨hp, hnodup⟩ := List.nodup_cons.mp hnodup
    obtain ⟨s1, released1, h1, hinv1, hpinned1, hin1⟩ :=
      disconnectNode_spec h (hps p List.mem_cons_self)
    obtain ⟨s', released', h', hinv', hpinned'⟩ := ih hinv1 hnodup fun q hq =>
      hin1 q (hps q (List.mem_cons_of_mem _ hq)) fun hqp => hp (hqp ▸ hq)
    refine ⟨s', released', ?_, hinv', fun q hq => hpinned' q (hpinned1 q hq)⟩
    rw [List.foldlM_cons, h1]
    exact h'

theorem deleteNode_spec {locked : Nat → Bool} (h : s.Inv finders released)
    (hp : p ∈ s.vNodesDisconnected) :
    ∃ s', s.deleteNode locked p = some s' ∧ s'.Inv finders released ∧
      (∀ q, s.Pinned finders released q → s'.Pinned finders released q) ∧
      ∀ q ∈ s.vNodesDisconnected, q ≠ p → q ∈ s'.vNodesDisconnected := by
  obtain ⟨pnode, hpnode⟩ := Option.isSome_iff_exists.mp (h.counted.live_disconnected p hp)
  rw [deleteNode, hpnode, Option.bind_some]
  by_cases hdelete : pnode.getRefCount s.now ≤ 0 ∧ locked p
  · rw [if_pos hdelete]
    have hneedless := needless_of_getRefCount h.counted hp hpnode hdelete.1
    exact ⟨s.deleted p, rfl, ⟨h.counted.deleted hneedless, fun o => (h.safe o).deleted hneedless,
      h.owner⟩, fun q hq => hq.deleted hneedless,
      fun q hq hqp => mem_vNodesDisconnected_deleted.mpr ⟨hq, hqp⟩⟩
  · rw [if_neg hdelete]
    exact ⟨s, rfl, h, fun _ hq => hq, fun _ hq _ => hq⟩

theorem deleteLoop_spec {locked : Nat → Bool} {ps : List Nat} (h : s.Inv finders released)
    (hnodup : ps.Nodup) (hps : ∀ p ∈ ps, p ∈ s.vNodesDisconnected) :
    ∃ s', ps.foldlM (deleteNode locked) s = some s' ∧ s'.Inv finders released ∧
      ∀ q, s.Pinned finders released q → s'.Pinned finders released q := by
  induction ps generalizing s with
  | nil => exact ⟨s, rfl, h, fun _ hq => hq⟩
  | cons p ps ih =>
    obtain ⟨hp, hnodup⟩ := List.nodup_cons.mp hnodup
    obtain ⟨s1, h1, hinv1, hpinned1, hin1⟩ :=
      @deleteNode_spec _ _ _ _ _ _ locked h (hps p List.mem_cons_self)
    obtain ⟨s', h', hinv', hpinned'⟩ := ih hinv1 hnodup fun q hq =>
      hin1 q (hps q (List.mem_cons_of_mem _ hq)) fun hqp => hp (hqp ▸ hq)
    refine ⟨s', ?_, hinv', fun q hq => hpinned' q (hpinned1 q hq)⟩
    rw [List.foldlM_cons, h1]
    exact h'

theorem disconnectNodes_spec (h : s.Inv finders released) (locked : Nat → Bool) :
    ∃ s', s.disconnectNodes locked = some s' ∧ s.Next finders released s' := by
  obtain ⟨s1, released1, h1, hinv1, hpinned1⟩ :=
    disconnectLoop_spec h h.counted.nodup fun _ hp => hp
  obtain ⟨s', h', hinv', hpinned'⟩ := @deleteLoop_spec _ _ _ _ _ locked _ hinv1
    hinv1.counted.nodup_disconnected fun _ hp => hp
  refine ⟨s', ?_, finders, released1, hinv', fun q hq => hpinned' q (hpinned1 q hq)⟩
  rw [disconnectNodes, h1]
  exact h'

/-! ## The other steps -/

/-- A write that leaves alone what decides about the life of a node. -/
structure Frame (f : CNode A → CNode A) : Prop where
  fInbound : ∀ pnode, (f pnode).fInbound = pnode.fInbound
  fNetworkNode : ∀ pnode, (f pnode).fNetworkNode = pnode.fNetworkNode
  nRefCount : ∀ pnode, (f pnode).nRefCount = pnode.nRefCount
  nReleaseTime : ∀ pnode, (f pnode).nReleaseTime = pnode.nReleaseTime

theorem frame_io (io : Io) : Frame (io.apply : CNode A → CNode A) := by
  constructor <;> intro pnode <;> unfold Io.apply <;> dsimp only <;> split <;> rfl

theorem Inv.modify {f : CNode A → CNode A} (h : s.Inv finders released) (hf : Frame f)
    (hp : (s.heap p).isSome) :
    ∃ s', s.modify p f = some s' ∧ s.Next finders released s' := by
  refine ⟨_, modify_eq f hp, finders, released, ?_, fun _ hq => hq⟩
  refine h.mapHeap (fun _ => rfl) (Int.le_refl _) rfl rfl rfl (fun _ => .inl rfl)
    (fun _ => Nat.le_refl _) (fun q hq => absurd hq (Nat.lt_irrefl _)) ?_ ?_ ?_ rfl
  · intro q pnode
    split
    · exact ⟨hf.fInbound pnode, hf.nReleaseTime pnode⟩
    · exact ⟨rfl, rfl⟩
  · intro q pnode
    split
    · rw [hf.nRefCount]
      rfl
    · rfl
  · intro _ q pnode _ hset
    split at hset
    · rw [hf.fNetworkNode] at hset
      exact .inl hset
    · exact .inl hset

theorem vNodesCopy_setCopy_self {t : Thread} {qs : List Nat} :
    (s.setCopy t qs).vNodesCopy t = qs := Function.update_self ..

theorem vNodesCopy_setCopy_of_ne {t t' : Thread} {qs : List Nat} (ht : t' ≠ t) :
    (s.setCopy t qs).vNodesCopy t' = s.vNodesCopy t' := Function.update_of_ne ht _ _

theorem copies_setCopy (t : Thread) (qs : List Nat) (p : Nat) :
    (s.setCopy t qs).copies p + (if p ∈ s.vNodesCopy t then 1 else 0) =
      s.copies p + if p ∈ qs then 1 else 0 := by
  unfold copies
  cases t with
  | socketHandler =>
    rw [vNodesCopy_setCopy_self, vNodesCopy_setCopy_of_ne (by decide)]
    omega
  | messageHandler =>
    rw [vNodesCopy_setCopy_self, vNodesCopy_setCopy_of_ne (by decide)]
    omega

/-- A thread takes a copy and a reference to each of its nodes, or gives them back. -/
theorem Inv.setCopy {t : Thread} {ps qs : List Nat} {d : Int} (h : s.Inv finders released)
    (hnodup : ps.Nodup) (hps : ∀ p ∈ ps, (s.heap p).isSome) (hqs : qs = s.vNodes ∨ qs = [])
    (hd : ∀ p, (if p ∈ ps then d else 0) + (if p ∈ s.vNodesCopy t then 1 else 0) =
      if p ∈ qs then 1 else 0) :
    ∃ s', (s.setCopy t qs).modifyAll ps
        (fun pnode => { pnode with nRefCount := pnode.nRefCount + d }) = some s' ∧
      s.Next finders released s' := by
  refine ⟨_, modifyAll_eq _ hnodup hps, finders, released, ?_, fun _ hq => hq⟩
  refine h.mapHeap (fun _ => rfl) (Int.le_refl _) rfl rfl rfl (fun t' => ?_)
    (fun _ => Nat.le_refl _) (fun q hq => absurd hq (Nat.lt_irrefl _)) ?_ ?_ ?_ rfl
  · by_cases ht' : t' = t
    · have hcopy : (s.setCopy t qs).vNodesCopy t' = qs := by
        rw [ht', vNodesCopy_setCopy_self]
      exact .inr (hqs.imp hcopy.trans hcopy.trans)
    · exact .inl (vNodesCopy_setCopy_of_ne ht')
  · intro q pnode
    split
    · exact ⟨rfl, rfl⟩
    · exact ⟨rfl, rfl⟩
  · intro q pnode
    have hcopies := @copies_setCopy _ _ s t qs q
    have hdq := hd q
    change _ = pnode.nRefCount + (s.setCopy t qs).copies q + finders q
    have hwritten : ((if q ∈ ps then fun pnode : CNode A => { pnode with
        nRefCount := pnode.nRefCount + d } else id) pnode).nRefCount =
        pnode.nRefCount + if q ∈ ps then d else 0 := by
      split
      · rfl
      · exact (Int.add_zero _).symm
    rw [hwritten]
    -- the copy and the references change alike
    by_cases ha : q ∈ s.vNodesCopy t <;> by_cases hc : q ∈ qs <;>
      simp only [ha, hc, if_true, if_false] at hdq hcopies <;> omega
  · intro _ q pnode _ hset
    split at hset
    · exact .inl hset
    · exact .inl hset

theorem Next.trans_of_pinned {s1 : Nodes A O} (hpinned : ∀ q, s.Pinned finders released q →
    s1.Pinned finders released q) (h : s1.Next finders released s') :
    s.Next finders released s' := by
  obtain ⟨finders', released', hinv, hnext⟩ := h
  exact ⟨finders', released', hinv, fun q hq => hnext q (hpinned q hq)⟩

theorem Kept.isSome {since : Int} (h : s.Kept p since) (hnow : s.now < since + 15 * 60) :
    (s.heap p).isSome := by
  rcases h with hpast | ⟨pnode, hp, -⟩
  · omega
  · exact Option.isSome_of_eq_some hp

theorem Pinned.isSome (h : s.Counted finders released) (hp : s.Pinned finders released p) :
    (s.heap p).isSome := by
  rcases hp with hp | ⟨hp, -⟩
  · exact h.live_found p hp
  · exact h.live_disconnected p hp

section Connect

variable [DecidableEq O]

/-- `ConnectNode` takes a reference to the node that it has found. -/
theorem Inv.addRef (h : s.Inv finders released) (hp : (s.heap p).isSome) (o : O) :
    ∃ s', (s.setOpening o (.added p)).modify p CNode.addRef = some s' ∧
      s.Next finders released s' := by
  have hmore : ∀ q, finders q ≤ Function.update finders p (finders p + 1) q := by
    intro q
    by_cases hqp : q = p
    · rw [hqp, Function.update_self]
      exact Nat.le_succ _
    · exact Nat.le_of_eq (Function.update_of_ne hqp _ _).symm
  have hinv : (s.mapHeap fun q => if q = p then CNode.addRef else id).Inv
      (Function.update finders p (finders p + 1)) released := by
    refine h.mapHeap (fun _ => rfl) (Int.le_refl _) rfl rfl rfl (fun _ => .inl rfl) hmore
      (fun q hq => ?_) ?_ ?_ ?_ rfl
    · by_cases hqp : q = p
      · rw [hqp]
        exact hp
      · rw [Function.update_of_ne hqp] at hq
        exact absurd hq (Nat.lt_irrefl _)
    · intro q pnode
      split
      · exact ⟨rfl, rfl⟩
      · exact ⟨rfl, rfl⟩
    · intro q pnode
      change _ = pnode.nRefCount + s.copies q + _
      by_cases hqp : q = p
      · rw [if_pos hqp, hqp, Function.update_self, CNode.addRef]
        push_cast
        omega
      · rw [if_neg hqp, Function.update_of_ne hqp]
        rfl
    · intro _ q pnode _ hset
      split at hset
      · exact .inl hset
      · exact .inl hset
  refine ⟨_, modify_eq _ hp, _, released, hinv.setOpening ?_ ?_, ?_⟩
  · rintro q (hq | hq)
    · cases hq
    · cases hq
  · change 0 < Function.update finders p (finders p + 1) p
    rw [Function.update_self]
    exact Nat.succ_pos _
  · exact fun q hq => hq.imp_left fun hfound => Nat.lt_of_lt_of_le hfound (hmore q)

/-- The connection of a node is marked. -/
theorem Inv.mark (h : s.Inv finders released)
    (hphase : s.opening o = .added p ∨ s.opening o = .connected p) :
    ∃ s', (s.setOpening o (.marked p s.now)).modify p
      (fun pnode => { pnode with fNetworkNode := true }) = some s' ∧
      s.Next finders released s' := by
  have hsafe := h.safe o
  have hp : (s.heap p).isSome := by
    rcases hphase with hphase | hphase
    · rw [hphase] at hsafe
      exact h.counted.live_found p hsafe
    · rw [hphase] at hsafe
      obtain ⟨pnode, hpnode, -⟩ := hsafe.1.node
      exact Option.isSome_of_eq_some hpnode
  have hnot : ∀ q, ¬Owns (.marked p s.now) q := by
    rintro q (hq | hq)
    · cases hq
    · cases hq
  have hmarked : s.Safe finders released (.marked p s.now) := by
    refine ⟨Int.le_refl _, ?_⟩
    rcases hphase with hphase | hphase
    · rw [hphase] at hsafe
      exact .inr (.inr (.inl hsafe))
    · rw [hphase] at hsafe
      rcases hsafe.2 with hmem | hmem
      · exact .inl hmem
      · refine .inr (.inr ?_)
        cases hreleased : released p with
        | false => exact .inr ⟨hmem, hreleased⟩
        | true => exact .inl (hsafe.1.released hreleased)
  have hinv : (s.setOpening o (.marked p s.now)).Inv finders released := h.setOpening hnot hmarked
  refine ⟨_, modify_eq _ hp, finders, released, ?_, fun _ hq => hq⟩
  refine hinv.mapHeap (fun _ => rfl) (Int.le_refl _) rfl rfl rfl (fun _ => .inl rfl)
    (fun _ => Nat.le_refl _) (fun q hq => absurd hq (Nat.lt_irrefl _)) ?_ ?_ ?_ rfl
  · intro q pnode
    split
    · exact ⟨rfl, rfl⟩
    · exact ⟨rfl, rfl⟩
  · intro q pnode
    split
    · rfl
    · rfl
  · intro o' q pnode ho' hset
    split at hset
    · next hqp =>
      -- a node that another connection has found, or that has no other owner
      subst hqp
      rcases hphase with hphase | hphase
      · rw [hphase] at hsafe
        exact .inr hsafe
      · exfalso
        have hne : o' ≠ o := by
          rintro rfl
          rw [opening_setOpening_self] at ho'
          exact hnot q ho'
        rw [opening_setOpening_of_ne hne] at ho'
        exact hne (h.owner o' o q ho' (.inr hphase))
    · exact .inl hset

theorem not_owns_idle (q : Nat) : ¬Owns .idle q := by
  rintro (hq | hq)
  · cases hq
  · cases hq

/-- A new node of a connection. -/
theorem Inv.createOpening (h : s.Inv finders released) (o : O) (addr : A) (hSocket : Nat)
    (version : List UInt8) :
    ((s.create addr hSocket false version).setOpening o (.created s.next)).Inv finders
      released := by
  have hnode : ∀ o', ¬Owns (s.opening o') s.next := by
    intro o' ho'
    have hsafe := h.safe o'
    have hunmarked : s.Unmarked finders released s.next := by
      rcases ho' with ho' | ho'
      · rw [ho'] at hsafe
        exact hsafe.1
      · rw [ho'] at hsafe
        exact hsafe.1
    obtain ⟨pnode, hpnode, -⟩ := hunmarked.node
    exact h.ne_next (Option.isSome_of_eq_some hpnode) rfl
  have hreleased := (h.counted.fresh s.next (Nat.le_refl _)).2
  refine (h.create addr hSocket false version).own (.inl rfl) ?_ fun o' _ => hnode o'
  refine ⟨⟨?_, _, Function.update_self .., rfl, ?_⟩, hreleased, ?_, ?_⟩
  · rw [hreleased]
    intro hset
    cases hset
  · intro hset
    cases hset
  · exact fun hmem => h.ne_next (h.counted.live s.next hmem) rfl
  · exact fun hmem => h.ne_next (h.counted.live_disconnected s.next hmem) rfl

/-- The new node of a connection comes into `vNodes`. -/
theorem Inv.pushOpening (h : s.Inv finders released) (hphase : s.opening o = .created p) :
    ((s.push p).setOpening o (.connected p)).Inv finders released := by
  have hsafe := h.safe o
  rw [hphase] at hsafe
  obtain ⟨hunmarked, hreleased, hout, hdisc⟩ := hsafe
  have hp : (s.heap p).isSome := by
    obtain ⟨pnode, hpnode, -⟩ := hunmarked.node
    exact Option.isSome_of_eq_some hpnode
  have hidle : (s.setOpening o .idle).Inv finders released := h.setOpening not_owns_idle trivial
  have hnone : ∀ o', ¬Owns ((s.setOpening o .idle).opening o') p := by
    intro o' ho'
    by_cases hoo : o' = o
    · rw [hoo, opening_setOpening_self] at ho'
      exact not_owns_idle p ho'
    · rw [opening_setOpening_of_ne hoo] at ho'
      exact hoo (h.owner o' o p ho' (.inl hphase))
  have hpushed := hidle.push hp hout hdisc hreleased fun o' ho' => hnone o' (.inl ho')
  have hsame : (s.push p).setOpening o (.connected p) =
      ((s.setOpening o .idle).push p).setOpening o (.connected p) := by
    simp [Nodes.setOpening, Nodes.push]
  rw [hsame]
  refine hpushed.own (.inr rfl) ⟨?_, .inl ?_⟩ fun o' _ => hnone o'
  · exact ⟨hunmarked.released, hunmarked.node⟩
  · rw [Nodes.push]
    exact List.mem_append_right _ (List.mem_singleton_self p)

end Connect

/-! ## Runs -/

theorem inv_init (now : Int) : (init now : Nodes A O).Inv (fun _ => 0) fun _ => false where
  counted :=
    { nodup := List.nodup_nil
      nodup_disconnected := List.nodup_nil
      nodup_copy := fun _ => List.nodup_nil
      disjoint := fun _ hp => by cases hp
      fresh := fun _ _ => ⟨rfl, rfl⟩
      live := fun _ hp => by cases hp
      live_disconnected := fun _ hp => by cases hp
      live_copy := fun _ _ hp => by cases hp
      live_found := fun _ hp => by cases hp
      unreleased := fun _ _ => rfl
      count := fun _ _ hp => by cases hp }
  safe _ := trivial
  owner o _ p ho _ := absurd ho (not_owns_idle p)

theorem pinned_of_copies_lt {pnode : CNode A} (h : s.Counted finders released)
    (hp : p ∈ s.vNodesDisconnected) (hpnode : s.heap p = some pnode)
    (hlt : (s.copies p : Int) < pnode.nRefCount) : s.Pinned finders released p := by
  have hcount := h.count p pnode hpnode
  cases hreleased : released p with
  | false => exact .inr ⟨hp, hreleased⟩
  | true =>
    rw [hreleased, Bool.toNat_true] at hcount
    refine .inl ?_
    omega

section Runs

variable [DecidableEq A] [DecidableEq O]

omit [DecidableEq A] [DecidableEq O] in
theorem Inv.unchanged (h : s.Inv finders released) :
    ∃ s', some s = some s' ∧ s.Next finders released s' :=
  ⟨s, rfl, finders, released, h, fun _ hq => hq⟩

theorem step_tick (h : s.Inv finders released) (n : Nat) :
    ∃ s', s.step (.tick n) = some s' ∧ s.Next finders released s' := by
  refine ⟨_, rfl, finders, released, ?_, fun _ hq => hq⟩
  exact h.mapHeap (g := fun _ => id) (fun q => (Option.map_id_apply).symm)
    (Int.le_add_of_nonneg_right (Int.natCast_nonneg n)) rfl rfl rfl
    (fun _ => .inl rfl) (fun _ => Nat.le_refl _) (fun q hq => absurd hq (Nat.lt_irrefl _))
    (fun _ _ => ⟨rfl, rfl⟩) (fun _ _ => rfl) (fun _ _ _ _ hset => .inl hset) rfl

theorem step_accept (h : s.Inv finders released) (addr : A) (hSocket : Nat) :
    ∃ s', s.step (.accept addr hSocket) = some s' ∧ s.Next finders released s' := by
  refine ⟨_, rfl, finders, released, ?_, fun _ hq => hq⟩
  refine (h.create addr hSocket true []).push ?_ ?_ ?_ ?_ ?_
  · rw [heap_create, Function.update_self]
    rfl
  · exact fun hmem => h.ne_next (h.counted.live s.next hmem) rfl
  · exact fun hmem => h.ne_next (h.counted.live_disconnected s.next hmem) rfl
  · exact (h.counted.fresh s.next (Nat.le_refl _)).2
  · intro o ho
    have hsafe := h.safe o
    rw [show s.opening o = .created s.next from ho] at hsafe
    obtain ⟨pnode, hpnode, -⟩ := hsafe.1.node
    exact h.ne_next (Option.isSome_of_eq_some hpnode) rfl

theorem step_visit (h : s.Inv finders released) (p : Nat) (io : Io) :
    ∃ s', s.step (.visit p io) = some s' ∧ s.Next finders released s' := by
  rw [step]
  split
  · next hp => exact h.modify (frame_io io) (h.counted.live p hp)
  · exact h.unchanged

theorem step_copy (h : s.Inv finders released) (t : Thread) :
    ∃ s', s.step (.copy t) = some s' ∧ s.Next finders released s' := by
  rw [step]
  split
  · next hempty =>
    refine h.setCopy h.counted.nodup h.counted.live (.inl rfl) fun p => ?_
    rw [hempty, if_neg List.not_mem_nil]
    exact Int.add_zero _
  · exact h.unchanged

theorem step_use (h : s.Inv finders released) (t : Thread) (p : Nat) (io : Io) :
    ∃ s', s.step (.use t p io) = some s' ∧ s.Next finders released s' := by
  rw [step]
  split
  · next hp => exact h.modify (frame_io io) (h.counted.live_copy t p hp)
  · exact h.unchanged

theorem step_drop (h : s.Inv finders released) (t : Thread) :
    ∃ s', s.step (.drop t) = some s' ∧ s.Next finders released s' := by
  refine h.setCopy (h.counted.nodup_copy t) (h.counted.live_copy t) (.inr rfl) fun p => ?_
  rw [if_neg List.not_mem_nil]
  split
  · rfl
  · rfl

theorem step_find (h : s.Inv finders released) (o : O) (addr : A) :
    ∃ s', s.step (.find o addr) = some s' ∧ s.Next finders released s' := by
  rw [step]
  split
  · obtain ⟨found, hfound, hmem⟩ := findNode_eq addr h.counted.live
    rw [hfound, Option.map_some]
    refine ⟨_, rfl, finders, released, ?_, ?_⟩
    · cases found with
      | none => exact h
      | some p =>
        refine h.setOpening ?_ ⟨Int.le_refl _, .inl (hmem p rfl)⟩
        rintro q (hq | hq)
        · cases hq
        · cases hq
    · cases found with
      | none => exact fun _ hq => hq
      | some p => exact fun _ hq => hq
  · exact h.unchanged

/-- A node that was found less than 15 minutes ago is there. -/
theorem step_addRef (h : s.Inv finders released) {o : O} (ht : s.Timely (.addRef o : Act A O)) :
    ∃ s', s.step (.addRef o) = some s' ∧ s.Next finders released s' := by
  rw [step]
  split
  · next p since hphase =>
    have hsafe := h.safe o
    rw [hphase] at hsafe
    have hnow : s.now < since + 15 * 60 := ht since (by rw [hphase]; rfl)
    refine h.addRef ?_ o
    rcases hsafe.2 with hp | hp
    · exact h.counted.live p hp
    · exact hp.isSome hnow
  · exact h.unchanged

theorem step_create (h : s.Inv finders released) (o : O) (addr : A) (hSocket : Nat)
    (version : List UInt8) :
    ∃ s', s.step (.create o addr hSocket version) = some s' ∧ s.Next finders released s' := by
  rw [step]
  split
  · exact ⟨_, rfl, finders, released, h.createOpening o addr hSocket version, fun _ hq => hq⟩
  · exact h.unchanged

theorem step_push (h : s.Inv finders released) (o : O) :
    ∃ s', s.step (.push o) = some s' ∧ s.Next finders released s' := by
  rw [step]
  split
  · next p hphase =>
    exact ⟨_, rfl, finders, released, h.pushOpening hphase, fun _ hq => hq⟩
  · exact h.unchanged

theorem step_mark (h : s.Inv finders released) (o : O) :
    ∃ s', s.step (.mark o) = some s' ∧ s.Next finders released s' := by
  rw [step]
  split
  · next p hphase => exact h.mark (.inl hphase)
  · next p hphase => exact h.mark (.inr hphase)
  · exact h.unchanged

/-- So is a node whose connection was marked. -/
theorem step_oneShot (h : s.Inv finders released) {o : O} {fOneShot : Bool}
    (ht : s.Timely (.oneShot o fOneShot : Act A O)) :
    ∃ s', s.step (.oneShot o fOneShot) = some s' ∧ s.Next finders released s' := by
  rw [step]
  split
  · next p since hphase =>
    have hsafe := h.safe o
    rw [hphase] at hsafe
    have hnow : s.now < since + 15 * 60 := ht since (by rw [hphase]; rfl)
    have hp : (s.heap p).isSome := by
      rcases hsafe.2 with hp | hp | hp
      · exact h.counted.live p hp
      · exact hp.isSome hnow
      · exact hp.isSome h.counted
    have hidle : (s.setOpening o .idle).Inv finders released :=
      h.setOpening not_owns_idle trivial
    have hframe : Frame fun pnode : CNode A => { pnode with
        fOneShot := pnode.fOneShot || fOneShot } :=
      ⟨fun _ => rfl, fun _ => rfl, fun _ => rfl, fun _ => rfl⟩
    obtain ⟨s', hs', hnext⟩ := hidle.modify hframe hp
    exact ⟨s', hs', hnext.trans_of_pinned fun _ hq => hq⟩
  · exact h.unchanged

theorem step_leave (h : s.Inv finders released) (o : O) :
    ∃ s', s.step (.leave o) = some s' ∧ s.Next finders released s' := by
  rw [step]
  split
  · exact ⟨_, rfl, finders, released, h.setOpening not_owns_idle trivial, fun _ hq => hq⟩
  · exact ⟨_, rfl, finders, released, h.setOpening not_owns_idle trivial, fun _ hq => hq⟩
  · exact h.unchanged

theorem step_spec (h : s.Inv finders released) {act : Act A O} (ht : s.Timely act) :
    ∃ s', s.step act = some s' ∧ s.Next finders released s' := by
  cases act with
  | tick n => exact step_tick h n
  | accept addr hSocket => exact step_accept h addr hSocket
  | disconnectNodes locked => exact disconnectNodes_spec h locked
  | visit p io => exact step_visit h p io
  | copy t => exact step_copy h t
  | use t p io => exact step_use h t p io
  | drop t => exact step_drop h t
  | find o addr => exact step_find h o addr
  | addRef o => exact step_addRef h ht
  | create o addr hSocket version => exact step_create h o addr hSocket version
  | push o => exact step_push h o
  | mark o => exact step_mark h o
  | oneShot o fOneShot => exact step_oneShot h ht
  | leave o => exact step_leave h o

theorem run_spec {acts : List (Act A O)} (h : s.Inv finders released)
    (ht : Run.Meets Timely step s acts) :
    ∃ s', Run.run step s acts = some s' ∧ s.Next finders released s' := by
  induction acts generalizing s finders released with
  | nil => exact ⟨s, rfl, finders, released, h, fun _ hq => hq⟩
  | cons act acts ih =>
    obtain ⟨s1, h1, finders1, released1, hinv1, hpinned1⟩ := step_spec h ht.1
    obtain ⟨s', h', finders', released', hinv', hpinned'⟩ := ih hinv1 (ht.2 s1 h1)
    refine ⟨s', Run.run_cons.mpr ⟨s1, h1, h'⟩, finders', released', hinv', ?_⟩
    exact fun q hq => hpinned' q (hpinned1 q hq)

/-- **The nodes in memory.** In any order of the steps of the socket thread, the message thread and
the threads that connect, if the two writes through a pointer without a reference come within 15
minutes, no step touches a node that was freed: the nodes of `vNodes`, of the disconnected ones and
of the copies are in memory, and each is counted by the threads that have it. A disconnected node
with more references than copies, because `ConnectNode` has found it or because it was disconnected
before it was marked, is never freed. -/
theorem nodes_spec (now : Int) (acts : List (Act A O))
    (ht : Run.Meets Timely step (init now) acts) :
    ∃ s : Nodes A O, Run.run step (init now) acts = some s ∧
      (∀ p, p ∈ s.vNodes ∨ p ∈ s.vNodesDisconnected ∨ (∃ t, p ∈ s.vNodesCopy t) →
        (s.heap p).isSome) ∧
      (∀ p ∈ s.vNodes, p ∉ s.vNodesDisconnected) ∧
      (∀ p pnode, s.heap p = some pnode → s.copies p ≤ pnode.nRefCount) ∧
      ∀ p ∈ s.vNodesDisconnected, ∀ pnode, s.heap p = some pnode → s.copies p < pnode.nRefCount →
        ∀ acts', Run.Meets Timely step s acts' →
          ∃ s', Run.run step s acts' = some s' ∧ (s'.heap p).isSome := by
  obtain ⟨s, hs, finders, released, hinv, -⟩ := run_spec (inv_init now) ht
  refine ⟨s, hs, ?_, hinv.counted.disjoint, ?_, ?_⟩
  · rintro p (hp | hp | ⟨t, hp⟩)
    · exact hinv.counted.live p hp
    · exact hinv.counted.live_disconnected p hp
    · exact hinv.counted.live_copy t p hp
  · intro p pnode hp
    have hcount := hinv.counted.count p pnode hp
    have hbit : (released p).toNat ≤ 1 := Bool.toNat_le _
    omega
  · intro p hp pnode hpnode hlt acts' ht'
    obtain ⟨s', hs', finders', released', hinv', hpinned⟩ := run_spec hinv ht'
    have hp' := hpinned p (pinned_of_copies_lt hinv.counted hp hpnode hlt)
    exact ⟨s', hs', hp'.isSome hinv'.counted⟩

end Runs

namespace NodeSample

/-- A peer connects, a call of ours finds it, and it is disconnected and looked at much later. -/
def acts : List (Act Nat Nat) :=
  [.accept 7 1, .find 0 7, .copy .messageHandler, .use .messageHandler 0 ⟨[], [], true, true⟩,
    .disconnectNodes fun _ => true, .addRef 0, .mark 0, .oneShot 0 false, .drop .messageHandler,
    .tick 1000, .disconnectNodes fun _ => true]

theorem nodes_spec_sample : ∃ s : Nodes Nat Nat, Run.run step (init 0) acts = some s ∧
    ∀ p pnode, s.heap p = some pnode → s.copies p ≤ pnode.nRefCount := by
  obtain ⟨s, hs, -, -, hcount, -⟩ := nodes_spec 0 acts (by decide)
  exact ⟨s, hs, hcount⟩

end NodeSample

end Terracoin.NodeLife.Nodes
