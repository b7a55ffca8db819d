import Terracoin.Net.NodeLifetime

/-!
# References to nodes

The invariant of the steps counts what `nRefCount` stands for: the reference of the creation, those
of the calls of `ConnectNode` that have found the node, and those of the threads that have it in
their copy. The first is given back when the node is disconnected, if it is marked by then. So a node
that is freed has been marked, nobody else has found it and no thread has a copy of it, and who has a
bare pointer to it has had it for 15 minutes.
-/

namespace Terracoin.NodeLife

variable {A O : Type}

namespace Nodes

/-! ## The invariant -/

/-- The threads that have a node in their copy. -/
def copies (s : Nodes A O) (p : Nat) : Nat :=
  (if p ∈ s.vNodesCopy .socketHandler then 1 else 0) +
    if p ∈ s.vNodesCopy .messageHandler then 1 else 0

/-- The references to a node are the one of its creation, those of the calls of `ConnectNode` that
have found it, `finders`, and those of the threads; one was given back if it was `released`. -/
structure Counted (s : Nodes A O) (finders : Nat → Nat) (released : Nat → Bool) : Prop where
  nodup : s.vNodes.Nodup
  nodup_disconnected : s.vNodesDisconnected.Nodup
  nodup_copy : ∀ t, (s.vNodesCopy t).Nodup
  disjoint : ∀ p ∈ s.vNodes, p ∉ s.vNodesDisconnected
  fresh : ∀ p, s.next ≤ p → s.heap p = none ∧ released p = false
  live : ∀ p ∈ s.vNodes, (s.heap p).isSome
  live_disconnected : ∀ p ∈ s.vNodesDisconnected, (s.heap p).isSome
  live_copy : ∀ t, ∀ p ∈ s.vNodesCopy t, (s.heap p).isSome
  live_found : ∀ p, 0 < finders p → (s.heap p).isSome
  unreleased : ∀ p ∈ s.vNodes, released p = false
  count : ∀ p pnode, s.heap p = some pnode →
    pnode.nRefCount = 1 + finders p - (released p).toNat + s.copies p

/-- A pointer of the time `since` that needs no reference: the node is kept for 15 minutes. -/
def Kept (s : Nodes A O) (p : Nat) (since : Int) : Prop :=
  since + 15 * 60 ≤ s.now ∨
    ∃ pnode, s.heap p = some pnode ∧ since + 15 * 60 ≤ pnode.nReleaseTime

/-- The references of the node are never all given back. -/
def Pinned (s : Nodes A O) (finders : Nat → Nat) (released : Nat → Bool) (p : Nat) : Prop :=
  0 < finders p ∨ p ∈ s.vNodesDisconnected ∧ released p = false

/-- A node that its creator has not marked yet. -/
structure Unmarked (s : Nodes A O) (finders : Nat → Nat) (released : Nat → Bool) (p : Nat) :
    Prop where
  released : released p → 0 < finders p
  node : ∃ pnode, s.heap p = some pnode ∧ pnode.fInbound = false ∧
    (pnode.fNetworkNode → 0 < finders p)

/-- What the thread of a connection may rely on. -/
def Safe (s : Nodes A O) (finders : Nat → Nat) (released : Nat → Bool) : Opening → Prop
  | .idle => True
  | .found p since => since ≤ s.now ∧ (p ∈ s.vNodes ∨ s.Kept p since)
  | .added p => 0 < finders p
  | .created p => s.Unmarked finders released p ∧ released p = false ∧ p ∉ s.vNodes ∧
    p ∉ s.vNodesDisconnected
  | .connected p => s.Unmarked finders released p ∧ (p ∈ s.vNodes ∨ p ∈ s.vNodesDisconnected)
  | .marked p since => since ≤ s.now ∧
    (p ∈ s.vNodes ∨ s.Kept p since ∨ s.Pinned finders released p)

/-- The node is new, and the thread has not marked it yet. -/
def Owns (phase : Opening) (p : Nat) : Prop := phase = .created p ∨ phase = .connected p

structure Inv (s : Nodes A O) (finders : Nat → Nat) (released : Nat → Bool) : Prop where
  counted : s.Counted finders released
  safe : ∀ o, s.Safe finders released (s.opening o)
  owner : ∀ o o' p, Owns (s.opening o) p → Owns (s.opening o') p → o = o'

variable {s s' : Nodes A O} {finders finders' : Nat → Nat} {released : Nat → Bool} {p : Nat}
  {o : O} {phase : Opening}

/-- What steps that neither disconnect nor free a node keep. -/
theorem Safe.mono (h : s.Safe finders released phase) (hnow : s.now ≤ s'.now)
    (hfinders : ∀ p, finders p ≤ finders' p) (hvNodes : ∀ p ∈ s.vNodes, p ∈ s'.vNodes)
    (hdisconnected : s'.vNodesDisconnected = s.vNodesDisconnected)
    (hcreated : ∀ p, phase = .created p → p ∉ s.vNodes → p ∉ s'.vNodes)
    (hheap : ∀ p pnode, s.heap p = some pnode → ∃ pnode', s'.heap p = some pnode' ∧
      pnode'.fInbound = pnode.fInbound ∧ pnode.nReleaseTime ≤ pnode'.nReleaseTime ∧
      (Owns phase p → pnode'.fNetworkNode → pnode.fNetworkNode ∨ 0 < finders' p)) :
    s'.Safe finders' released phase := by
  have hkept : ∀ p since, s.Kept p since → s'.Kept p since := by
    intro p since hkept
    rcases hkept with hpast | ⟨pnode, hp, hrelease⟩
    · exact .inl (Int.le_trans hpast hnow)
    · obtain ⟨pnode', hp', -, hle, -⟩ := hheap p pnode hp
      exact .inr ⟨pnode', hp', Int.le_trans hrelease hle⟩
  have hunmarked : ∀ p, Owns phase p → s.Unmarked finders released p →
      s'.Unmarked finders' released p := by
    intro p howns hp
    obtain ⟨pnode, hpnode, hinbound, hnetwork⟩ := hp.node
    obtain ⟨pnode', hpnode', hinbound', -, hnetwork'⟩ := hheap p pnode hpnode
    refine ⟨fun hreleased => Nat.lt_of_lt_of_le (hp.released hreleased) (hfinders p), pnode',
      hpnode', hinbound'.trans hinbound, fun hset => ?_⟩
    rcases hnetwork' howns hset with hset | hfound
    · exact Nat.lt_of_lt_of_le (hnetwork hset) (hfinders p)
    · exact hfound
  cases phase with
  | idle => trivial
  | found p since =>
    refine ⟨Int.le_trans h.1 hnow, ?_⟩
    exact h.2.imp (hvNodes p) (hkept p since)
  | added p => exact Nat.lt_of_lt_of_le h (hfinders p)
  | created p =>
    obtain ⟨hp, hreleased, hout, hdisc⟩ := h
    exact ⟨hunmarked p (.inl rfl) hp, hreleased, hcreated p rfl hout, hdisconnected ▸ hdisc⟩
  | connected p =>
    refine ⟨hunmarked p (.inr rfl) h.1, ?_⟩
    rw [hdisconnected]
    exact h.2.imp_left (hvNodes p)
  | marked p since =>
    refine ⟨Int.le_trans h.1 hnow, h.2.imp (hvNodes p) (Or.imp (hkept p since) ?_)⟩
    rw [Pinned, Pinned, hdisconnected]
    exact Or.imp_left fun hfound => Nat.lt_of_lt_of_le hfound (hfinders p)

/-! ## Steps that write to nodes -/

def mapHeap (s : Nodes A O) (g : Nat → CNode A → CNode A) : Nodes A O :=
  { s with heap := fun q => (s.heap q).map (g q) }

theorem modify_eq (f : CNode A → CNode A) (hp : (s.heap p).isSome) :
    s.modify p f = some (s.mapHeap fun q => if q = p then f else id) := by
  obtain ⟨pnode, hpnode⟩ := Option.isSome_iff_exists.mp hp
  rw [modify, hpnode, Option.map_some, mapHeap]
  congr 2
  funext q
  by_cases hq : q = p
  · rw [hq, Function.update_self, if_pos rfl, hpnode, Option.map_some]
  · rw [Function.update_of_ne hq, if_neg hq, Option.map_id_apply]

theorem modifyAll_eq {ps : List Nat} (f : CNode A → CNode A) (hnodup : ps.Nodup)
    (hps : ∀ p ∈ ps, (s.heap p).isSome) :
    s.modifyAll ps f = some (s.mapHeap fun q => if q ∈ ps then f else id) := by
  induction ps generalizing s with
  | nil =>
    rw [modifyAll, List.foldlM_nil, mapHeap]
    simp
  | cons p ps ih =>
    obtain ⟨hp, hnodup⟩ := List.nodup_cons.mp hnodup
    have hrest := @ih (s.mapHeap fun q => if q = p then f else id) hnodup fun q hq => by
      simpa [mapHeap] using hps q (List.mem_cons_of_mem _ hq)
    rw [modifyAll, List.foldlM_cons, modify_eq f (hps p List.mem_cons_self)]
    refine hrest.trans ?_
    rw [mapHeap, mapHeap, mapHeap]
    congr 2
    funext q
    rw [Option.map_map]
    congr 1
    by_cases hq : q = p
    · subst hq
      rw [if_pos rfl, if_neg hp, if_pos List.mem_cons_self]
      rfl
    · rw [if_neg hq]
      simp [List.mem_cons, hq]

theorem findNode_eq [DecidableEq A] (addr : A) {ps : List Nat}
    (hps : ∀ p ∈ ps, (s.heap p).isSome) :
    ∃ found, findNode s.heap addr ps = some found ∧ ∀ p ∈ found, p ∈ ps := by
  induction ps with
  | nil => exact ⟨none, rfl, fun p hp => by cases hp⟩
  | cons p ps ih =>
    obtain ⟨pnode, hpnode⟩ := Option.isSome_iff_exists.mp (hps p List.mem_cons_self)
    rw [findNode, hpnode, Option.bind_some]
    by_cases haddr : pnode.addr = addr
    · rw [if_pos haddr]
      refine ⟨some p, rfl, fun q hq => ?_⟩
      rw [← Option.some.inj hq]
      exact List.mem_cons_self
    · rw [if_neg haddr]
      obtain ⟨found, hfound, hmem⟩ := ih fun q hq => hps q (List.mem_cons_of_mem _ hq)
      exact ⟨found, hfound, fun q hq => List.mem_cons_of_mem _ (hmem q hq)⟩

/-- Writes that leave everything alone that the invariant reads, up to new references. -/
theorem Inv.mapHeap {g : Nat → CNode A → CNode A} (h : s.Inv finders released)
    (hheap : ∀ p, s'.heap p = (s.heap p).map (g p)) (hnow : s.now ≤ s'.now)
    (hnext : s'.next = s.next) (hvNodes : s'.vNodes = s.vNodes)
    (hdisconnected : s'.vNodesDisconnected = s.vNodesDisconnected)
    (hcopy : ∀ t, s'.vNodesCopy t = s.vNodesCopy t ∨ s'.vNodesCopy t = s.vNodes ∨
      s'.vNodesCopy t = [])
    (hfinders : ∀ p, finders p ≤ finders' p)
    (hfound : ∀ p, finders p < finders' p → (s.heap p).isSome)
    (hfields : ∀ p pnode, (g p pnode).fInbound = pnode.fInbound ∧
      (g p pnode).nReleaseTime = pnode.nReleaseTime)
    (hcount : ∀ p pnode, (g p pnode).nRefCount + s.copies p + finders p =
      pnode.nRefCount + s'.copies p + finders' p)
    (hnetwork : ∀ o p pnode, Owns (s.opening o) p → (g p pnode).fNetworkNode →
      pnode.fNetworkNode ∨ 0 < finders' p) (hopening : s'.opening = s.opening) :
    s'.Inv finders' released := by
  have hlive : ∀ p, (s.heap p).isSome → (s'.heap p).isSome := by
    intro p hp
    rw [hheap, Option.isSome_map]
    exact hp
  refine ⟨?_, ?_, ?_⟩
  · constructor
    · exact hvNodes ▸ h.counted.nodup
    · exact hdisconnected ▸ h.counted.nodup_disconnected
    · intro t
      rcases hcopy t with hsame | hsame | hsame
      · exact hsame ▸ h.counted.nodup_copy t
      · exact hsame ▸ h.counted.nodup
      · exact hsame ▸ List.nodup_nil
    · rw [hvNodes, hdisconnected]
      exact h.counted.disjoint
    · intro p hp
      obtain ⟨hnone, hreleased⟩ := h.counted.fresh p (hnext ▸ hp)
      exact ⟨by rw [hheap, hnone, Option.map_none], hreleased⟩
    · rw [hvNodes]
      exact fun p hp => hlive p (h.counted.live p hp)
    · rw [hdisconnected]
      exact fun p hp => hlive p (h.counted.live_disconnected p hp)
    · intro t p hp
      rcases hcopy t with hsame | hsame | hsame
      · exact hlive p (h.counted.live_copy t p (hsame ▸ hp))
      · exact hlive p (h.counted.live p (hsame ▸ hp))
      · rw [hsame] at hp
        cases hp
    · intro p hp
      by_cases hnew : finders p < finders' p
      · exact hlive p (hfound p hnew)
      · have hle := hfinders p
        exact hlive p (h.counted.live_found p (by omega))
    · rw [hvNodes]
      exact h.counted.unreleased
    · intro p pnode' hp
      rw [hheap] at hp
      obtain ⟨pnode, hpnode, rfl⟩ := Option.map_eq_some_iff.mp hp
      have hold := h.counted.count p pnode hpnode
      have hnew := hcount p pnode
      omega
  · intro o
    rw [hopening]
    refine (h.safe o).mono hnow hfinders (fun p hp => hvNodes ▸ hp) hdisconnected
      (fun p _ hp => hvNodes ▸ hp) fun p pnode hp => ?_
    exact ⟨g p pnode, by rw [hheap, hp, Option.map_some], (hfields p pnode).1,
      Int.le_of_eq (hfields p pnode).2.symm, hnetwork o p pnode⟩
  · rw [hopening]
    exact h.owner

/-! ## Nodes that come -/

@[simp] theorem heap_create (addr : A) (hSocket : Nat) (fInbound : Bool) (vSend : List UInt8) :
    (s.create addr hSocket fInbound vSend).heap = Function.update s.heap s.next
      (some (CNode.addRef { addr, hSocket := some hSocket, fInbound, vSend })) := rfl

theorem Inv.ne_next (h : s.Inv finders released) (hp : (s.heap p).isSome) : p ≠ s.next := by
  intro hpnext
  rw [hpnext, (h.counted.fresh s.next (Nat.le_refl _)).1] at hp
  cases hp

theorem Inv.create (h : s.Inv finders released) (addr : A) (hSocket : Nat) (fInbound : Bool)
    (vSend : List UInt8) : (s.create addr hSocket fInbound vSend).Inv finders released := by
  have hlive : ∀ p, (s.heap p).isSome → ((s.create addr hSocket fInbound vSend).heap p).isSome := by
    intro p hp
    rw [heap_create, Function.update_of_ne (h.ne_next hp)]
    exact hp
  refine ⟨?_, ?_, h.owner⟩
  · constructor
    · exact h.counted.nodup
    · exact h.counted.nodup_disconnected
    · exact h.counted.nodup_copy
    · exact h.counted.disjoint
    · intro p hp
      have hlt : s.next < p := hp
      rw [heap_create, Function.update_of_ne (by omega)]
      exact h.counted.fresh p (by omega)
    · exact fun p hp => hlive p (h.counted.live p hp)
    · exact fun p hp => hlive p (h.counted.live_disconnected p hp)
    · exact fun t p hp => hlive p (h.counted.live_copy t p hp)
    · exact fun p hp => hlive p (h.counted.live_found p hp)
    · exact h.counted.unreleased
    · intro p pnode hp
      rw [heap_create] at hp
      by_cases hpnext : p = s.next
      · -- the reference of the creator is the only one
        subst hpnext
        rw [Function.update_self] at hp
        have hfinders : finders s.next = 0 :=
          Nat.eq_zero_of_not_pos fun hpos => h.ne_next (h.counted.live_found _ hpos) rfl
        have hcopies : (s.create addr hSocket fInbound vSend).copies s.next = 0 := by
          change s.copies s.next = 0
          rw [copies, if_neg fun hmem => h.ne_next (h.counted.live_copy _ _ hmem) rfl,
            if_neg fun hmem => h.ne_next (h.counted.live_copy _ _ hmem) rfl]
        rw [← Option.some.inj hp, (h.counted.fresh s.next (Nat.le_refl _)).2, hfinders, hcopies]
        rfl
      · rw [Function.update_of_ne hpnext] at hp
        exact h.counted.count p pnode hp
  · intro o
    refine (h.safe o).mono (Int.le_refl _) (fun _ => Nat.le_refl _) (fun _ hp => hp) rfl
      (fun _ _ hp => hp) fun p pnode hp => ?_
    have hpne := h.ne_next (Option.isSome_of_eq_some hp)
    exact ⟨pnode, by rw [heap_create, Function.update_of_ne hpne, hp], rfl, Int.le_refl _,
      fun _ => Or.inl⟩

/-- A new node comes into `vNodes` once. -/
theorem Inv.push (h : s.Inv finders released) (hp : (s.heap p).isSome) (hout : p ∉ s.vNodes)
    (hdisc : p ∉ s.vNodesDisconnected) (hreleased : released p = false)
    (hcreated : ∀ o, s.opening o ≠ .created p) : (s.push p).Inv finders released := by
  have hmem : ∀ q, q ∈ (s.push p).vNodes ↔ q ∈ s.vNodes ∨ q = p := by
    intro q
    rw [Nodes.push, List.mem_append, List.mem_singleton]
  refine ⟨?_, ?_, h.owner⟩
  · constructor
    · apply List.Nodup.append h.counted.nodup (List.nodup_singleton p)
      intro q hq hqp
      rw [List.mem_singleton.mp hqp] at hq
      exact hout hq
    · exact h.counted.nodup_disconnected
    · exact h.counted.nodup_copy
    · intro q hq
      rcases (hmem q).mp hq with hq | rfl
      · exact h.counted.disjoint q hq
      · exact hdisc
    · exact h.counted.fresh
    · intro q hq
      rcases (hmem q).mp hq with hq | rfl
      · exact h.counted.live q hq
      · exact hp
    · exact h.counted.live_disconnected
    · exact h.counted.live_copy
    · exact h.counted.live_found
    · intro q hq
      rcases (hmem q).mp hq with hq | rfl
      · exact h.counted.unreleased q hq
      · exact hreleased
    · exact h.counted.count
  · intro o
    refine (h.safe o).mono (Int.le_refl _) (fun _ => Nat.le_refl _)
      (fun q hq => (hmem q).mpr (.inl hq)) rfl ?_ fun q pnode hq =>
        ⟨pnode, hq, rfl, Int.le_refl _, fun _ => Or.inl⟩
    intro q hphase hq hqp
    rcases (hmem q).mp hqp with hq' | rfl
    · exact hq hq'
    · exact hcreated o hphase

section Opening

variable [DecidableEq O]

theorem opening_setOpening_self : (s.setOpening o phase).opening o = phase :=
  Function.update_self ..

theorem opening_setOpening_of_ne {o' : O} (ho' : o' ≠ o) :
    (s.setOpening o phase).opening o' = s.opening o' := Function.update_of_ne ho' _ _

theorem Counted.setOpening (h : s.Counted finders released) (o : O) (phase : Opening) :
    (s.setOpening o phase).Counted finders released where
  nodup := h.nodup
  nodup_disconnected := h.nodup_disconnected
  nodup_copy := h.nodup_copy
  disjoint := h.disjoint
  fresh := h.fresh
  live := h.live
  live_disconnected := h.live_disconnected
  live_copy := h.live_copy
  live_found := h.live_found
  unreleased := h.unreleased
  count := h.count

theorem Safe.setOpening {phase' : Opening} (h : s.Safe finders released phase') (o : O)
    (phase : Opening) : (s.setOpening o phase).Safe finders released phase' :=
  h.mono (Int.le_refl _) (fun _ => Nat.le_refl _) (fun _ hp => hp) rfl (fun _ _ hp => hp)
    fun _ pnode hp => ⟨pnode, hp, rfl, Int.le_refl _, fun _ => Or.inl⟩

/-- A thread that owns a node alone. -/
theorem Inv.own (h : s.Inv finders released) (hphase : Owns phase p)
    (hsafe : s.Safe finders released phase) (hnone : ∀ o', o' ≠ o → ¬Owns (s.opening o') p) :
    (s.setOpening o phase).Inv finders released := by
  have hat : (s.setOpening o phase).opening o = phase := opening_setOpening_self
  have hother : ∀ o', o' ≠ o → (s.setOpening o phase).opening o' = s.opening o' :=
    fun _ => opening_setOpening_of_ne
  have hfirst : ∀ q, Owns phase q → q = p := by
    intro q hq
    rcases hphase with rfl | rfl
    · rcases hq with hq | hq
      · exact (Opening.created.inj hq).symm
      · cases hq
    · rcases hq with hq | hq
      · cases hq
      · exact (Opening.connected.inj hq).symm
  refine ⟨h.counted.setOpening o phase, fun o' => ?_, fun o' o'' q ho' ho'' => ?_⟩
  · by_cases ho' : o' = o
    · rw [ho', hat]
      exact hsafe.setOpening o phase
    · rw [hother o' ho']
      exact (h.safe o').setOpening o phase
  · by_cases h' : o' = o
    · by_cases h'' : o'' = o
      · rw [h', h'']
      · rw [h', hat] at ho'
        rw [hother o'' h'', hfirst q ho'] at ho''
        exact absurd ho'' (hnone o'' h'')
    · rw [hother o' h'] at ho'
      by_cases h'' : o'' = o
      · rw [h'', hat] at ho''
        rw [hfirst q ho''] at ho'
        exact absurd ho' (hnone o' h')
      · rw [hother o'' h''] at ho''
        exact h.owner o' o'' q ho' ho''

/-- A thread that owns no node, or gives up the one that it owns. -/
theorem Inv.setOpening (h : s.Inv finders released) (hnot : ∀ p, ¬Owns phase p)
    (hsafe : s.Safe finders released phase) : (s.setOpening o phase).Inv finders released := by
  have hat : (s.setOpening o phase).opening o = phase := opening_setOpening_self
  have hother : ∀ o', o' ≠ o → (s.setOpening o phase).opening o' = s.opening o' :=
    fun _ => opening_setOpening_of_ne
  have hne : ∀ o' p, Owns ((s.setOpening o phase).opening o') p → o' ≠ o := by
    rintro o' p ho' rfl
    rw [hat] at ho'
    exact hnot p ho'
  refine ⟨h.counted.setOpening o phase, fun o' => ?_, fun o' o'' p ho' ho'' => ?_⟩
  · by_cases ho' : o' = o
    · rw [ho', hat]
      exact hsafe.setOpening o phase
    · rw [hother o' ho']
      exact (h.safe o').setOpening o phase
  · rw [hother o' (hne o' p ho')] at ho'
    rw [hother o'' (hne o'' p ho'')] at ho''
    exact h.owner o' o'' p ho' ho''

end Opening

/-! ## Nodes that go -/

@[simp] theorem CNode.nRefCount_disconnect (now : Int) (pnode : CNode A) :
    (pnode.disconnect now).nRefCount =
      pnode.nRefCount - (pnode.fNetworkNode || pnode.fInbound).toNat := by
  unfold CNode.disconnect
  cases h : pnode.fNetworkNode || pnode.fInbound
  · simp [CNode.closeSocketDisconnect, h]
  · simp [CNode.closeSocketDisconnect, CNode.release, h]

@[simp] theorem CNode.nReleaseTime_disconnect (now : Int) (pnode : CNode A) :
    (pnode.disconnect now).nReleaseTime = max pnode.nReleaseTime (now + 15 * 60) := by
  unfold CNode.disconnect
  dsimp only
  split
  · rfl
  · rfl

@[simp] theorem CNode.fInbound_disconnect (now : Int) (pnode : CNode A) :
    (pnode.disconnect now).fInbound = pnode.fInbound := by
  unfold CNode.disconnect
  dsimp only
  split
  · rfl
  · rfl

@[simp] theorem CNode.fNetworkNode_disconnect (now : Int) (pnode : CNode A) :
    (pnode.disconnect now).fNetworkNode = pnode.fNetworkNode := by
  unfold CNode.disconnect
  dsimp only
  split
  · rfl
  · rfl

/-- The node `p` as it is moved to the disconnected ones. -/
def disconnected (s : Nodes A O) (p : Nat) (pnode : CNode A) : Nodes A O :=
  { s with
    heap := Function.update s.heap p (some (pnode.disconnect s.now))
    vNodes := s.vNodes.filter (· ≠ p)
    vNodesDisconnected := s.vNodesDisconnected ++ [p] }

section Disconnect

variable {pnode : CNode A} {q : Nat} {since : Int}

/-- Whether the reference of its creation is given back. -/
def releasedNow (released : Nat → Bool) (p : Nat) (pnode : CNode A) : Nat → Bool :=
  Function.update released p (pnode.fNetworkNode || pnode.fInbound)

theorem heap_disconnected_self :
    (s.disconnected p pnode).heap p = some (pnode.disconnect s.now) := Function.update_self ..

theorem heap_disconnected_of_ne (hq : q ≠ p) : (s.disconnected p pnode).heap q = s.heap q :=
  Function.update_of_ne hq _ _

theorem isSome_heap_disconnected (hq : (s.heap q).isSome) :
    ((s.disconnected p pnode).heap q).isSome := by
  by_cases hqp : q = p
  · rw [hqp, heap_disconnected_self]
    rfl
  · rw [heap_disconnected_of_ne hqp]
    exact hq

theorem mem_vNodes_disconnected :
    q ∈ (s.disconnected p pnode).vNodes ↔ q ∈ s.vNodes ∧ q ≠ p := by
  rw [disconnected, List.mem_filter, decide_eq_true_iff]

theorem mem_vNodesDisconnected_disconnected :
    q ∈ (s.disconnected p pnode).vNodesDisconnected ↔ q ∈ s.vNodesDisconnected ∨ q = p := by
  rw [disconnected, List.mem_append, List.mem_singleton]

theorem Kept.disconnected (hpnode : s.heap p = some pnode) (h : s.Kept q since) :
    (s.disconnected p pnode).Kept q since := by
  refine h.imp id ?_
  rintro ⟨qnode, hqnode, hrelease⟩
  by_cases hqp : q = p
  · subst hqp
    obtain rfl := Option.some.inj (hpnode.symm.trans hqnode)
    refine ⟨_, heap_disconnected_self, ?_⟩
    rw [CNode.nReleaseTime_disconnect]
    omega
  · exact ⟨qnode, by rw [heap_disconnected_of_ne hqp, hqnode], hrelease⟩

theorem kept_disconnected (hsince : since ≤ s.now) (hq : q ∈ s.vNodes) :
    q ∈ (s.disconnected p pnode).vNodes ∨ (s.disconnected p pnode).Kept q since := by
  by_cases hqp : q = p
  · subst hqp
    refine .inr (.inr ⟨_, heap_disconnected_self, ?_⟩)
    rw [CNode.nReleaseTime_disconnect]
    omega
  · exact .inl (mem_vNodes_disconnected.mpr ⟨hq, hqp⟩)

theorem Unmarked.disconnected (hpnode : s.heap p = some pnode)
    (h : s.Unmarked finders released q) :
    (s.disconnected p pnode).Unmarked finders (releasedNow released p pnode) q := by
  obtain ⟨hreleased, qnode, hqnode, hinbound, hnetwork⟩ := h
  by_cases hqp : q = p
  · subst hqp
    obtain rfl := Option.some.inj (hpnode.symm.trans hqnode)
    refine ⟨?_, _, heap_disconnected_self, ?_, ?_⟩
    · rw [releasedNow, Function.update_self, hinbound, Bool.or_false]
      exact hnetwork
    · rw [CNode.fInbound_disconnect, hinbound]
    · rw [CNode.fNetworkNode_disconnect]
      exact hnetwork
  · refine ⟨?_, qnode, ?_, hinbound, hnetwork⟩
    · rw [releasedNow, Function.update_of_ne hqp]
      exact hreleased
    · rw [heap_disconnected_of_ne hqp, hqnode]

theorem Pinned.disconnected (h : s.Counted finders released) (hp : p ∈ s.vNodes)
    (hq : s.Pinned finders released q) :
    (s.disconnected p pnode).Pinned finders (releasedNow released p pnode) q := by
  refine hq.imp_right ?_
  rintro ⟨hqdisc, hreleased⟩
  have hqp : q ≠ p := fun hqp => h.disjoint p hp (hqp ▸ hqdisc)
  refine ⟨mem_vNodesDisconnected_disconnected.mpr (.inl hqdisc), ?_⟩
  rw [releasedNow, Function.update_of_ne hqp]
  exact hreleased

theorem Counted.disconnected (h : s.Counted finders released) (hp : p ∈ s.vNodes)
    (hpnode : s.heap p = some pnode) :
    (s.disconnected p pnode).Counted finders (releasedNow released p pnode) where
  nodup := h.nodup.filter _
  nodup_disconnected := by
    apply List.Nodup.append h.nodup_disconnected (List.nodup_singleton p)
    intro q hq hqp
    rw [List.mem_singleton.mp hqp] at hq
    exact h.disjoint p hp hq
  nodup_copy := h.nodup_copy
  disjoint q hq hq' := by
    obtain ⟨hq, hqp⟩ := mem_vNodes_disconnected.mp hq
    rcases mem_vNodesDisconnected_disconnected.mp hq' with hq' | hq'
    · exact h.disjoint q hq hq'
    · exact hqp hq'
  fresh q hq := by
    have hqp : q ≠ p := by
      rintro rfl
      rw [(h.fresh q hq).1] at hpnode
      cases hpnode
    rw [heap_disconnected_of_ne hqp, releasedNow, Function.update_of_ne hqp]
    exact h.fresh q hq
  live q hq := isSome_heap_disconnected (h.live q (mem_vNodes_disconnected.mp hq).1)
  live_disconnected q hq := by
    apply isSome_heap_disconnected
    rcases mem_vNodesDisconnected_disconnected.mp hq with hq | rfl
    · exact h.live_disconnected q hq
    · exact h.live q hp
  live_copy t q hq := isSome_heap_disconnected (h.live_copy t q hq)
  live_found q hq := isSome_heap_disconnected (h.live_found q hq)
  unreleased q hq := by
    obtain ⟨hq, hqp⟩ := mem_vNodes_disconnected.mp hq
    rw [releasedNow, Function.update_of_ne hqp]
    exact h.unreleased q hq
  count q qnode hq := by
    change qnode.nRefCount = 1 + finders q - _ + s.copies q
    by_cases hqp : q = p
    · subst hqp
      rw [heap_disconnected_self] at hq
      have hcount := h.count q pnode hpnode
      rw [h.unreleased q hp, Bool.toNat_false] at hcount
      rw [← Option.some.inj hq, CNode.nRefCount_disconnect, releasedNow, Function.update_self,
        hcount]
      omega
    · rw [heap_disconnected_of_ne hqp] at hq
      rw [releasedNow, Function.update_of_ne hqp]
      exact h.count q qnode hq

theorem Safe.disconnected (h : s.Counted finders released) (hp : p ∈ s.vNodes)
    (hpnode : s.heap p = some pnode) (hsafe : s.Safe finders released phase) :
    (s.disconnected p pnode).Safe finders (releasedNow released p pnode) phase := by
  cases phase with
  | idle => trivial
  | found q since =>
    refine ⟨hsafe.1, ?_⟩
    rcases hsafe.2 with hq | hq
    · exact kept_disconnected hsafe.1 hq
    · exact .inr (hq.disconnected hpnode)
  | added q => exact hsafe
  | created q =>
    obtain ⟨hq, hreleased, hout, hqdisc⟩ := hsafe
    have hqp : q ≠ p := fun hqp => hout (hqp ▸ hp)
    refine ⟨hq.disconnected hpnode, ?_, fun hmem => hout (mem_vNodes_disconnected.mp hmem).1,
      fun hmem => (mem_vNodesDisconnected_disconnected.mp hmem).elim hqdisc hqp⟩
    rw [releasedNow, Function.update_of_ne hqp]
    exact hreleased
  | connected q =>
    refine ⟨hsafe.1.disconnected hpnode, ?_⟩
    rw [mem_vNodes_disconnected, mem_vNodesDisconnected_disconnected]
    by_cases hqp : q = p
    · exact .inr (.inr hqp)
    · exact hsafe.2.imp (fun hq => ⟨hq, hqp⟩) .inl
  | marked q since =>
    refine ⟨hsafe.1, ?_⟩
    rcases hsafe.2 with hq | hq | hq
    · exact (kept_disconnected hsafe.1 hq).imp_right .inl
    · exact .inr (.inl (hq.disconnected hpnode))
    · exact .inr (.inr (hq.disconnected h hp))

end Disconnect

/-- The state without the node `p`. -/
def deleted (s : Nodes A O) (p : Nat) : Nodes A O :=
  { s with
    heap := Function.update s.heap p none
    vNodesDisconnected := s.vNodesDisconnected.filter (· ≠ p) }

section Delete

variable {pnode : CNode A} {q : Nat} {since : Int}

theorem heap_deleted_self : (s.deleted p).heap p = none := Function.update_self ..

theorem heap_deleted_of_ne (hq : q ≠ p) : (s.deleted p).heap q = s.heap q :=
  Function.update_of_ne hq _ _

theorem mem_vNodesDisconnected_deleted :
    q ∈ (s.deleted p).vNodesDisconnected ↔ q ∈ s.vNodesDisconnected ∧ q ≠ p := by
  rw [deleted, List.mem_filter, decide_eq_true_iff]

/-- Nobody needs a node without references. -/
structure Needless (s : Nodes A O) (finders : Nat → Nat) (released : Nat → Bool) (p : Nat) :
    Prop where
  disconnected : p ∈ s.vNodesDisconnected
  past : ∀ pnode, s.heap p = some pnode → pnode.nReleaseTime ≤ s.now
  unfound : finders p = 0
  released : released p = true
  uncopied : ∀ t, p ∉ s.vNodesCopy t

theorem needless_of_getRefCount (h : s.Counted finders released) (hp : p ∈ s.vNodesDisconnected)
    (hpnode : s.heap p = some pnode) (hcount : pnode.getRefCount s.now ≤ 0) :
    s.Needless finders released p := by
  have hrefs := h.count p pnode hpnode
  rw [CNode.getRefCount] at hcount
  have hpast : pnode.nReleaseTime ≤ s.now := by
    by_contra hbefore
    rw [if_pos (by omega)] at hcount
    omega
  rw [if_neg (by omega)] at hcount
  have hbit : (released p).toNat ≤ 1 := Bool.toNat_le _
  have hcopies : s.copies p = 0 := by omega
  refine ⟨hp, fun qnode hq => ?_, by omega, ?_, fun t hmem => ?_⟩
  · rwa [← Option.some.inj (hpnode.symm.trans hq)]
  · by_contra hnot
    rw [Bool.eq_false_iff.mpr hnot, Bool.toNat_false] at hrefs
    omega
  · rw [copies] at hcopies
    cases t with
    | socketHandler => rw [if_pos hmem] at hcopies; omega
    | messageHandler => rw [if_pos hmem] at hcopies; omega

theorem Counted.deleted (h : s.Counted finders released) (hp : s.Needless finders released p) :
    (s.deleted p).Counted finders released := by
  have hlive : ∀ q, q ≠ p → (s.heap q).isSome → ((s.deleted p).heap q).isSome := by
    intro q hqp hq
    rw [heap_deleted_of_ne hqp]
    exact hq
  constructor
  · exact h.nodup
  · exact h.nodup_disconnected.filter _
  · exact h.nodup_copy
  · exact fun q hq hq' => h.disjoint q hq (mem_vNodesDisconnected_deleted.mp hq').1
  · intro q hq
    refine ⟨?_, (h.fresh q hq).2⟩
    by_cases hqp : q = p
    · rw [hqp]
      exact heap_deleted_self
    · rw [heap_deleted_of_ne hqp]
      exact (h.fresh q hq).1
  · intro q hq
    exact hlive q (fun hqp => h.disjoint q hq (hqp ▸ hp.disconnected)) (h.live q hq)
  · intro q hq
    obtain ⟨hq, hqp⟩ := mem_vNodesDisconnected_deleted.mp hq
    exact hlive q hqp (h.live_disconnected q hq)
  · exact fun t q hq => hlive q (fun hqp => hp.uncopied t (hqp ▸ hq)) (h.live_copy t q hq)
  · intro q hq
    refine hlive q (fun hqp => ?_) (h.live_found q hq)
    rw [hqp, hp.unfound] at hq
    omega
  · exact h.unreleased
  · intro q qnode hq
    have hqp : q ≠ p := by
      rintro rfl
      rw [heap_deleted_self] at hq
      cases hq
    rw [heap_deleted_of_ne hqp] at hq
    exact h.count q qnode hq

theorem Kept.deleted (hp : s.Needless finders released p) (h : s.Kept q since) :
    (s.deleted p).Kept q since := by
  rcases h with hpast | ⟨qnode, hq, hrelease⟩
  · exact .inl hpast
  · by_cases hqp : q = p
    · subst hqp
      exact .inl (Int.le_trans hrelease (hp.past qnode hq))
    · exact .inr ⟨qnode, by rw [heap_deleted_of_ne hqp, hq], hrelease⟩

theorem Pinned.ne (hp : s.Needless finders released p) (hq : s.Pinned finders released q) :
    q ≠ p := by
  rintro rfl
  rcases hq with hfound | ⟨-, hreleased⟩
  · exact absurd hp.unfound (Nat.ne_of_gt hfound)
  · rw [hp.released] at hreleased
    cases hreleased

theorem Pinned.deleted (hp : s.Needless finders released p) (hq : s.Pinned finders released q) :
    (s.deleted p).Pinned finders released q :=
  hq.imp_right fun hq' => ⟨mem_vNodesDisconnected_deleted.mpr ⟨hq'.1, hq.ne hp⟩, hq'.2⟩

theorem Unmarked.deleted (hp : s.Needless finders released p) (h : s.Unmarked finders released q) :
    q ≠ p ∧ (s.deleted p).Unmarked finders released q := by
  have hqp : q ≠ p := by
    rintro rfl
    exact absurd hp.unfound (Nat.ne_of_gt (h.released hp.released))
  obtain ⟨hreleased, qnode, hqnode, hfields⟩ := h
  exact ⟨hqp, hreleased, qnode, by rw [heap_deleted_of_ne hqp, hqnode], hfields⟩

theorem Safe.deleted (hp : s.Needless finders released p) (hsafe : s.Safe finders released phase) :
    (s.deleted p).Safe finders released phase := by
  cases phase with
  | idle => trivial
  | found q since => exact ⟨hsafe.1, hsafe.2.imp_right (Kept.deleted hp)⟩
  | added q => exact hsafe
  | created q =>
    obtain ⟨hq, hreleased, hout, hqdisc⟩ := hsafe
    exact ⟨(hq.deleted hp).2, hreleased, hout,
      fun hmem => hqdisc (mem_vNodesDisconnected_deleted.mp hmem).1⟩
  | connected q =>
    obtain ⟨hqp, hq⟩ := hsafe.1.deleted hp
    exact ⟨hq, hsafe.2.imp_right fun hmem => mem_vNodesDisconnected_deleted.mpr ⟨hmem, hqp⟩⟩
  | marked q since =>
    exact ⟨hsafe.1, hsafe.2.imp_right (Or.imp (Kept.deleted hp) (Pinned.deleted hp))⟩

end Delete

end Nodes

end Terracoin.NodeLife
