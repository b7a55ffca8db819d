import Terracoin.Mining.Selection

/-!
# The template works off the pool

The rounds of the second loop of `CreateNewBlock` as steps of the agenda of `MinerInput.plan`. The
selected transactions connect one after the other (`Assembled`), every one of them comes after those
it waits for, and in the end whatever could have been selected was selected or refused in a round
of the loop (`selects_of_selectTransactions`).
-/

namespace Terracoin

open Checked

section

variable [Hashing] [ScriptEngine] [PriorityArithmetic] [HeapAlgorithms] {input : MinerInput}
  {clock : MinerClock} {limits : BlockLimits} {hashes : List uint256} {g : Gathered} {st st' : Assembly}
  {entry : TxPriority} {tx : CTransaction}

/-! ## What has been selected -/

/-- The variables of the loop are about the selected transactions, which are within the limits. -/
structure Assembly.Assembled (input : MinerInput) (limits : BlockLimits) (st : Assembly) : Prop where
  admitted : AdmittedAll (input.pindexPrev.nHeight + 1) input.coinsTip 100 st.vtx st.view st.vTxFees
    st.vTxSigOps
  nFees : st.nFees = st.vTxFees.sum
  nBlockSize : st.nBlockSize = 1000 + (st.vtx.map CTransaction.getSerializeSize).sum
  nBlockTx : st.nBlockTx = st.vtx.length
  nBlockSigOps : st.nBlockSigOps = 100 + st.vTxSigOps.sum
  size_lt : st.vtx ≠ [] → st.nBlockSize < limits.nBlockMaxSize
  sigOps_lt : st.nBlockSigOps < maxBlockSigOps

theorem Assembly.Assembled.start (st : Gathered) :
    (Assembly.start input limits st).Assembled input limits where
  admitted := .nil
  nFees := rfl
  nBlockSize := rfl
  nBlockTx := rfl
  nBlockSigOps := rfl
  size_lt h := absurd rfl h
  sigOps_lt := (by decide : 100 < maxBlockSigOps)

omit [HeapAlgorithms] in
/-- One more transaction. -/
theorem Assembly.Assembled.adds (h : st.Assembled input limits)
    (hadds : st.Adds input limits entry tx st') (hcb : tx.isCoinBase = false) :
    st'.Assembled input limits := by
  obtain ⟨nTxFees, nTxSigOps, hadmitted, hfees, hsigops, hnSigOps, hnFees, hrange⟩ := hadds.admitted
  have hwithin := hadds.within
  simp only [withinLimits, Bool.and_eq_true, decide_eq_true_eq] at hwithin
  refine ⟨?_, ?_, ?_, ?_, ?_, fun _ => ?_, ?_⟩
  · rw [hadds.vtx, hfees, hsigops]
    rw [hnFees, h.nFees] at hrange
    exact .concat h.admitted (h.nBlockSigOps ▸ hadmitted) hcb hrange
  · rw [hnFees, hfees, h.nFees]
    simp
  · rw [hadds.nBlockSize, hadds.vtx, h.nBlockSize]
    simp [Nat.add_assoc]
  · rw [hadds.nBlockTx, hadds.vtx, h.nBlockTx]
    simp
  · rw [hnSigOps, hsigops, h.nBlockSigOps]
    simp [Nat.add_assoc]
  · rw [hadds.nBlockSize]
    exact hwithin.1.1
  · rw [hnSigOps]
    exact hadmitted.sigOps_lt

omit [HeapAlgorithms] in
theorem Assembly.Assembled.congr (h : st.Assembled input limits) {fSortedByFee : Bool}
    {vOrphan : uint256 → Option COrphan} {vecPriority : List TxPriority}
    (heq : st' = { st with
      fSortedByFee := fSortedByFee, vOrphan := vOrphan, vecPriority := vecPriority }) :
    st'.Assembled input limits := by
  subst heq
  exact ⟨h.admitted, h.nFees, h.nBlockSize, h.nBlockTx, h.nBlockSigOps, h.size_lt, h.sigOps_lt⟩

/-! ## The agenda -/

/-- The prerequisites that a transaction still waits for. -/
def Assembly.pending (st : Assembly) (hash : uint256) : Finset uint256 :=
  (st.vOrphan hash).elim ∅ COrphan.setDependsOn

/-- The state of the agenda, with the transactions that were left. -/
def Assembly.agenda (st : Assembly) (dropped : List uint256) : Agenda.State uint256 where
  ready := st.vecPriority.map TxPriority.ptx
  pending := st.pending
  done := st.vtx.map CTransaction.getHash
  dropped := dropped

/-- The loop is at the head of a round. -/
inductive Assembly.Reached (input : MinerInput) (limits : BlockLimits) (g : Gathered) :
    Assembly → Prop
  | start : Reached input limits g (.start input limits g)
  | round {st st' : Assembly} {entry : TxPriority} {rest : List TxPriority}
      (h : Reached input limits g st) (queue : st.vecPriority = entry :: rest)
      (step : selectEntry input limits g.mapDependers { st with
        vecPriority := HeapAlgorithms.popHeap (txPriorityCompare st.fSortedByFee) entry rest }
        entry = .ok st') :
      Reached input limits g st'

/-- The transaction was refused in the round in which it came off the heap, with its own priority and
fee per kilobyte and after some of the transactions of the block: a limit was reached, it paid too
little for a block that is large enough, or the coins did not allow it. -/
def Assembly.Refused (input : MinerInput) (clock : MinerClock) (limits : BlockLimits)
    (hashes : List uint256) (vtx : List CTransaction) (hash : uint256) : Prop :=
  ∃ g before rest tx, gather input clock hashes = .ok g ∧ Assembly.Reached input limits g before ∧
    input.pool.mapTx hash = some tx ∧ before.vecPriority = input.priorityOf hash tx :: rest ∧
    before.vtx <+: vtx ∧ (withinLimits limits before (input.priorityOf hash tx) tx = false ∨
      admitTx (input.pindexPrev.nHeight + 1) before.view before.nBlockSigOps tx = .ok none)

/-- The entries on the heap, and those of the transactions that wait, have the values of their
transactions. -/
structure Assembly.Priced (input : MinerInput) (st : Assembly) : Prop where
  entries : ∀ entry ∈ st.vecPriority, input.Prices entry
  orphans : ∀ h orphan, st.vOrphan h = some orphan → input.Prices orphan.entry

/-- What holds between the rounds. -/
structure Assembly.Working (input : MinerInput) (clock : MinerClock) (limits : BlockLimits)
    {hashes : List uint256} (hnodup : hashes.Nodup) (g : Gathered) (dropped : List uint256)
    (st : Assembly) : Prop where
  gathered : gather input clock hashes = .ok g
  reached : st.Reached input limits g
  assembled : st.Assembled input limits
  priced : st.Priced input
  agenda : Agenda.Inv (input.plan clock hashes hnodup) (st.agenda dropped)
  listed : ∀ h ∈ (input.plan clock hashes hnodup).jobs, input.dependsOn h ≠ ∅ →
    ∃ orphan, st.vOrphan h = some orphan ∧ orphan.ptx = h
  unlisted : ∀ h, (h ∈ (input.plan clock hashes hnodup).jobs → input.dependsOn h = ∅) →
    st.vOrphan h = none
  refused : ∀ hash ∈ dropped, Assembly.Refused input clock limits hashes st.vtx hash
  fromPool : ∀ tx ∈ st.vtx, input.pool.mapTx tx.getHash = some tx

namespace Assembly.Priced

omit [ScriptEngine] [Hashing] in
theorem start (hg : Gathered.After input clock hashes g) :
    (Assembly.start input limits g).Priced input where
  entries entry hmem := hg.entries entry ((HeapAlgorithms.makeHeap_perm _ _).mem_iff.mp hmem)
  orphans := hg.orphans

omit [Hashing] [ScriptEngine] [HeapAlgorithms] in
theorem congr (h : st.Priced input) (hqueue : st'.vecPriority.Perm st.vecPriority)
    (horphan : st'.vOrphan = st.vOrphan) : st'.Priced input where
  entries entry hmem := h.entries entry (hqueue.mem_iff.mp hmem)
  orphans := horphan ▸ h.orphans

omit [Hashing] [ScriptEngine] in
/-- A transaction that waits for less keeps its values, on the heap as well. -/
theorem releaseOrphan {hash porphan : uint256} (h : st.Priced input)
    (hstep : releaseOrphan hash st porphan = .ok st') : st'.Priced input := by
  simp only [Terracoin.releaseOrphan, bind_ok, get_ok] at hstep
  obtain ⟨orphan, ho, hstep⟩ := hstep
  have hentry : input.Prices orphan.entry := h.orphans porphan orphan ho
  have horphans : ∀ h' orphan', Function.update st.vOrphan porphan
      (some { orphan with setDependsOn := orphan.setDependsOn.erase hash }) h' = some orphan' →
      input.Prices orphan'.entry := by
    intro h' orphan' ho'
    by_cases heq : h' = porphan
    · rw [heq, Function.update_self] at ho'
      exact Option.some.inj ho' ▸ hentry
    · rw [Function.update_of_ne heq] at ho'
      exact h.orphans h' orphan' ho'
  split at hstep
  · exact Except.ok.inj hstep ▸ h
  · split at hstep
    · refine Except.ok.inj hstep ▸ ⟨fun entry hmem => ?_, horphans⟩
      rcases List.mem_append.mp ((HeapAlgorithms.pushHeap_perm _ _).mem_iff.mp hmem) with hmem | hmem
      · exact h.entries entry hmem
      · exact List.mem_singleton.mp hmem ▸ hentry
    · exact Except.ok.inj hstep ▸ ⟨h.entries, horphans⟩

omit [Hashing] [ScriptEngine] in
theorem releaseOrphans {hash : uint256} {porphans : List uint256} (h : st.Priced input)
    (hrun : porphans.foldlM (Terracoin.releaseOrphan hash) st = .ok st') : st'.Priced input :=
  foldlM_invariant (fun _ _ _ hpriced hstep => hpriced.releaseOrphan hstep) h hrun

end Assembly.Priced

namespace Assembly.Working

variable {hnodup : hashes.Nodup} {dropped : List uint256}

omit [ScriptEngine] in
theorem start_agenda (hg : Gathered.After input clock hashes g) :
    (input.plan clock hashes hnodup).Start ((Assembly.start input limits g).agenda []) where
  ready := by
    refine (List.Perm.map _ (HeapAlgorithms.makeHeap_perm _ _)).trans ?_
    rw [hg.ready, MinerInput.plan, List.filter_filter]
    refine List.Perm.of_eq (List.filter_congr fun h _ => ?_)
    rw [Bool.and_comm]
  pending h hmem := by
    rw [MinerInput.mem_jobs] at hmem
    show (g.vOrphan h).elim ∅ COrphan.setDependsOn = input.dependsOn h
    by_cases he : input.dependsOn h = ∅
    · rw [hg.unlisted h fun _ _ => he, he]
      rfl
    · obtain ⟨orphan, ho, -, hset⟩ := hg.listed h hmem.1 hmem.2 he
      rw [ho]
      exact hset
  done := rfl
  dropped := rfl

theorem start (hgather : gather input clock hashes = .ok g) :
    (Assembly.start input limits g).Working input clock limits hnodup g [] where
  gathered := hgather
  reached := .start
  assembled := .start g
  priced := .start (gather_spec hnodup hgather)
  agenda := Agenda.Inv.start (start_agenda (gather_spec hnodup hgather))
  listed h hmem hne := by
    rw [MinerInput.mem_jobs] at hmem
    obtain ⟨orphan, ho, hptx, -⟩ := (gather_spec hnodup hgather).listed h hmem.1 hmem.2 hne
    exact ⟨orphan, ho, hptx⟩
  unlisted h hall := (gather_spec hnodup hgather).unlisted h fun hmem htakes =>
    hall ((MinerInput.mem_jobs hnodup).mpr ⟨hmem, htakes⟩)
  refused _ h := absurd h List.not_mem_nil
  fromPool _ h := absurd h List.not_mem_nil

theorem after (h : st.Working input clock limits hnodup g dropped) :
    Gathered.After input clock hashes g := gather_spec hnodup h.gathered

theorem takesPart {rest : List TxPriority} (h : st.Working input clock limits hnodup g dropped)
    (hqueue : st.vecPriority = entry :: rest) : input.takesPart clock entry.ptx = true := by
  have hready : entry.ptx ∈ (st.agenda dropped).ready := by
    show entry.ptx ∈ st.vecPriority.map TxPriority.ptx
    rw [hqueue]
    exact List.mem_cons_self
  exact ((MinerInput.mem_jobs hnodup).mp (h.agenda.mem_iff.mp (.inl hready)).1).2

theorem not_done {rest : List TxPriority} (h : st.Working input clock limits hnodup g dropped)
    (hqueue : st.vecPriority = entry :: rest) : entry.ptx ∉ (st.agenda dropped).done := by
  refine (h.agenda.not_taken ?_).1
  show entry.ptx ∈ st.vecPriority.map TxPriority.ptx
  rw [hqueue]
  exact List.mem_cons_self

theorem refused_mono {vtx vtx' : List CTransaction} {hash : uint256} (hsub : vtx <+: vtx')
    (h : Assembly.Refused input clock limits hashes vtx hash) :
    Assembly.Refused input clock limits hashes vtx' hash := by
  obtain ⟨g, before, rest, tx, hgather, hreached, hptx, hqueue, hprefix, hrefused⟩ := h
  exact ⟨g, before, rest, tx, hgather, hreached, hptx, hqueue, hprefix.trans hsub, hrefused⟩

omit [Hashing] [ScriptEngine] in
theorem perm_popHeap (comp : TxPriority → TxPriority → Bool) {rest : List TxPriority}
    (hqueue : st.vecPriority = entry :: rest) : (st.vecPriority.map TxPriority.ptx).Perm
      (entry.ptx :: (HeapAlgorithms.popHeap comp entry rest).map TxPriority.ptx) := by
  rw [hqueue, List.map_cons]
  exact ((HeapAlgorithms.popHeap_perm comp entry rest).map _).symm.cons _

theorem popped {rest : List TxPriority} (h : st.Working input clock limits hnodup g dropped)
    (hqueue : st.vecPriority = entry :: rest) (comp : TxPriority → TxPriority → Bool) :
    Assembly.Priced input { st with vecPriority := HeapAlgorithms.popHeap comp entry rest } where
  entries entry' hmem := h.priced.entries entry' (hqueue ▸
    List.mem_cons_of_mem _ ((HeapAlgorithms.popHeap_perm comp entry rest).mem_iff.mp hmem))
  orphans := h.priced.orphans

/-- A round that leaves the transaction. -/
theorem leaves {rest : List TxPriority} (h : st.Working input clock limits hnodup g dropped)
    (hqueue : st.vecPriority = entry :: rest) (hreached : st'.Reached input limits g)
    (hleaves : Assembly.Leaves input limits { st with
      vecPriority := HeapAlgorithms.popHeap (txPriorityCompare st.fSortedByFee) entry rest }
      entry st') :
    st'.Working input clock limits hnodup g (dropped ++ [entry.ptx]) := by
  have horphan : st'.vOrphan = st.vOrphan := by rw [hleaves.frame]
  have hvtx : st'.vtx = st.vtx := by rw [hleaves.frame]
  refine ⟨h.gathered, hreached, ?_, (h.popped hqueue _).congr hleaves.queue horphan,
    h.agenda.drops ⟨?_, fun j _ => ?_, ?_, rfl⟩, ?_, ?_, ?_, hvtx ▸ h.fromPool⟩
  · exact h.assembled.congr hleaves.frame
  · exact (perm_popHeap _ hqueue).trans ((hleaves.queue.map _).symm.cons _)
  · show st'.pending j = st.pending j
    rw [Assembly.pending, horphan]
    rfl
  · show st'.vtx.map _ = st.vtx.map _
    rw [hvtx]
  · rw [horphan]
    exact h.listed
  · rw [horphan]
    exact h.unlisted
  · intro hash hmem
    rw [hvtx]
    rcases List.mem_append.mp hmem with hmem | hmem
    · exact h.refused hash hmem
    · obtain ⟨tx, hptx, hrefused⟩ := hleaves.refused
      obtain ⟨tx', hptx', hentry⟩ := h.priced.entries entry (hqueue ▸ List.mem_cons_self)
      obtain rfl := Option.some.inj (hptx.symm.trans hptx')
      rw [List.mem_singleton.mp hmem]
      rw [hentry] at hrefused hqueue
      exact ⟨g, st, rest, tx, h.gathered, h.reached, hptx, hqueue, List.prefix_rfl, hrefused⟩

section Release

variable {st1 : Assembly} {hash : uint256}

theorem mem_pending (h : st.Working input clock limits hnodup g dropped)
    (hnotdone : hash ∉ (st.agenda dropped).done) {j : uint256}
    (hj : j ∈ (input.plan clock hashes hnodup).jobs) :
    hash ∈ st.pending j ↔ j ∈ g.mapDependers hash := by
  have hpending : st.pending j = input.dependsOn j \ (st.agenda dropped).done.toFinset :=
    h.agenda.pending j hj
  have hmem := (MinerInput.mem_jobs hnodup).mp hj
  rw [hpending, Finset.mem_sdiff, List.mem_toFinset, and_iff_left hnotdone]
  exact ⟨h.after.depends j hmem.1 hmem.2 hash, fun hd => (h.after.dependers hash j hd).2⟩

theorem released_pending (h : st.Working input clock limits hnodup g dropped)
    (hnotdone : hash ∉ (st.agenda dropped).done) (horphan : st1.vOrphan = st.vOrphan)
    (hreleased : Assembly.Released hash st1 (g.mapDependers hash) st') :
    ∀ j ∈ (input.plan clock hashes hnodup).jobs, st'.pending j = (st.pending j).erase hash := by
  intro j hj
  by_cases hmem : j ∈ g.mapDependers hash
  · rw [Assembly.pending, hreleased.touched j hmem, horphan, Assembly.pending]
    cases st.vOrphan j with
    | none => rfl
    | some orphan => rfl
  · have hnot := mt (h.mem_pending hnotdone hj).mp hmem
    rw [Assembly.pending, hreleased.others j hmem, horphan, ← Assembly.pending,
      Finset.erase_eq_of_notMem hnot]

/-- The transactions that go to the heap are those for which it was the last one. -/
theorem released_perm (h : st.Working input clock limits hnodup g dropped)
    (hnotdone : hash ∉ (st.agenda dropped).done) (horphan : st1.vOrphan = st.vOrphan)
    (hreleased : Assembly.Released hash st1 (g.mapDependers hash) st') :
    ∃ new, (st'.vecPriority.map TxPriority.ptx).Perm
      (st1.vecPriority.map TxPriority.ptx ++ new) ∧
      new.Perm ((input.plan clock hashes hnodup).released st.pending hash) := by
  obtain ⟨new, hperm, hnodupNew, hnew⟩ := hreleased.queue
  refine ⟨new, hperm, (List.perm_ext_iff_of_nodup hnodupNew
    ((input.plan clock hashes hnodup).nodup.filter _)).mpr fun j => ?_⟩
  rw [hnew, horphan, List.mem_filter, decide_eq_true_eq]
  constructor
  · rintro ⟨hmem, orphan, ho, hempty⟩
    have hj : j ∈ (input.plan clock hashes hnodup).jobs := by
      by_contra hnot
      rw [h.unlisted j fun hj => absurd hj hnot] at ho
      cases ho
    refine ⟨hj, (h.mem_pending hnotdone hj).mpr hmem, ?_⟩
    rw [Assembly.pending, ho]
    exact hempty
  · rintro ⟨hj, hmem, hempty⟩
    refine ⟨(h.mem_pending hnotdone hj).mp hmem, ?_⟩
    rw [Assembly.pending] at hmem hempty
    cases ho : st.vOrphan j with
    | none => simp [ho] at hmem
    | some orphan =>
      rw [ho] at hempty
      exact ⟨orphan, rfl, hempty⟩

end Release

/-- A round that puts the transaction into the block, and those on the heap that waited for it
only. -/
theorem adds {rest : List TxPriority} {comp : TxPriority → TxPriority → Bool} {st1 : Assembly}
    (hindexed : input.pool.Indexed) (h : st.Working input clock limits hnodup g dropped)
    (hqueue : st.vecPriority = entry :: rest) (hreached : st'.Reached input limits g)
    (hadds : Assembly.Adds input limits
      { st with vecPriority := HeapAlgorithms.popHeap comp entry rest } entry tx st1)
    (hrelease : (g.mapDependers tx.getHash).foldlM (releaseOrphan tx.getHash) st1 = .ok st')
    (hreleased : Assembly.Released tx.getHash st1 (g.mapDependers tx.getHash) st') :
    st'.Working input clock limits hnodup g dropped := by
  have hhash : tx.getHash = entry.ptx := hindexed.hash _ _ hadds.ptx
  have hcb : tx.isCoinBase = false := by
    obtain ⟨tx', hptx', hcb, -⟩ := MinerInput.takesPart_iff.mp (h.takesPart hqueue)
    obtain rfl := Option.some.inj (hadds.ptx.symm.trans hptx')
    exact hcb
  have hpop : Assembly.Assembled input limits
      { st with vecPriority := HeapAlgorithms.popHeap comp entry rest } := h.assembled.congr rfl
  have hvtx : st'.vtx = st.vtx ++ [tx] := by
    rw [hreleased.frame]
    exact hadds.vtx
  have horphan1 : st1.vOrphan = st.vOrphan := hadds.vOrphan
  have hnotdone : tx.getHash ∉ (st.agenda dropped).done := hhash ▸ h.not_done hqueue
  have hstep : (input.plan clock hashes hnodup).Does (st.agenda dropped) tx.getHash
      (st'.agenda dropped) := by
    obtain ⟨new, hperm, hnew⟩ := h.released_perm hnotdone horphan1 hreleased
    refine ⟨⟨_, hhash ▸ perm_popHeap comp hqueue, ?_⟩,
      h.released_pending hnotdone horphan1 hreleased, ?_, rfl⟩
    · exact hperm.trans ((hadds.queue.map _).append hnew)
    · show st'.vtx.map _ = st.vtx.map _ ++ [tx.getHash]
      rw [hvtx]
      simp
  have hpriced : st1.Priced input := (h.popped hqueue comp).congr hadds.queue horphan1
  refine ⟨h.gathered, hreached, (hpop.adds hadds hcb).congr hreleased.frame,
    hpriced.releaseOrphans hrelease, h.agenda.does hstep, fun j hj hne => ?_,
    fun j hall => ?_, fun hash hmem => ?_, fun tx' hmem => ?_⟩
  · obtain ⟨orphan, ho, hptx⟩ := h.listed j hj hne
    rw [← horphan1] at ho
    by_cases hmem : j ∈ g.mapDependers tx.getHash
    · rw [hreleased.touched j hmem, ho]
      exact ⟨_, rfl, hptx⟩
    · rw [hreleased.others j hmem]
      exact ⟨orphan, ho, hptx⟩
  · have hnone : st1.vOrphan j = none := horphan1 ▸ h.unlisted j hall
    by_cases hmem : j ∈ g.mapDependers tx.getHash
    · rw [hreleased.touched j hmem, hnone]
      rfl
    · rw [hreleased.others j hmem, hnone]
  · rw [hvtx]
    exact refused_mono (List.prefix_append _ _) (h.refused hash hmem)
  · rw [hvtx] at hmem
    rcases List.mem_append.mp hmem with hmem | hmem
    · exact h.fromPool tx' hmem
    · rw [List.mem_singleton.mp hmem, hhash]
      exact hadds.ptx

/-- One round: one more transaction has been taken off the heap for good. -/
theorem round (hindexed : input.pool.Indexed) {rest : List TxPriority}
    (h : st.Working input clock limits hnodup g dropped) (hqueue : st.vecPriority = entry :: rest)
    (hstep : selectEntry input limits g.mapDependers { st with
      vecPriority := HeapAlgorithms.popHeap (txPriorityCompare st.fSortedByFee) entry rest }
      entry = .ok st') :
    ∃ dropped', st'.Working input clock limits hnodup g dropped' ∧
      st'.vtx.length + dropped'.length = st.vtx.length + dropped.length + 1 := by
  have hreached : st'.Reached input limits g := h.reached.round hqueue hstep
  rcases selectEntry_cases hstep with hleaves | ⟨tx, st1, hadds, hrelease⟩
  · refine ⟨dropped ++ [entry.ptx], h.leaves hqueue hreached hleaves, ?_⟩
    rw [hleaves.frame, List.length_append, List.length_singleton, Nat.add_assoc]
  · have horphan1 : st1.vOrphan = st.vOrphan := hadds.vOrphan
    have hnotdone : tx.getHash ∉ (st.agenda dropped).done := by
      rw [hindexed.hash _ _ hadds.ptx]
      exact h.not_done hqueue
    have hreleased := foldlM_releaseOrphan (.refl tx.getHash st1) (fun j hmem orphan ho => ?_)
      hrelease
    · refine ⟨dropped, h.adds hindexed hqueue hreached hadds hrelease hreleased, ?_⟩
      rw [hreleased.frame, hadds.vtx, List.length_append, List.length_singleton]
      exact Nat.add_right_comm _ _ _
    · -- a pointer to a transaction that waits
      rw [horphan1] at ho
      have hjob : j ∈ (input.plan clock hashes hnodup).jobs ∧ input.dependsOn j ≠ ∅ := by
        by_contra hnot
        rw [h.unlisted j fun hj => not_not.mp fun hne => hnot ⟨hj, hne⟩] at ho
        cases ho
      obtain ⟨orphan', ho', hptx⟩ := h.listed j hjob.1 hjob.2
      obtain rfl := Option.some.inj (ho.symm.trans ho')
      have hpending := (h.mem_pending hnotdone hjob.1).mpr hmem
      rw [Assembly.pending, ho] at hpending
      exact ⟨hptx, hpending⟩

/-- The loop ends with nothing on the heap: there are enough rounds for every transaction. -/
theorem rounds (hindexed : input.pool.Indexed) {n : Nat}
    (h : st.Working input clock limits hnodup g dropped)
    (hn : (input.plan clock hashes hnodup).jobs.length ≤ n + (st.vtx.length + dropped.length))
    (hrun : selectRounds input limits g.mapDependers n st = .ok st') :
    ∃ dropped', st'.Working input clock limits hnodup g dropped' ∧ st'.vecPriority = [] := by
  induction n generalizing st dropped with
  | zero =>
    obtain rfl := Except.ok.inj hrun
    refine ⟨dropped, h, ?_⟩
    have hlen := h.agenda.length_le
    simp only [Assembly.agenda, List.length_map] at hlen
    exact List.length_eq_zero_iff.mp (by omega)
  | succ n ih =>
    rw [selectRounds] at hrun
    split at hrun
    · rename_i hqueue
      obtain rfl := Except.ok.inj hrun
      exact ⟨dropped, h, hqueue⟩
    · rename_i entry rest hqueue
      obtain ⟨st1, h1, h2⟩ := bind_ok.mp hrun
      obtain ⟨dropped1, hworking, hcount⟩ := h.round hindexed hqueue h1
      exact ih hworking (by omega) h2

end Assembly.Working

/-- The selected transactions, for any pool that is indexed by hash, any order of the heap and any
fees. They come from the pool, final, no coinbase and none twice; each one comes after those
transactions of the pool that it waits for; they connect one after the other to the coins at the
tip within the limits; and a transaction that could take part and is not selected either waits for
one that is not selected, or was refused in its turn. -/
structure Assembly.Selects (input : MinerInput) (clock : MinerClock) (limits : BlockLimits)
    (hashes : List uint256) (st : Assembly) : Prop where
  assembled : st.Assembled input limits
  fromPool : ∀ tx ∈ st.vtx, input.pool.mapTx tx.getHash = some tx ∧
    input.takesPart clock tx.getHash = true
  nodup : (st.vtx.map CTransaction.getHash).Nodup
  ordered : ∀ before tx after, st.vtx = before ++ tx :: after → ∀ txin ∈ tx.vin,
    input.coinsTip.haveCoins txin.prevout.hash = true ∨
      ∃ parent ∈ before, parent.getHash = txin.prevout.hash
  complete : ∀ hash ∈ hashes, input.takesPart clock hash = true →
    hash ∈ st.vtx.map CTransaction.getHash ∨
    (∃ p ∈ input.dependsOn hash, p ∉ st.vtx.map CTransaction.getHash) ∨
    Assembly.Refused input clock limits hashes st.vtx hash

theorem selects_of_selectTransactions (hnodup : hashes.Nodup) (hindexed : input.pool.Indexed)
    (h : selectTransactions input clock limits hashes = .ok st) :
    st.Selects input clock limits hashes := by
  obtain ⟨g, hgather, hrounds⟩ := bind_ok.mp h
  have hstart : (Assembly.start input limits g).Working input clock limits hnodup g [] :=
    .start hgather
  obtain ⟨dropped, hworking, hqueue⟩ := hstart.rounds hindexed
    (Nat.le_add_right_of_le (List.length_filter_le _ _)) hrounds
  have hagenda := hworking.agenda
  have htaken := hagenda.taken_perm (by rw [Assembly.agenda, hqueue]; rfl)
  refine ⟨hworking.assembled, fun tx hmem => ⟨hworking.fromPool tx hmem, ?_⟩, ?_, ?_, ?_⟩
  · have hdone : tx.getHash ∈ (st.agenda dropped).done := List.mem_map_of_mem hmem
    exact ((MinerInput.mem_jobs hnodup).mp (hagenda.mem_jobs_of_done hdone)).2
  · exact (List.nodup_append.mp (List.nodup_append.mp hagenda.nodup).2.1).1
  · intro before tx after heq txin htxin
    cases hhave : input.coinsTip.haveCoins txin.prevout.hash with
    | true => exact .inl rfl
    | false =>
      have hpool := hworking.fromPool tx (by rw [heq]; simp)
      have hdone : (st.agenda dropped).done = before.map CTransaction.getHash ++
          tx.getHash :: after.map CTransaction.getHash := by
        show st.vtx.map _ = _
        rw [heq]
        simp
      have hdep : txin.prevout.hash ∈ input.dependsOn tx.getHash := by
        rw [MinerInput.dependsOn_eq hpool, MinerInput.mem_waitsFor]
        exact ⟨⟨txin, htxin, rfl⟩, by simpa [CoinsView.haveCoins] using hhave⟩
      have hbefore := hagenda.ordered _ _ _ hdone _ hdep
      exact .inr (List.mem_map.mp hbefore)
  · intro hash hmem htakes
    by_cases hsub : input.dependsOn hash ⊆ (st.vtx.map CTransaction.getHash).toFinset
    · have hjob : hash ∈ (input.plan clock hashes hnodup).jobs.filter fun j =>
          (input.plan clock hashes hnodup).deps j ⊆ (st.agenda dropped).done.toFinset := by
        rw [List.mem_filter, decide_eq_true_eq]
        exact ⟨(MinerInput.mem_jobs hnodup).mpr ⟨hmem, htakes⟩, hsub⟩
      rcases List.mem_append.mp (htaken.mem_iff.mpr hjob) with hdone | hdropped
      · exact .inl hdone
      · exact .inr (.inr (hworking.refused hash hdropped))
    · obtain ⟨p, hp, hnot⟩ := Finset.not_subset.mp hsub
      exact .inr (.inl ⟨p, hp, fun hmem => hnot (List.mem_toFinset.mpr hmem)⟩)

end

/-! ## A parent and a child -/

namespace TemplateSample

scoped instance scripts : ScriptEngine := Sample.scripts
scoped instance hashing : Hashing := Sample.hashing
scoped instance config : NodeConfig := MainnetSample.config
scoped instance floats : FloatArithmetic := MainnetSample.floats

/-- `double` without rounding. -/
scoped instance doubles : PriorityArithmetic where
  double := Rat
  ofInt x := x
  add x y := x + y
  mul x y := x * y
  div x y := x / y
  lt x y := decide (x < y)
  eq x y := decide (x = y)

scoped instance heaps : HeapAlgorithms where
  makeHeap comp l := l.insertionSort fun a b => comp a b = false
  pushHeap comp l := l.insertionSort fun a b => comp a b = false
  popHeap _ _ l := l
  makeHeap_perm _ l := List.perm_insertionSort _ l
  pushHeap_perm _ l := List.perm_insertionSort _ l
  popHeap_perm _ _ l := List.Perm.refl l

def tip : CBlockIndex := .child Sample.genesis (Sample.header 1 0)

/-- A transaction that spends the first output of another. -/
def spending (nId : UInt32) (hash : uint256) : CTransaction :=
  ⟨1, [⟨⟨hash, 0⟩, [], 0xFFFFFFFF⟩], [⟨coin, []⟩], nId⟩

def parent : CTransaction := spending 11 7
def child : CTransaction := spending 12 11

def input : MinerInput where
  coinsTip := (CoinsView.empty.setCoins 7 ⟨false, [⟨coin, []⟩], 1, 1⟩).setBestBlock (some tip)
  pindexPrev := tip
  pool := (CTxMemPool.empty.addUnchecked 12 child).addUnchecked 11 parent
  fDebug := false

def clock : MinerClock := ⟨2000000000, fun _ => 2000000000, 2000000000, 2000000000⟩
def args : BlockArgs := ⟨none, none, some 5000, none⟩

end TemplateSample

end Terracoin
