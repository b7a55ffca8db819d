import Terracoin.Chain.PoolRun
import Terracoin.Mempool.Reorganisation

/-!
# What `SetBestChain` puts back into the pool

The loop over `vDisconnect` starts at the old tip and appends the transactions of each block, so
`vResurrect` has every block before the one below it. `setBestChain_returns_iff` says when all
transactions come back that should.
-/

namespace Terracoin

open Checked CBlockIndex CTxMemPool

namespace NodeState

variable [Hashing] [ScriptEngine] [NodeConfig] [BlockFiles]
variable {env : SetBestChainEnv} {s s' s1 : NodeState} {view view' : CoinsView}
  {data : CBlockIndex → BlockData} {vDisconnect : List CBlockIndex}
  {vResurrect vDelete : List CTransaction} {pindexNew : CBlockIndex} {pfork : Option CBlockIndex}
  {reorganise : NodeState → Except Halt NodeState}

/-- What a call of `SetBestChain` does with the transactions, once the coins after it are known. -/
def reorganisation (env : SetBestChainEnv) (s : NodeState) (coins : CoinsView)
    (pfork : Option CBlockIndex) (pindexNew : CBlockIndex) : Reorganisation where
  env tx := ⟨s.nBestHeight, env.nAcceptTime tx, false⟩
  coins := coins
  pool := s.mempool
  queue := (blockTxs (s.vDisconnect pfork)).filter fun tx => !tx.isCoinBase
  connected := blockTxs (vConnect pfork pindexNew)

/-! ## The loops -/

omit [ScriptEngine] in
/-- Above the last checkpoint only the coinbases stay out of the queue. -/
theorem disconnectBlocks_queue
    (habove : ∀ p ∈ vDisconnect, p.nHeight > NodeConfig.nTotalBlocksEstimate)
    (h : disconnectBlocks env data view vDisconnect = .ok (view', vResurrect)) :
    vResurrect = (blockTxs vDisconnect).filter fun tx => !tx.isCoinBase := by
  induction vDisconnect generalizing view vResurrect with
  | nil =>
    obtain ⟨-, rfl⟩ := Prod.mk.inj (Except.ok.inj h)
    rfl
  | cons pindex vDisconnect ih =>
    obtain ⟨block, view1, vResurrect1, hread, hdisc, hrest, rfl⟩ := disconnectBlocks_cons_ok.mp h
    obtain ⟨-, rfl, -⟩ := readFromDisk_ok.mp hread
    have hheight := decide_eq_true (habove pindex List.mem_cons_self)
    rw [ih (fun p hp => habove p (List.mem_cons_of_mem _ hp)) hrest, resurrected, blockTxs, blockTxs,
      List.flatMap_cons, List.filter_append, hheight]
    simp only [Bool.and_true]

omit [ScriptEngine] in
theorem disconnectBlocks_kept
    (h : disconnectBlocks env data view vDisconnect = .ok (view', vResurrect)) :
    Kept view view' ∧ ∀ tx ∈ blockTxs vDisconnect, view'.haveCoins tx.getHash = true := by
  induction vDisconnect generalizing view vResurrect with
  | nil =>
    obtain ⟨rfl, -⟩ := Prod.mk.inj (Except.ok.inj h)
    exact ⟨.refl view, nofun⟩
  | cons pindex vDisconnect ih =>
    obtain ⟨block, view1, vResurrect1, hread, hdisc, hrest, rfl⟩ := disconnectBlocks_cons_ok.mp h
    obtain ⟨-, rfl, -⟩ := readFromDisk_ok.mp hread
    obtain ⟨hkept, hblock⟩ := kept_disconnectBlock hdisc
    obtain ⟨hkept', hothers⟩ := ih hrest
    refine ⟨hkept.trans hkept', fun tx hmem => ?_⟩
    rcases List.mem_append.mp hmem with hmem | hmem
    · exact hkept' _ (hblock tx hmem)
    · exact hothers tx hmem

theorem connectBlocks_kept {vConnect : List CBlockIndex}
    (h : connectBlocks env s view vConnect = (s', .ok (view', vDelete))) : Kept view view' := by
  induction vConnect generalizing s view vDelete with
  | nil =>
    obtain ⟨rfl, -⟩ := Prod.mk.inj (Except.ok.inj (Prod.mk.inj h).2)
    exact .refl view
  | cons pindex vConnect ih =>
    obtain ⟨s1, view1, vDelete1, h1, h2, -⟩ := connectBlocks_cons_ok h
    obtain ⟨block, data, -, hconn, -⟩ := connectIndex_ok h1
    exact (kept_connectBlock hconn).trans (ih h2)

omit [BlockFiles] in
/-- The loop over `vResurrect` offers the queue to the pool. -/
theorem resurrect_loop_eq {R : Reorganisation} (hqueue : R.queue = vResurrect)
    (hpool : R.pool = s.mempool) (hcoins : R.coins = s.coinsTip)
    (henv : ∀ tx, R.env tx = ⟨s.nBestHeight, env.nAcceptTime tx, false⟩)
    (h : vResurrect.foldlM (resurrect env) s = .ok s1) :
    s1.mempool = R.poolAt R.queue.length := by
  have hloop : ∀ (vResurrect : List CTransaction) (t : NodeState), t.coinsTip = s.coinsTip →
      t.nBestHeight = s.nBestHeight → vResurrect.foldlM (resurrect env) t = .ok s1 →
      s1.mempool = vResurrect.foldl R.offer t.mempool := by
    intro vResurrect
    induction vResurrect with
    | nil =>
      intro t _ _ h
      obtain rfl := Except.ok.inj h
      rfl
    | cons tx vResurrect ih =>
      intro t ht hheight h
      rw [List.foldlM_cons, Checked.bind_ok] at h
      obtain ⟨t1, h1, h2⟩ := h
      rcases acceptToMemoryPool_ok h1 with ⟨pool, haccept, rfl⟩ | ⟨e, haccept, rfl⟩
      · rw [ht, hheight, ← hcoins, ← henv] at haccept
        have hoffer : R.offer t.mempool tx = pool := by rw [Reorganisation.offer, haccept]
        rw [List.foldl_cons, hoffer]
        exact ih { t with mempool := pool } ht hheight h2
      · rw [ht, hheight, ← hcoins, ← henv] at haccept
        have hoffer : R.offer t.mempool tx = t.mempool := by rw [Reorganisation.offer, haccept]
        rw [List.foldl_cons, hoffer]
        exact ih (t.abortOn e) ht hheight h2
  rw [Reorganisation.poolAt, List.take_length, hqueue, hpool]
  exact hloop vResurrect s rfl rfl h

omit [ScriptEngine] [NodeConfig] [BlockFiles] in
/-- The loop over `vDelete` takes transactions away, and none of those in `K` when they have no
parents but such in the pool and no conflict with a connected transaction. -/
theorem delete_loop_retains {K : CTransaction → Prop} (hpool : s.mempool.Indexed)
    (hclosed : ClosedUp K s.mempool)
    (hid : ∀ B ∈ vDelete, ∀ hash tx, s.mempool.mapTx hash = some tx → hash = B.getHash → tx = B)
    (hno : ∀ B ∈ vDelete, ∀ tx, K tx → tx ≠ B ∧ ∀ txin ∈ tx.vin,
      txin.prevout ∉ B.vin.map CTxIn.prevout)
    (h : vDelete.foldlM (deleteTransaction env) s = .ok s1) :
    Retains K s.mempool s1.mempool ∧
      ∀ hash tx, s1.mempool.mapTx hash = some tx → s.mempool.mapTx hash = some tx := by
  induction vDelete generalizing s with
  | nil =>
    obtain rfl := Except.ok.inj h
    exact ⟨fun _ _ hmem _ => hmem, fun _ _ hmem => hmem⟩
  | cons B vDelete ih =>
    rw [List.foldlM_cons, Checked.bind_ok] at h
    obtain ⟨t, h1, h2⟩ := h
    obtain ⟨pool1, pool2, hremove, hconflicts, rfl⟩ := deleteTransaction_ok h1
    have hB := hid B List.mem_cons_self
    obtain ⟨hnone, hindexed1, hsame⟩ := remove_false_spec hpool hB hremove
    have hremoved := (removeConflicts_spec hindexed1 hnone hconflicts).1
    have hsub : ∀ hash tx, pool2.mapTx hash = some tx → s.mempool.mapTx hash = some tx :=
      fun hash tx => mapTx_of_delete hpool hB hremove hconflicts
    have hsub1 : ∀ hash tx, pool1.mapTx hash = some tx → s.mempool.mapTx hash = some tx := by
      intro hash tx hmem
      rw [← hsame, hmem]
      rintro rfl
      rw [hnone] at hmem
      cases hmem
    have hfirst : Retains K s.mempool pool1 := by
      intro hash tx hmem hK
      rw [hsame hash fun heq => (hno B List.mem_cons_self tx hK).1 (hB hash tx hmem heq)]
      exact hmem
    have hsecond : Retains K pool1 pool2 := by
      refine removeConflicts_retains hindexed1 (hclosed.of_sub hsub1) hnone ?_ hconflicts
      intro hash tx' _ hK txin' htxin' txin htxin heq
      exact (hno B List.mem_cons_self tx' hK).2 txin' htxin' (heq ▸ List.mem_map_of_mem htxin)
    obtain ⟨hretains, hback⟩ := ih hremoved.indexed (hclosed.of_sub hsub)
      (fun B' hB' hash tx hmem => hid B' (List.mem_cons_of_mem _ hB') hash tx (hsub hash tx hmem))
      (fun B' hB' => hno B' (List.mem_cons_of_mem _ hB')) h2
    exact ⟨(hfirst.trans hsecond).trans hretains, fun hash tx hmem => hsub hash tx (hback hash tx hmem)⟩

/-! ## The call -/

omit [Hashing] [ScriptEngine] [NodeConfig] [BlockFiles] in
theorem coins_dropPruned_of_isPruned {txid : uint256}
    (h : (view.dropPruned.coinsAt txid).isPruned = true) : view.dropPruned.coins txid = none := by
  cases hc : view.dropPruned.coins txid with
  | none => rfl
  | some c =>
    rw [CoinsView.coinsAt, hc, Option.getD_some] at h
    have hunpruned := (Option.filter_eq_some_iff.mp hc).2
    rw [h] at hunpruned
    cases hunpruned

/-- What a successful call has done with the transactions. -/
structure Reorganised (env : SetBestChainEnv) (s s' : NodeState) (R : Reorganisation) : Prop where
  noCoinBase : ∀ tx ∈ R.queue, tx.isCoinBase = false
  coins : ∃ view, R.coins = s.pushedCoins env view ∧
    ∀ tx ∈ R.queue, view.haveCoins tx.getHash = true
  sub : ∀ hash tx, s'.mempool.mapTx hash = some tx →
    (R.poolAt R.queue.length).mapTx hash = some tx
  retains : Retains R.Eligible (R.poolAt R.queue.length) s'.mempool

theorem reorganised_of_setBestChain {u : Unit} (hfork : s.fork pindexNew = .ok pfork)
    (hcall : s.setBestChain reorganise env pindexNew = .ok (s', .ok u))
    (habove : ∀ p ∈ s.vDisconnect pfork, p.nHeight > NodeConfig.nTotalBlocksEstimate)
    (hpool : s.mempool.Indexed)
    (hids : (s.reorganisation env s'.coinsTip pfork pindexNew).DistinctIds) :
    Reorganised env s s' (s.reorganisation env s'.coinsTip pfork pindexNew) := by
  obtain ⟨pfork', hfork', hcall⟩ := setBestChain_ok.mp hcall
  obtain rfl := Except.ok.inj (hfork'.symm.trans hfork)
  obtain ⟨view, vResurrect, s1, view', vDelete, s2, hdisc, hconn, hpush, hmemory⟩ :=
    setBestChainFrom_ok hcall
  obtain ⟨s3, s4, hres, hdel, rfl⟩ := updateMemory_ok hmemory
  have hrec := connectBlocks_recorded hconn
  have hpushed := pushCoins_ok hpush
  rw [flushes_of_recorded hrec] at hpushed
  have hcoins2 : s2.coinsTip = s.pushedCoins env view' := by rw [hpushed, pushedCoins]
  have hcoins : (s4.setTip pindexNew).coinsTip = s2.coinsTip := by
    rw [setTip, ((foldlM_poolOnly (fun _ _ _ => acceptToMemoryPool_poolOnly) hres).trans
      (foldlM_poolOnly (fun _ _ _ => deleteTransaction_poolOnly) hdel)).frame]
  rw [hcoins] at hids ⊢
  generalize hR : s.reorganisation env s2.coinsTip pfork' pindexNew = R at hids ⊢
  have hstart : R.pool = s.mempool := by rw [← hR]; rfl
  have hqueue : R.queue = vResurrect := by
    rw [← hR]
    exact (disconnectBlocks_queue habove hdisc).symm
  have hdelete : ∀ B ∈ vDelete, B ∈ R.connected := by
    rw [← hR, connectBlocks_vDelete hconn]
    exact fun B hB => hB
  have hloop : s3.mempool = R.poolAt R.queue.length := by
    refine resurrect_loop_eq hqueue ?_ ?_ (fun tx => ?_) hres
    · rw [hstart, hpushed, hrec.frame]
    · rw [← hR]
      rfl
    · rw [← hR, hpushed, hrec.frame]
      rfl
  have hindexed : R.pool.Indexed := hstart ▸ hpool
  have hindexed3 : s3.mempool.Indexed := hloop ▸ Reorganisation.poolAt_indexed hindexed _
  have hclosed : ClosedUp R.Eligible s3.mempool :=
    hloop ▸ Reorganisation.eligible_closedUp hindexed hids _
  have hid : ∀ B ∈ vDelete, ∀ hash tx, s3.mempool.mapTx hash = some tx → hash = B.getHash →
      tx = B := by
    rintro B hB hash tx hmem rfl
    have hBmem := List.mem_append_right R.queue (hdelete B hB)
    have hhash := hindexed3.hash _ _ hmem
    rw [hloop] at hmem
    rcases Reorganisation.poolAt_new hmem with hold | hnew
    · exact hids.pool B hBmem tx hold
    · exact hids.queue tx (List.mem_append_left _ hnew) B hBmem hhash
  have hno : ∀ B ∈ vDelete, ∀ tx, R.Eligible tx → tx ≠ B ∧ ∀ txin ∈ tx.vin,
      txin.prevout ∉ B.vin.map CTxIn.prevout := by
    intro B hB tx h
    have hc := h.candidate
    have hne : tx ≠ B := fun heq => hc.notConnected.1 (heq ▸ hdelete B hB)
    refine ⟨hne, fun txin htxin hmem => hne ?_⟩
    exact ((hc.noConflict txin htxin).2 B (List.mem_append_right _ (hdelete B hB)) hmem).symm
  obtain ⟨hretains, hsub⟩ := delete_loop_retains hindexed3 hclosed hid hno hdel
  rw [hloop] at hretains hsub
  refine ⟨fun tx hmem => ?_, ⟨view', ?_, fun tx hmem => ?_⟩, hsub, hretains⟩
  · rw [← hR] at hmem
    simpa using (List.mem_filter.mp hmem).2
  · rw [← hR]
    exact hcoins2
  · rw [← hR] at hmem
    exact connectBlocks_kept hconn _ ((disconnectBlocks_kept hdisc).2 tx (List.mem_filter.mp hmem).1)

omit [BlockFiles] in
theorem Reorganised.allReturn {R : Reorganisation} (h : Reorganised env s s' R)
    (hpool : R.pool.Indexed) (hids : R.DistinctIds)
    (hall : ∀ tx, R.Eligible tx → s'.mempool.mapTx tx.getHash = some tx) :
    R.AllReturn (s.flushes env) := by
  have hback : ∀ tx, R.Eligible tx → (R.poolAt R.queue.length).mapTx tx.getHash = some tx :=
    fun tx helig => h.sub _ _ (hall tx helig)
  refine ⟨Reorganisation.exists_order hpool hids hback, fun tx helig => ?_, fun tx helig => ?_⟩
  · obtain ⟨k, pool', -, -, haccept⟩ := helig.accepted hpool hids (hback tx helig)
    exact Reorganisation.lockTime_of_accept haccept
  · obtain ⟨k, pool', -, -, haccept⟩ := helig.accepted hpool hids (hback tx helig)
    have hnone := (acceptable_of_accept haccept).1.notInCoins
    obtain ⟨view, hcoins, hentries⟩ := h.coins
    -- without a flush the entry of the disconnected transaction is still there
    by_contra hflush
    have hentry := hentries tx helig.candidate.queued
    rw [hcoins, pushedCoins, if_neg hflush] at hnone
    rw [CoinsView.haveCoins, hnone] at hentry
    cases hentry

omit [BlockFiles] in
theorem Reorganised.mapTx {R : Reorganisation} (h : Reorganised env s s' R)
    (hpool : R.pool.Indexed) (hids : R.DistinctIds) (hreturn : R.AllReturn (s.flushes env))
    {tx : CTransaction} (helig : R.Eligible tx) : s'.mempool.mapTx tx.getHash = some tx := by
  obtain ⟨⟨pos, horder⟩, hlock, hflushed⟩ := hreturn
  obtain ⟨view, hcoins, -⟩ := h.coins
  have hnone : ∀ tx, R.Eligible tx → R.coins.coins tx.getHash = none := by
    intro tx helig
    have hpruned := helig.candidate.notConnected.2
    rw [hcoins, pushedCoins, if_pos (hflushed tx helig)] at hpruned ⊢
    exact coins_dropPruned_of_isPruned hpruned
  have hplace := Reorganisation.mapTx_poolAt hpool hids h.noCoinBase hlock hnone horder helig
  have hlt := (List.getElem?_eq_some_iff.mp (horder tx helig).1).1
  exact h.retains _ _ ((Reorganisation.poolAt_grown hpool hlt).sub _ _ hplace) helig

/-- After a successful reorganisation above the last checkpoint all eligible transactions are in the
pool, if and only if each of them comes after those that it needs in the queue from the old tip down,
none has a lock time beyond the positive numbers, and the coins are flushed. -/
theorem setBestChain_returns_iff {u : Unit} (hfork : s.fork pindexNew = .ok pfork)
    (hcall : s.setBestChain reorganise env pindexNew = .ok (s', .ok u))
    (habove : ∀ p ∈ s.vDisconnect pfork, p.nHeight > NodeConfig.nTotalBlocksEstimate)
    (hpool : s.mempool.Indexed)
    (hids : (s.reorganisation env s'.coinsTip pfork pindexNew).DistinctIds) :
    (∀ tx, (s.reorganisation env s'.coinsTip pfork pindexNew).Eligible tx →
        s'.mempool.mapTx tx.getHash = some tx) ↔
      (s.reorganisation env s'.coinsTip pfork pindexNew).AllReturn (s.flushes env) := by
  have hreorg := reorganised_of_setBestChain hfork hcall habove hpool hids
  exact ⟨hreorg.allReturn hpool hids, fun hreturn _ => hreorg.mapTx hpool hids hreturn⟩

end NodeState

/-! ## The two branches again -/

namespace ReorgSample

/-- Every block of the old branch has spent one output. -/
def connectedDB : NodeState.BlockTreeDB := { db with
  data := fun _ => ⟨⟨BLOCK_VALID_SCRIPTS, true, true, false, false⟩,
    some ⟨[⟨[⟨⟨coin, []⟩, false, 1, 1⟩]⟩]⟩⟩ }

/-- The coins at the first block of the old branch. -/
def coins1 : CoinsView :=
  ((CoinsView.empty.setCoins 1 (.ofTx (Sample.coinbase 1 coin) 1)).setCoins 11
    (.ofTx parent 1)).setBestBlock (some old1)

/-- The coins at the second block, which has spent `parent`. -/
def coins2 : CoinsView :=
  (((CoinsView.empty.setCoins 1 (.ofTx (Sample.coinbase 1 coin) 1)).setCoins 2
    (.ofTx (Sample.coinbase 2 coin) 2)).setCoins 12 (.ofTx child 2)).setBestBlock (some old2)

def state (coinsDB : CoinsView) : NodeState := NodeState.loadBlockIndexDB connectedDB coinsDB

/-- The reorganisation to the new branch that ends with the given coins. -/
def toNew (coinsDB coins : CoinsView) (pnew : CBlockIndex) : Reorganisation :=
  (state coinsDB).reorganisation Sample.switchEnv coins (some Sample.genesis) pnew

theorem setBestChain_returns_iff_sample : ∃ s',
    (state coins1).setBestChain .ok Sample.switchEnv new1 = .ok (s', .ok ()) ∧
    ((∀ tx, (toNew coins1 s'.coinsTip new1).Eligible tx →
        s'.mempool.mapTx tx.getHash = some tx) ↔
      (toNew coins1 s'.coinsTip new1).AllReturn true) ∧
    (toNew coins1 s'.coinsTip new1).Eligible parent ∧ s'.mempool.mapTx 11 = some parent := by
  have hcall : ((Sample.returned true
      ((state coins1).setBestChain .ok Sample.switchEnv new1)).any fun s' =>
        decide ((toNew coins1 s'.coinsTip new1).Candidate parent) &&
          decide (s'.coinsTip.Unspent ⟨7, 0⟩) && s'.mempool.mapTx 11 == some parent) = true := by
    decide +kernel
  obtain ⟨s', hreturned, hstate⟩ := (Option.any_eq_true _ _).mp hcall
  simp only [Bool.and_eq_true, decide_eq_true_eq, beq_iff_eq] at hstate
  obtain ⟨⟨hcandidate, hunspent⟩, hback⟩ := hstate
  have hcall := Sample.returned_true hreturned
  have hfork : (state coins1).fork new1 = .ok (some Sample.genesis) := by decide +kernel
  have hempty : (state coins1).mempool = .empty := NodeState.loadBlockIndexDB_mempool _ _
  have hids : ∀ tx ∈ [parent, Sample.coinbase 3 coin], ∀ tx' ∈ [parent, Sample.coinbase 3 coin],
      tx.getHash = tx'.getHash → tx = tx' := by
    decide +kernel
  refine ⟨s', hcall, NodeState.setBestChain_returns_iff hfork hcall (by decide +kernel)
    (hempty ▸ .empty) ⟨hids, fun tx _ tx' hmem => ?_⟩, ?_, hback⟩
  · change (state coins1).mempool.mapTx tx.getHash = some tx' at hmem
    rw [hempty] at hmem
    cases hmem
  · refine hcandidate.eligible fun txin htxin => ?_
    obtain rfl := List.mem_singleton.mp htxin
    exact hunspent

/-- `child` is offered before `parent`, which it spends, and does not come back. -/
theorem not_setBestChain_returns : ∃ s',
    Run.run NodeState.step .init [.loadBlockIndexDB connectedDB coins2] = some (state coins2) ∧
    (state coins2).setBestChain .ok Sample.switchEnv new3 = .ok (s', .ok ()) ∧
    (∀ p ∈ (state coins2).vDisconnect (some Sample.genesis),
      p.nHeight > NodeConfig.nTotalBlocksEstimate) ∧
    (toNew coins2 s'.coinsTip new3).Eligible child ∧ s'.mempool.mapTx child.getHash = none ∧
    s'.mempool.mapTx parent.getHash = some parent := by
  have hload : Run.run NodeState.step .init [.loadBlockIndexDB connectedDB coins2] =
      some (state coins2) := by
    rw [Run.run, NodeState.step, if_pos (by decide +kernel)]
    rfl
  have hcall : ((Sample.returned true
      ((state coins2).setBestChain .ok Sample.switchEnv new3)).any fun s' =>
        decide ((toNew coins2 s'.coinsTip new3).Candidate parent) &&
          decide ((toNew coins2 s'.coinsTip new3).Candidate child) &&
          decide (s'.coinsTip.Unspent ⟨7, 0⟩) && s'.mempool.mapTx child.getHash == none &&
          s'.mempool.mapTx parent.getHash == some parent) = true := by
    decide +kernel
  obtain ⟨s', hreturned, hstate⟩ := (Option.any_eq_true _ _).mp hcall
  simp only [Bool.and_eq_true, decide_eq_true_eq, beq_iff_eq] at hstate
  obtain ⟨⟨⟨⟨hparent, hchild⟩, hunspent⟩, hnone⟩, hback⟩ := hstate
  have heligible : (toNew coins2 s'.coinsTip new3).Eligible parent := by
    refine hparent.eligible fun txin htxin => ?_
    obtain rfl := List.mem_singleton.mp htxin
    exact hunspent
  refine ⟨s', hload, Sample.returned_true hreturned, by decide +kernel, ?_, hnone, hback⟩
  refine .intro hchild (fun _ => parent) (fun txin htxin _ => ?_) fun _ _ _ => heligible
  obtain rfl := List.mem_singleton.mp htxin
  exact ⟨rfl, by decide⟩

end ReorgSample

end Terracoin
