import Terracoin.Chain.MainChain
import Terracoin.Mempool.Consistency

/-!
# The loops of `SetBestChain`

What the four loops do that disconnect and connect blocks, offer the disconnected transactions to the
pool and remove the connected ones from it. A pool that fits the coins fits them again at the end, as
long as what it depends on comes back (`delete_loop`).
-/

namespace Terracoin

namespace NodeState

open CTxMemPool

variable [Hashing] [ScriptEngine] [NodeConfig] [BlockFiles]
variable {env : SetBestChainEnv} {s s' s1 : NodeState} {view view' : CoinsView}
  {data : CBlockIndex → BlockData} {vDisconnect vConnect : List CBlockIndex}
  {vResurrect vDelete txs : List CTransaction}

/-- The transactions of the blocks of some entries. -/
def blockTxs (entries : List CBlockIndex) : List CTransaction :=
  entries.flatMap fun pindex => (BlockFiles.block pindex).vtx

omit [ScriptEngine] in
theorem disconnectBlocks_undone
    (h : disconnectBlocks env data view vDisconnect = .ok (view', vResurrect)) :
    Undone view (blockTxs vDisconnect) view' ∧ ∀ tx ∈ vResurrect, tx ∈ blockTxs vDisconnect := by
  induction vDisconnect generalizing view vResurrect with
  | nil =>
    obtain ⟨rfl, rfl⟩ := Prod.mk.inj (Except.ok.inj h)
    exact ⟨.of_eq fun _ => rfl, nofun⟩
  | cons pindex vDisconnect ih =>
    obtain ⟨block, view1, vResurrect1, hread, hdisc, hrest, rfl⟩ := disconnectBlocks_cons_ok.mp h
    obtain ⟨-, rfl, -⟩ := readFromDisk_ok.mp hread
    obtain ⟨hundone, hsub⟩ := ih hrest
    refine ⟨(undone_disconnectBlock hdisc).trans hundone, fun tx hmem => ?_⟩
    rcases List.mem_append.mp hmem with hmem | hmem
    · exact List.mem_append_left _ (List.mem_filter.mp hmem).1
    · exact List.mem_append_right _ (hsub tx hmem)

theorem connectBlocks_applied (hgenesis : ∀ p ∈ vConnect, p.getBlockHash ≠ hashGenesisBlock)
    (hbip30 : ∀ p ∈ vConnect, enforceBIP30 (some p.getBlockHash) p.nHeight = true)
    (h : connectBlocks env s view vConnect = (s', .ok (view', vDelete))) :
    AppliedAll view vDelete view' := by
  induction vConnect generalizing s view vDelete with
  | nil =>
    obtain ⟨rfl, rfl⟩ := Prod.mk.inj (Except.ok.inj (Prod.mk.inj h).2)
    exact fun _ => rfl
  | cons pindex vConnect ih =>
    obtain ⟨s1, view1, vDelete1, h1, h2, rfl⟩ := connectBlocks_cons_ok h
    obtain ⟨block, data, hread, hconn, -⟩ := connectIndex_ok h1
    obtain ⟨-, rfl, hhash⟩ := readFromDisk_ok.mp hread
    refine AppliedAll.append (appliedAll_of_connectBlock ?_ (hbip30 _ List.mem_cons_self) hconn)
      (ih (fun p hp => hgenesis p (List.mem_cons_of_mem _ hp))
        (fun p hp => hbip30 p (List.mem_cons_of_mem _ hp)) h2)
    rw [hhash]
    exact hgenesis _ List.mem_cons_self

theorem connectBlocks_vDelete
    (h : connectBlocks env s view vConnect = (s', .ok (view', vDelete))) :
    vDelete = blockTxs vConnect := by
  induction vConnect generalizing s view vDelete with
  | nil =>
    obtain ⟨rfl, rfl⟩ := Prod.mk.inj (Except.ok.inj (Prod.mk.inj h).2)
    rfl
  | cons pindex vConnect ih =>
    obtain ⟨s1, view1, vDelete1, h1, h2, rfl⟩ := connectBlocks_cons_ok h
    rw [ih h2]
    rfl

/-- The transactions of `vResurrect` that `AcceptToMemoryPool` takes into the pool, each in its
turn. -/
def returning (env : SetBestChainEnv) (nBestHeight : Int) (coinsTip : CoinsView) :
    CTxMemPool → List CTransaction → List CTransaction
  | _, [] => []
  | pool, tx :: vResurrect =>
    match pool.accept ⟨nBestHeight, env.nAcceptTime tx, false⟩ coinsTip tx true false with
    | .ok pool => tx :: returning env nBestHeight coinsTip pool vResurrect
    | .error _ => returning env nBestHeight coinsTip pool vResurrect

omit [BlockFiles] in
theorem acceptToMemoryPool_ok {nAdjustedTime : Int} {fRateLimited fLimitFree : Bool}
    {tx : CTransaction}
    (h : s.acceptToMemoryPool nAdjustedTime fRateLimited tx fLimitFree = .ok s') :
    (∃ pool, s.mempool.accept ⟨s.nBestHeight, nAdjustedTime, fRateLimited⟩ s.coinsTip tx true
        fLimitFree = .ok pool ∧ s' = { s with mempool := pool }) ∨
      ∃ e, s.mempool.accept ⟨s.nBestHeight, nAdjustedTime, fRateLimited⟩ s.coinsTip tx true
        fLimitFree = .error e ∧ s' = s.abortOn e := by
  unfold acceptToMemoryPool at h
  split at h
  · rename_i pool haccept
    exact .inl ⟨pool, haccept, (Except.ok.inj h).symm⟩
  · rename_i e haccept
    split at h
    · cases h
    · exact .inr ⟨e, haccept, (Except.ok.inj h).symm⟩

/-- What the loop over `vResurrect` has done to the pool: it has grown by transactions of the list,
and holds all that were accepted. -/
structure Resurrected (env : SetBestChainEnv) (s : NodeState) (pool : CTxMemPool)
    (vResurrect : List CTransaction) (pool' : CTxMemPool) : Prop where
  grown : Grown pool s.coinsTip pool'
  new : ∀ hash tx, pool'.mapTx hash = some tx → pool.mapTx hash = some tx ∨ tx ∈ vResurrect
  back : ∀ tx ∈ returning env s.nBestHeight s.coinsTip pool vResurrect,
    pool'.mapTx tx.getHash = some tx ∧ pool.mapTx tx.getHash = none

omit [BlockFiles] in
theorem Resurrected.cons {pool pool1 pool' : CTxMemPool} {tx : CTransaction}
    (haccept : pool.accept ⟨s.nBestHeight, env.nAcceptTime tx, false⟩ s.coinsTip tx true false =
      .ok pool1)
    (hpool : pool.Indexed) (h : Resurrected env s pool1 vResurrect pool') :
    Resurrected env s pool (tx :: vResurrect) pool' := by
  obtain ⟨hacc, rfl⟩ := acceptable_of_accept haccept
  have hstep := Grown.of_acceptable hpool hacc
  refine ⟨hstep.trans h.grown, fun hash tx' hmem => ?_, fun tx' hmem => ?_⟩
  · rcases h.new hash tx' hmem with hmem | hmem
    · by_cases heq : hash = tx.getHash
      · subst heq
        obtain rfl := Option.some.inj (mapTx_addUnchecked_self.symm.trans hmem)
        exact .inr List.mem_cons_self
      · exact .inl ((mapTx_addUnchecked_of_ne heq).symm.trans hmem)
    · exact .inr (List.mem_cons_of_mem _ hmem)
  · rw [returning, haccept] at hmem
    rcases List.mem_cons.mp hmem with rfl | hmem
    · exact ⟨h.grown.sub _ _ mapTx_addUnchecked_self, hacc.notInPool⟩
    · obtain ⟨hmem', hnone⟩ := h.back tx' hmem
      refine ⟨hmem', ?_⟩
      cases hold : pool.mapTx tx'.getHash with
      | none => rfl
      | some tx0 =>
        rw [hstep.sub _ _ hold] at hnone
        cases hnone

omit [BlockFiles] in
/-- The loop over `vResurrect`. -/
theorem resurrect_loop (hpool : s.mempool.Indexed)
    (h : vResurrect.foldlM (resurrect env) s = .ok s1) :
    Resurrected env s s.mempool vResurrect s1.mempool := by
  have hloop : ∀ (vResurrect : List CTransaction) (t : NodeState), t.coinsTip = s.coinsTip →
      t.nBestHeight = s.nBestHeight → t.mempool.Indexed →
      vResurrect.foldlM (resurrect env) t = .ok s1 →
      Resurrected env s t.mempool vResurrect s1.mempool := by
    intro vResurrect
    induction vResurrect with
    | nil =>
      intro t _ _ hpool h
      obtain rfl := Except.ok.inj h
      exact ⟨.refl hpool, fun _ _ hmem => .inl hmem, nofun⟩
    | cons tx vResurrect ih =>
      intro t hcoins hheight hpool h
      rw [List.foldlM_cons, Checked.bind_ok] at h
      obtain ⟨t1, h1, h2⟩ := h
      rcases acceptToMemoryPool_ok h1 with ⟨pool, haccept, rfl⟩ | ⟨e, haccept, rfl⟩
      · rw [hcoins, hheight] at haccept
        obtain ⟨hacc, rfl⟩ := acceptable_of_accept haccept
        exact .cons haccept hpool
          (ih { t with mempool := t.mempool.addUnchecked tx.getHash tx } hcoins hheight
            (hacc.indexed hpool) h2)
      · rw [hcoins, hheight] at haccept
        obtain ⟨hgrown, hnew, hback⟩ := ih (t.abortOn e) hcoins hheight hpool h2
        refine ⟨hgrown, fun hash tx' hmem => ?_, ?_⟩
        · exact (hnew hash tx' hmem).imp_right (List.mem_cons_of_mem _)
        · rw [returning, haccept]
          exact hback
  exact hloop vResurrect s rfl rfl hpool h

omit [ScriptEngine] [NodeConfig] [BlockFiles] in
theorem deleteTransaction_ok {tx : CTransaction} (h : s.deleteTransaction env tx = .ok s') :
    ∃ pool1 pool2, s.mempool.remove env.nStack tx false = some pool1 ∧
      pool1.removeConflicts env.nStack tx = some pool2 ∧ s' = { s with mempool := pool2 } := by
  unfold deleteTransaction at h
  split at h
  · cases h
  · rename_i pool2 hpool2
    obtain ⟨pool1, h1, h2⟩ := Option.bind_eq_some_iff.mp hpool2
    exact ⟨pool1, pool2, h1, h2, (Except.ok.inj h).symm⟩

omit [ScriptEngine] [NodeConfig] [BlockFiles] in
/-- The loop over `vDelete`, next to the one that connected the blocks. -/
theorem delete_loop {V V' : CoinsView} (hV : AppliedAll V vDelete view)
    (hend : ∀ o, view.Unspent o → V'.Unspent o) (hpool : Waiting s.mempool V V' vDelete)
    (hid : ∀ B ∈ vDelete, ∀ hash tx, s.mempool.mapTx hash = some tx → hash = B.getHash → tx = B)
    (h : vDelete.foldlM (deleteTransaction env) s = .ok s1) : s1.mempool.Consistent V' := by
  induction vDelete generalizing s V with
  | nil =>
    obtain rfl := Except.ok.inj h
    exact hpool.consistent fun o ho => hend o ((CoinsView.unspent_congr hV).mpr ho)
  | cons B vDelete ih =>
    obtain ⟨V1, hB, hrest⟩ := hV
    rw [List.foldlM_cons, Checked.bind_ok] at h
    obtain ⟨t, h1, h2⟩ := h
    obtain ⟨pool1, pool2, hremove, hconflicts, rfl⟩ := deleteTransaction_ok h1
    have hnext := hpool.next hB (hid B List.mem_cons_self) hremove hconflicts
    refine ih hrest hnext (fun B' hB' hash tx hmem => ?_) h2
    exact hid B' (List.mem_cons_of_mem _ hB') hash tx
      (mapTx_of_delete hpool.toIndexed (hid B List.mem_cons_self) hremove hconflicts hmem)

end NodeState

end Terracoin
