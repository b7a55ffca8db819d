import Terracoin.Chain.Atomicity
import Terracoin.Chain.Candidates
import Terracoin.Chain.PoolLoops

/-!
# The memory pool in a run of the node

Which calls of `SetBestChain` keep the pool consistent with the coins. `KeepsPool` is the condition:
what it disconnects has to come back when the pool depends on it. The queue of the disconnected
transactions starts at the old tip, so a transaction of a later block comes before the parents that
it has in earlier blocks, and is refused.

`ConnectBestBlock` calls `SetBestChain` several times, and `ConnectMeets` asks for the condition at
each of these calls.
-/

namespace Terracoin

open Checked CBlockIndex CTxMemPool

namespace CTxMemPool

variable [Hashing]

/-- A transaction of the pool spends an output of the transaction. -/
def Spends (pool : CTxMemPool) (tx : CTransaction) : Prop :=
  ∃ n < tx.vout.length, (pool.mapNextTx ⟨tx.getHash, UInt32.ofNat n⟩).isSome = true

instance (pool : CTxMemPool) (tx : CTransaction) : Decidable (pool.Spends tx) :=
  inferInstanceAs (Decidable (∃ n < tx.vout.length, _))

theorem Indexed.spends {pool : CTxMemPool} {tx tx' : CTransaction} {hash : uint256} {txin : CTxIn}
    (h : pool.Indexed) (hmem : pool.mapTx hash = some tx') (htxin : txin ∈ tx'.vin)
    (hhash : txin.prevout.hash = tx.getHash) (hlt : txin.prevout.n.toNat < tx.vout.length) :
    pool.Spends tx := by
  obtain ⟨i, hi⟩ := h.exists_next hmem htxin
  refine ⟨_, hlt, ?_⟩
  rw [← hhash, UInt32.ofNat_toNat, hi]
  rfl

end CTxMemPool

namespace NodeState

variable [Hashing] [ScriptEngine] [NodeConfig] [BlockFiles]
variable {env : SetBestChainEnv} {s s' s1 : NodeState} {pindexNew : CBlockIndex}
  {reorganise : NodeState → Except Halt NodeState}

/-! ## One call of `SetBestChain` -/

def pushedCoins (env : SetBestChainEnv) (s : NodeState) (view : CoinsView) : CoinsView :=
  if s.flushes env then view.dropPruned else view

/-- A call of `SetBestChain` that keeps the pool consistent with the coins. A disconnected
transaction that the pool depends on is in one of the new blocks, or `AcceptToMemoryPool` accepts it
in its turn. -/
structure KeepsPoolFrom (env : SetBestChainEnv) (s : NodeState) (pindexNew : CBlockIndex)
    (pfork : Option CBlockIndex) : Prop where
  written : flushFails env s = false
  noTip : s.pindexBest = none → ∀ hash, s.mempool.mapTx hash = none
  bip30 : ∀ p ∈ vConnect pfork pindexNew, enforceBIP30 (some p.getBlockHash) p.nHeight = true
  revived : ∀ tx ∈ blockTxs (s.vDisconnect pfork), ∀ txin ∈ tx.vin,
    s.mempool.mapTx txin.prevout.hash = none
  sameId : ∀ B ∈ blockTxs (vConnect pfork pindexNew),
    (∀ tx ∈ s.mempool.mapTx B.getHash, tx = B) ∧
      ∀ tx ∈ blockTxs (s.vDisconnect pfork), tx.getHash = B.getHash → tx = B
  returned : ∀ view vResurrect s1 view' vDelete,
    disconnectBlocks env s.data s.coinsTip (s.vDisconnect pfork) = .ok (view, vResurrect) →
    connectBlocks env s view (vConnect pfork pindexNew) = (s1, .ok (view', vDelete)) →
    ∀ tx ∈ blockTxs (s.vDisconnect pfork), s.mempool.Spends tx →
      tx ∈ blockTxs (vConnect pfork pindexNew) ∨
        tx ∈ returning env s.nBestHeight (s.pushedCoins env view') s.mempool vResurrect

def KeepsPool (env : SetBestChainEnv) (s : NodeState) (pindexNew : CBlockIndex) : Prop :=
  ∀ pfork, s.fork pindexNew = .ok pfork → KeepsPoolFrom env s pindexNew pfork

/-- The part of the condition about what comes back, for a call that connects the new blocks. -/
def returnedAll (env : SetBestChainEnv) (s : NodeState) (pindexNew : CBlockIndex)
    (pfork : Option CBlockIndex) : Bool :=
  match disconnectBlocks env s.data s.coinsTip (s.vDisconnect pfork) with
  | .error _ => true
  | .ok (view, vResurrect) =>
    match connectBlocks env s view (vConnect pfork pindexNew) with
    | (_, .error _) => true
    | (_, .ok (view', _)) =>
      (blockTxs (s.vDisconnect pfork)).all fun tx => !decide (s.mempool.Spends tx) ||
        (decide (tx ∈ blockTxs (vConnect pfork pindexNew)) ||
          decide (tx ∈ returning env s.nBestHeight (s.pushedCoins env view') s.mempool vResurrect))

theorem returned_of_returnedAll {pfork : Option CBlockIndex} {view view' : CoinsView}
    {vResurrect vDelete : List CTransaction} {tx : CTransaction}
    (h : returnedAll env s pindexNew pfork = true)
    (hdisc : disconnectBlocks env s.data s.coinsTip (s.vDisconnect pfork) = .ok (view, vResurrect))
    (hconn : connectBlocks env s view (vConnect pfork pindexNew) = (s1, .ok (view', vDelete)))
    (hmem : tx ∈ blockTxs (s.vDisconnect pfork)) (hspends : s.mempool.Spends tx) :
    tx ∈ blockTxs (vConnect pfork pindexNew) ∨
      tx ∈ returning env s.nBestHeight (s.pushedCoins env view') s.mempool vResurrect := by
  rw [returnedAll, hdisc] at h
  dsimp only at h
  rw [hconn] at h
  have htx := List.all_eq_true.mp h tx hmem
  rw [decide_eq_true hspends, Bool.not_true, Bool.false_or, Bool.or_eq_true] at htx
  exact htx.imp of_decide_eq_true of_decide_eq_true

/-- The condition for a node with a best block, in a form that can be evaluated. -/
def keepsPool (env : SetBestChainEnv) (s : NodeState) (pindexNew : CBlockIndex)
    (pfork : Option CBlockIndex) : Bool :=
  decide (s.fork pindexNew = .ok pfork) && s.pindexBest.isSome && !flushFails env s &&
    decide (∀ p ∈ vConnect pfork pindexNew,
      enforceBIP30 (some p.getBlockHash) p.nHeight = true) &&
    decide (∀ tx ∈ blockTxs (s.vDisconnect pfork), ∀ txin ∈ tx.vin,
      s.mempool.mapTx txin.prevout.hash = none) &&
    decide (∀ B ∈ blockTxs (vConnect pfork pindexNew), (∀ tx ∈ s.mempool.mapTx B.getHash, tx = B) ∧
      ∀ tx ∈ blockTxs (s.vDisconnect pfork), tx.getHash = B.getHash → tx = B) &&
    returnedAll env s pindexNew pfork

theorem keepsPool_of_eq_true {pfork : Option CBlockIndex}
    (h : keepsPool env s pindexNew pfork = true) : KeepsPool env s pindexNew := by
  simp only [keepsPool, Bool.and_eq_true, decide_eq_true_eq, Bool.not_eq_true'] at h
  obtain ⟨⟨⟨⟨⟨⟨hfork, hbest⟩, hwritten⟩, hbip30⟩, hrevived⟩, hsameId⟩, hreturned⟩ := h
  intro pfork' hfork'
  obtain rfl := Except.ok.inj (hfork.symm.trans hfork')
  refine ⟨hwritten, fun hnone => ?_, hbip30, hrevived, hsameId, ?_⟩
  · rw [hnone] at hbest
    cases hbest
  · intro view vResurrect s1 view' vDelete hdisc hconn tx hmem hspends
    exact returned_of_returnedAll hreturned hdisc hconn hmem hspends

section Waiting

variable {view view' : CoinsView} {pool1 : CTxMemPool}
  {vResurrect vDelete disconnected : List CTransaction} {t : NodeState}

omit [BlockFiles] in
/-- The pool when the disconnected transactions have gone back to it. -/
theorem Resurrected.waiting (hpool : s.mempool.Consistent s.coinsTip)
    (hundone : Undone s.coinsTip disconnected view) (happlied : AppliedAll view vDelete view')
    (htip : ∀ txid, (t.coinsTip.coinsAt txid).isPruned = (view'.coinsAt txid).isPruned)
    (hres : Resurrected env t s.mempool vResurrect pool1)
    (hrevived : ∀ tx ∈ disconnected, ∀ txin ∈ tx.vin, s.mempool.mapTx txin.prevout.hash = none)
    (hreturned : ∀ tx ∈ disconnected, s.mempool.Spends tx → tx ∈ vDelete ∨
      tx ∈ returning env t.nBestHeight t.coinsTip s.mempool vResurrect) :
    Waiting pool1 view t.coinsTip vDelete where
  toIndexed := hres.grown.indexed
  unrecorded hash tx hmem hrecord := by
    rcases hres.grown.new hash tx hmem with hold | ⟨hnone, -⟩
    · rw [htip] at hrecord
      rcases happlied.records hrecord with hB | hrecord
      · exact hB
      · rcases hundone.records hash hrecord with hrecord | ⟨tx', hmem', txin, htxin, hhash⟩
        · rw [hpool.unrecorded hash tx hold] at hrecord
          cases hrecord
        · have hgone := hrevived tx' hmem' txin htxin
          rw [hhash, hold] at hgone
          cases hgone
    · rw [CoinsView.coinsAt, hnone] at hrecord
      cases hrecord
  inputs hash tx hmem txin htxin := by
    rcases hres.grown.new hash tx hmem with hold | ⟨-, hinputs⟩
    · rcases hpool.inputs hash tx hold txin htxin with hcoin | ⟨hne, hprovides⟩
      · rcases hundone.keeps _ hcoin with hview | ⟨tx', hmem', hhash, hlt⟩
        · exact .inl hview
        · have hspends := hpool.spends hold htxin hhash hlt
          rcases hreturned tx' hmem' hspends with hdelete | hback
          · exact .inr (.inr (.inr ⟨tx', hdelete, hhash, hlt⟩))
          · obtain ⟨hback, hnew⟩ := hres.back tx' hback
            rw [← hhash] at hback hnew
            refine .inr (.inr (.inl ⟨fun heq => ?_, tx', hback, hlt⟩))
            rw [heq, hold] at hnew
            cases hnew
      · exact .inr (.inr (.inl ⟨hne, hres.grown.provides hprovides⟩))
    · rcases hinputs txin htxin with hcoin | hprovides
      · exact .inr (.inl hcoin)
      · exact .inr (.inr (.inl hprovides))

end Waiting

omit [ScriptEngine] [NodeConfig] [BlockFiles] in
theorem delete_loop_empty {vDelete : List CTransaction} (hpool : ∀ hash, s.mempool.mapTx hash = none)
    (hindexed : s.mempool.Indexed) (h : vDelete.foldlM (deleteTransaction env) s = .ok s1) :
    s1.mempool.Indexed ∧ ∀ hash, s1.mempool.mapTx hash = none := by
  induction vDelete generalizing s with
  | nil =>
    obtain rfl := Except.ok.inj h
    exact ⟨hindexed, hpool⟩
  | cons B vDelete ih =>
    rw [List.foldlM_cons, Checked.bind_ok] at h
    obtain ⟨t, h1, h2⟩ := h
    obtain ⟨pool1, pool2, hremove, hconflicts, rfl⟩ := deleteTransaction_ok h1
    have hsame : pool1 = s.mempool := by
      rw [remove_false hremove, hpool]
      rfl
    subst hsame
    have hremoved := (removeConflicts_spec hindexed (hpool _) hconflicts).1
    exact ih (fun hash => hremoved.mapTx_eq_none (hpool hash)) hremoved.indexed h2

theorem setBestChain_error_pool (hs : MainChain s) (hrun : s.fRequestShutdown = false)
    (hmem : pindexNew ∈ s.mapBlockIndex) (hwritten : flushFails env s = false) {e : Failure}
    (h : s.setBestChain reorganise env pindexNew = .ok (s', .error e)) :
    s'.mempool = s.mempool ∧ s'.coinsTip = s.coinsTip := by
  have hunmoved := (setBestChain_unmoved hs hrun hmem h).1
  refine ⟨by rw [hunmoved.frame], ?_⟩
  rcases setBestChain_coinsTip hs hrun hmem h with ⟨-, hcoins⟩ | ⟨-, hfails, -⟩
  · exact hcoins
  · rw [hfails] at hwritten
    cases hwritten

/-- A call that succeeds. -/
theorem setBestChain_ok_consistent (hs : MainChain s) (hrun : s.fRequestShutdown = false)
    (hmem : pindexNew ∈ s.mapBlockIndex) (hpool : s.mempool.Consistent s.coinsTip)
    {pfork : Option CBlockIndex} (hfork : s.fork pindexNew = .ok pfork)
    (hkeeps : KeepsPoolFrom env s pindexNew pfork) {u : Unit}
    (h : s.setBestChainFrom reorganise env pindexNew pfork = .ok (s', .ok u)) :
    s'.mempool.Consistent s'.coinsTip := by
  obtain ⟨view, vResurrect, s1, view', vDelete, s2, hdisc, hconn, hpush, hmemory⟩ :=
    setBestChainFrom_ok h
  obtain ⟨s3, s4, hres, hdel, rfl⟩ := updateMemory_ok hmemory
  have hrec := connectBlocks_recorded hconn
  have hpushed := pushCoins_ok hpush
  rw [flushes_of_recorded hrec] at hpushed
  have hpool2 : s2.mempool = s.mempool := by rw [hpushed, hrec.frame]
  have hheight2 : s2.nBestHeight = s.nBestHeight := by rw [hpushed, hrec.frame]
  have hcoins2 : s2.coinsTip = s.pushedCoins env view' := by rw [hpushed, pushedCoins]
  have hcoins4 : s4.coinsTip = s2.coinsTip := by
    rw [((foldlM_poolOnly (fun _ _ _ => acceptToMemoryPool_poolOnly) hres).trans
      (foldlM_poolOnly (fun _ _ _ => deleteTransaction_poolOnly) hdel)).frame]
  have hindexed2 : s2.mempool.Indexed := hpool2 ▸ hpool.toIndexed
  obtain ⟨hgrown, hnew, hback⟩ := resurrect_loop (by exact hindexed2) hres
  have hloop : Resurrected env s2 s.mempool vResurrect s3.mempool :=
    hpool2 ▸ ⟨hgrown, hnew, hback⟩
  change s4.mempool.Consistent s4.coinsTip
  rw [hcoins4]
  cases hbest : s.pindexBest with
  | none =>
    -- nothing to disconnect, and an empty pool
    have hnone := hkeeps.noTip hbest
    have hdown : s.vDisconnect pfork = [] := by
      rw [vDisconnect, hs.coins hrun, hbest]
      rfl
    rw [hdown] at hdisc
    obtain ⟨-, rfl⟩ := Prod.mk.inj (Except.ok.inj hdisc)
    obtain rfl := Except.ok.inj hres
    have hnone2 : ∀ hash, s2.mempool.mapTx hash = none := fun hash => by rw [hpool2, hnone]
    obtain ⟨hindexed, hempty⟩ := delete_loop_empty (by exact hnone2) hgrown.indexed hdel
    exact consistent_of_forall_none hindexed hempty
  | some best =>
    have happlied := connectBlocks_applied
      (fun p hp => hs.hash_of_vConnect hrun hmem hfork (by rw [hbest]; rfl) hp) hkeeps.bip30 hconn
    have hundone := disconnectBlocks_undone hdisc
    obtain rfl := connectBlocks_vDelete hconn
    have htip : ∀ txid, (s2.coinsTip.coinsAt txid).isPruned = (view'.coinsAt txid).isPruned := by
      intro txid
      rw [hcoins2, pushedCoins]
      split
      · exact CoinsView.isPruned_dropPruned
      · rfl
    have hunspent : ∀ o, view'.Unspent o → s2.coinsTip.Unspent o := by
      intro o ho
      rw [hcoins2, pushedCoins]
      split
      · exact CoinsView.unspent_dropPruned.mpr ho
      · exact ho
    refine delete_loop happlied hunspent ?_ (fun B hB hash tx hmem' hhash => ?_) hdel
    · refine Resurrected.waiting hpool hundone.1 happlied htip hloop hkeeps.revived ?_
      intro tx htx hspends
      have := hkeeps.returned view vResurrect s1 view' _ hdisc hconn tx htx hspends
      rwa [← hcoins2, ← hheight2] at this
    · obtain ⟨hold, hgone⟩ := hkeeps.sameId B hB
      have hid := (hgrown.indexed.hash hash tx hmem').trans hhash
      rcases hloop.new hash tx hmem' with hmem' | hmem'
      · rw [hhash] at hmem'
        exact hold tx hmem'
      · exact hgone tx (hundone.2 tx hmem') hid

theorem setBestChain_consistent (hs : MainChain s) (hrun : s.fRequestShutdown = false)
    (hmem : pindexNew ∈ s.mapBlockIndex) (hpool : s.mempool.Consistent s.coinsTip)
    (hkeeps : KeepsPool env s pindexNew) {r : Check Unit}
    (h : s.setBestChain reorganise env pindexNew = .ok (s', r)) :
    s'.mempool.Consistent s'.coinsTip := by
  obtain ⟨pfork, hfork, hcall⟩ := setBestChain_ok.mp h
  cases r with
  | ok u => exact setBestChain_ok_consistent hs hrun hmem hpool hfork (hkeeps pfork hfork) hcall
  | error e =>
    obtain ⟨hmempool, hcoins⟩ :=
      setBestChain_error_pool hs hrun hmem (hkeeps pfork hfork).written h
    rwa [hmempool, hcoins]

/-! ## The calls of `ConnectBestBlock` -/

/-- Every call of `SetBestChain` in the loop over `vAttach` meets a condition. -/
def AttachMeets (C : NodeState → CBlockIndex → Prop)
    (setBestChain : NodeState → CBlockIndex → Except Halt (NodeState × Check Unit))
    (fShutdown : CBlockIndex → Bool) : NodeState → List CBlockIndex → Prop
  | _, [] => True
  | s, pindexSwitch :: vAttach =>
    (s.fRequestShutdown || fShutdown pindexSwitch) = false →
      C s pindexSwitch ∧ ∀ s' u, setBestChain s pindexSwitch = .ok (s', .ok u) →
        AttachMeets C setBestChain fShutdown s' vAttach

/-- Every call of `SetBestChain` in a call of `ConnectBestBlock` keeps the pool consistent. -/
def ConnectMeets (env : ConnectBestEnv) : Nat → NodeState → Prop
  | 0, _ => True
  | fuel + 1, s =>
    ∀ top, rbegin s.setBlockIndexValid = some top → s.nothingToDo top = false →
      (∀ pindexTest s1, s.checkAncestry top [] = .inl pindexTest →
        (markFailed pindexTest s top).invalidChainFound top = .ok s1 → ConnectMeets env fuel s1) ∧
      ∀ vAttach, s.checkAncestry top [] = .inr vAttach →
        AttachMeets (fun s p => KeepsPool (env.switch p) s p)
          (fun s p => s.setBestChain (fun s => (connectBestBlock env fuel s).map Prod.fst)
            (env.switch p) p) env.fShutdown s vAttach

section Best

variable {best : ConnectBestEnv} {fuel : Nat} {r : Check Unit}

theorem attachBlocks_consistent {vAttach : List CBlockIndex} (hs : MainChain s)
    (hknown : ∀ p ∈ vAttach, p ∈ s.mapBlockIndex) (hpool : s.mempool.Consistent s.coinsTip)
    (hmeets : AttachMeets (fun s p => KeepsPool (best.switch p) s p)
      (fun s p => s.setBestChain reorganise (best.switch p) p) best.fShutdown s vAttach)
    (h : attachBlocks (fun s p => s.setBestChain reorganise (best.switch p) p) best.fShutdown s
      vAttach = .ok (s', r)) : s'.mempool.Consistent s'.coinsTip := by
  induction vAttach generalizing s with
  | nil =>
    obtain ⟨rfl, -⟩ := Prod.mk.inj (Except.ok.inj h)
    exact hpool
  | cons p vAttach ih =>
    rw [attachBlocks] at h
    dsimp only at h
    cases hreq : (s.fRequestShutdown || best.fShutdown p) with
    | true =>
      rw [hreq, if_pos rfl] at h
      obtain ⟨rfl, -⟩ := Prod.mk.inj (Except.ok.inj h)
      exact hpool
    | false =>
      have hrun : s.fRequestShutdown = false := (Bool.or_eq_false_iff.mp hreq).1
      obtain ⟨hkeeps, hrest⟩ := hmeets hreq
      rw [hreq, if_neg Bool.false_ne_true, ← hrun] at h
      obtain ⟨⟨s1, r1⟩, h1, h⟩ := Checked.bind_ok.mp h
      have hmem := hknown p List.mem_cons_self
      have hpool1 := setBestChain_consistent hs hrun hmem hpool hkeeps h1
      obtain ⟨hs1, hmap⟩ := setBestChain_mainChain hs hrun hmem h1
      cases r1 with
      | error e =>
        obtain ⟨rfl, -⟩ := Prod.mk.inj (Except.ok.inj h)
        exact hpool1
      | ok u =>
        refine ih hs1 (fun q hq => ?_) hpool1 (hrest s1 u h1) h
        rw [hmap]
        exact hknown q (List.mem_cons_of_mem _ hq)

omit [ScriptEngine] [NodeConfig] [BlockFiles] in
theorem markFailed_pool {t p : CBlockIndex} :
    (markFailed t s p).mempool = s.mempool ∧ (markFailed t s p).coinsTip = s.coinsTip := by
  induction p generalizing s with
  | root header =>
    rw [markFailed]
    split <;> exact ⟨rfl, rfl⟩
  | child p header ih =>
    rw [markFailed]
    split
    · exact ⟨rfl, rfl⟩
    · exact ih

theorem connectBestBlock_consistent (hs : MainChain s) (hpool : s.mempool.Consistent s.coinsTip)
    (hmeets : ConnectMeets best fuel s) (h : connectBestBlock best fuel s = .ok (s', r)) :
    s'.mempool.Consistent s'.coinsTip := by
  induction fuel generalizing s with
  | zero => cases h
  | succ fuel ih =>
    rw [connectBestBlock] at h
    cases htop : rbegin s.setBlockIndexValid with
    | none =>
      rw [htop] at h
      obtain ⟨rfl, -⟩ := Prod.mk.inj (Except.ok.inj h)
      exact hpool
    | some top =>
      rw [htop] at h
      dsimp only at h
      cases htodo : s.nothingToDo top with
      | true =>
        rw [htodo, if_pos rfl] at h
        obtain ⟨rfl, -⟩ := Prod.mk.inj (Except.ok.inj h)
        exact hpool
      | false =>
        obtain ⟨hmarked, hattach⟩ := hmeets top htop htodo
        rw [htodo, if_neg Bool.false_ne_true] at h
        cases hcheck : s.checkAncestry top [] with
        | inl t =>
          rw [hcheck] at h
          obtain ⟨s1, h1, h⟩ := Checked.bind_ok.mp h
          refine ih (hs.of_unmoved (markFailed_unmoved.trans (invalidChainFound_unmoved h1))) ?_
            (hmarked t s1 hcheck h1) h
          rw [invalidChainFound_ok h1]
          dsimp only
          rwa [markFailed_pool.1, markFailed_pool.2]
        | inr vAttach =>
          rw [hcheck] at h
          exact attachBlocks_consistent hs (hs.attach_known htop hcheck) hpool
            (hattach vAttach hcheck) h

end Best

/-! ## Runs -/

/-- The operations that keep the pool consistent: each call of `SetBestChain` that they make does. -/
def KeepsConsistent (s : NodeState) : NodeOp → Prop
  | .addToBlockIndex env fuel header =>
    s.findIndex header.getHash = none →
      ConnectMeets env.best fuel (s.insertIndex (s.newIndex header))
  | .invalidBlockFound env fuel pindex =>
    ∀ s1, ((s.setFailedValid pindex).eraseValid pindex).invalidChainFound pindex = .ok s1 →
      ConnectMeets env fuel s1
  | .connectBestBlock env fuel => ConnectMeets env fuel s
  | .setBestChain env _ pindexNew => KeepsPool (env.switch pindexNew) s pindexNew
  | _ => True

omit [ScriptEngine] [NodeConfig] [BlockFiles] in
theorem insertIndex_pool {p : CBlockIndex} :
    (s.insertIndex p).mempool = s.mempool ∧ (s.insertIndex p).coinsTip = s.coinsTip := by
  rw [insertIndex, insertValid_eq]
  exact ⟨rfl, rfl⟩

omit [ScriptEngine] [BlockFiles] in
theorem loadBlockIndexDB_mempool (db : BlockTreeDB) (coinsDB : CoinsView) :
    (loadBlockIndexDB db coinsDB).mempool = .empty := by
  unfold loadBlockIndexDB
  dsimp only
  rw [foldl_insertValid_eq]
  cases coinsDB.getBestBlock <;> rfl

theorem step_consistent {o : NodeOp} (hkeeps : KeepsConsistent s o) (hs : MainChain s)
    (hpool : s.mempool.Consistent s.coinsTip) (h : s.step o = some s') :
    s'.mempool.Consistent s'.coinsTip := by
  cases stepped_of_step h with
  | loadBlockIndexDB tree best =>
    rw [loadBlockIndexDB_mempool]
    exact consistent_of_forall_none .empty fun _ => rfl
  | @addToBlockIndex _ _ header _ _ prev call =>
    rcases addToBlockIndex_cases call with ⟨e, rfl⟩ | ⟨hnew, hcases⟩
    · exact hpool
    · have hinsert : (s.insertIndex (s.newIndex header)).mempool.Consistent
          (s.insertIndex (s.newIndex header)).coinsTip := by
        rwa [insertIndex_pool.1, insertIndex_pool.2]
      rcases hcases with ⟨e, rfl⟩ | ⟨s1, r1, h1, hres⟩
      · exact hinsert
      · have hs1 := connectBestBlock_consistent (hs.insertIndex_newIndex prev hnew) hinsert
          (hkeeps hnew) h1
        rcases hres with rfl | ⟨e, rfl⟩
        · exact hs1
        · exact hs1
  | invalidBlockFound mem call =>
    obtain ⟨s1, h1, hres⟩ := invalidBlockFound_cases call
    have hs1 := hs.of_unmoved (unmoved_setFailedValid.trans (invalidChainFound_unmoved h1))
    have hpool1 : s1.mempool.Consistent s1.coinsTip := by
      rw [invalidChainFound_ok h1]
      exact hpool
    rcases hres with rfl | ⟨r, hbest⟩
    · exact hpool1
    · exact connectBestBlock_consistent hs1 hpool1 (hkeeps s1 h1) hbest
  | connectBestBlock call => exact connectBestBlock_consistent hs hpool hkeeps call
  | setBestChain mem running call =>
    exact setBestChain_consistent hs running mem hpool hkeeps call
  | findBlockByHeight call =>
    rw [findBlockByHeight_frame call]
    exact hpool
  | acceptToMemoryPool call =>
    rcases acceptToMemoryPool_ok call with ⟨pool, haccept, rfl⟩ | ⟨e, -, rfl⟩
    · obtain ⟨hacc, rfl⟩ := acceptable_of_accept haccept
      exact (Grown.of_acceptable hpool.toIndexed hacc).consistent hpool
    · exact hpool

/-- In every state of a run whose calls of `SetBestChain` keep the pool consistent, it is: the index
has one entry for each input of the pool and no other, no transaction of the pool has an unspent
record, and each input is an available output of the coins or an output of another transaction of
the pool. -/
theorem mempool_consistent_of_run {ops : List NodeOp}
    (hmeets : Run.Meets KeepsConsistent step init ops) (h : Run.run step init ops = some s) :
    s.mempool.Consistent s.coinsTip :=
  (Run.run_invariant_of_meets
    (P := fun s => MainChain s ∧ s.mempool.Consistent s.coinsTip)
    (fun _ _ _ hkeeps hs h1 => ⟨step_mainChain hs.1 h1, step_consistent hkeeps hs.1 hs.2 h1⟩) hmeets
    ⟨mainChain_init, consistent_of_forall_none .empty fun _ => rfl⟩ h).2

end NodeState

/-! ## Two reorganisations -/

namespace ReorgSample

scoped instance scripts : ScriptEngine := Sample.scripts
scoped instance config : NodeConfig := { Sample.config with fTestNet := false }

scoped instance hashing : Hashing := { Sample.hashing with
  hashHeader header := if header.nNonce = 0 then hashGenesisBlock else
    BitVec.ofNat 256 header.nNonce.toNat }

/-- A transaction that spends the first output of another. -/
def spending (nId : UInt32) (hash : uint256) : CTransaction :=
  ⟨1, [⟨⟨hash, 0⟩, [], 0xFFFFFFFF⟩], [⟨coin, []⟩], nId⟩

def parent : CTransaction := spending 11 7
def child : CTransaction := spending 12 11
def grandchild : CTransaction := spending 13 12

/-- The first branch has the transactions `parent` and `child` in its two blocks. -/
scoped instance files : BlockFiles where
  block pindex := ⟨pindex.header, Sample.coinbase pindex.header.nNonce coin ::
    if pindex.header.nNonce = 1 then [parent] else if pindex.header.nNonce = 2 then [child] else []⟩

def nextHeader (prev : CBlockIndex) (nNonce : UInt32) (hashMerkleRoot : uint256) : CBlockHeader :=
  { Sample.header nNonce hashMerkleRoot with hashPrevBlock := prev.getBlockHash }

def old1 : CBlockIndex := .child Sample.genesis (nextHeader Sample.genesis 1 12)
def old2 : CBlockIndex := .child old1 (nextHeader old1 2 14)
def new1 : CBlockIndex := .child Sample.genesis (nextHeader Sample.genesis 3 3)
def new2 : CBlockIndex := .child new1 (nextHeader new1 4 4)
def new3 : CBlockIndex := .child new2 (nextHeader new2 5 5)

def db : NodeState.BlockTreeDB where
  entries := [Sample.genesis, old1, old2, new1, new2, new3]
  data _ := ⟨⟨BLOCK_VALID_TRANSACTIONS, true, false, false, false⟩, none⟩
  bnBestInvalidWork := 0

/-- The coins at the genesis block, with one that `parent` spends. -/
def coinsDB : CoinsView :=
  (CoinsView.empty.setCoins 7 ⟨false, [⟨coin, []⟩], 1, 1⟩).setBestBlock (some Sample.genesis)

/-- The node connects some blocks, takes a transaction and switches to another branch. -/
def reorgRun (pold : CBlockIndex) (tx : CTransaction) (pnew : CBlockIndex) : List NodeOp :=
  [.loadBlockIndexDB db coinsDB, .setBestChain Sample.bestEnv 0 pold,
    .acceptToMemoryPool 1000 false tx false, .setBestChain Sample.bestEnv 0 pnew]

/-- The node comes back to a branch without `parent`. It takes it into the pool again, and `child` can
stay there. -/
theorem mempool_consistent_of_run_sample : ∃ s,
    Run.run NodeState.step .init (reorgRun old1 child new1) = some s ∧
    s.pindexBest = some new1 ∧ s.mempool.mapTx 11 = some parent ∧ s.mempool.mapTx 12 = some child ∧
    s.mempool.Consistent s.coinsTip := by
  let loaded := NodeState.loadBlockIndexDB db coinsDB
  have hload : NodeState.step .init (.loadBlockIndexDB db coinsDB) = some loaded := by
    rw [NodeState.step, if_pos (by decide +kernel)]
  have hkeeps1 : NodeState.keepsPool Sample.switchEnv loaded old1 (some Sample.genesis) = true := by
    decide +kernel
  have hkeeps2 : ((loaded.step (.setBestChain Sample.bestEnv 0 old1)).all fun s =>
      (s.step (.acceptToMemoryPool 1000 false child false)).all fun s =>
        NodeState.keepsPool Sample.switchEnv s new1 (some Sample.genesis)) = true := by
    decide +kernel
  have hmeets : Run.Meets NodeState.KeepsConsistent NodeState.step .init
      (reorgRun old1 child new1) := by
    refine ⟨trivial, fun s0 h0 => ?_⟩
    obtain rfl := Option.some.inj (hload.symm.trans h0)
    refine ⟨NodeState.keepsPool_of_eq_true hkeeps1, fun s1 h1 => ⟨trivial, fun s2 h2 => ?_⟩⟩
    rw [h1, Option.all_some, h2, Option.all_some] at hkeeps2
    exact ⟨NodeState.keepsPool_of_eq_true hkeeps2, fun _ _ => trivial⟩
  have hrun : ((Run.run NodeState.step .init (reorgRun old1 child new1)).any fun s =>
      s.pindexBest == some new1 && s.mempool.mapTx 11 == some parent &&
        s.mempool.mapTx 12 == some child) = true := by
    decide +kernel
  obtain ⟨s, hs, hstate⟩ := (Option.any_eq_true _ _).mp hrun
  simp only [Bool.and_eq_true, beq_iff_eq] at hstate
  exact ⟨s, hs, hstate.1.1, hstate.1.2, hstate.2, NodeState.mempool_consistent_of_run hmeets hs⟩

/-- With both blocks of the old branch disconnected, `child` is tried before `parent` and refused.
`grandchild` stays in the pool, and its input is nowhere. -/
theorem not_mempool_consistent_of_run : ∃ s,
    Run.run NodeState.step .init (reorgRun old2 grandchild new3) = some s ∧
    s.pindexBest = some new3 ∧ s.mempool.mapTx 13 = some grandchild ∧ s.mempool.mapTx 12 = none ∧
    (s.coinsTip.coinsAt 12).isPruned = true ∧ ¬ s.mempool.Consistent s.coinsTip := by
  have hrun : ((Run.run NodeState.step .init (reorgRun old2 grandchild new3)).any fun s =>
      s.pindexBest == some new3 && s.mempool.mapTx 13 == some grandchild &&
        s.mempool.mapTx 12 == none && (s.coinsTip.coinsAt 12).isPruned) = true := by
    decide +kernel
  obtain ⟨s, hs, hstate⟩ := (Option.any_eq_true _ _).mp hrun
  simp only [Bool.and_eq_true, beq_iff_eq] at hstate
  obtain ⟨⟨⟨hbest, htx⟩, hnone⟩, hpruned⟩ := hstate
  refine ⟨s, hs, hbest, htx, hnone, hpruned, fun hpool => ?_⟩
  rcases hpool.inputs 13 grandchild htx ⟨⟨12, 0⟩, [], 0xFFFFFFFF⟩ List.mem_cons_self with hcoin | ⟨-, hp⟩
  · have hunspent : (s.coinsTip.coinsAt 12).isPruned = false := hcoin.isPruned
    rw [hpruned] at hunspent
    cases hunspent
  · obtain ⟨tx, hmem, -⟩ := hp
    change s.mempool.mapTx 12 = some tx at hmem
    rw [hnone] at hmem
    cases hmem

end ReorgSample

end Terracoin
