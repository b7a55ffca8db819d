import Terracoin.Chain.Candidates
import Terracoin.Chain.Atomicity
import Terracoin.Validation.Reconnect

/-!
# The coins are those of the active chain

`replay` connects the blocks of a chain one after the other on a new node, with the code that
`SetBestChain` has for it. In every run the coins of the node mean the same as the replay of the
chain that ends in their best block, whatever was connected and disconnected on the way
(`coinsTip_replay`). The undo data of an entry is the one that its replay writes, and that is what
takes a block back to the replay of the chain below it.

The two blocks that are exempt from BIP30 must not be on the way: what they overwrite does not come
back. The undo data is kept as it was written.
-/

namespace Terracoin

open CBlockIndex CoinsView

namespace NodeState

variable [Hashing] [ScriptEngine] [NodeConfig] [BlockFiles]

/-! ## Replaying a chain -/

/-- The hashes of the blocks that `fEnforceBIP30` makes an exception for. -/
def bip30Exempt : List uint256 :=
  [0x00000000000a4d0a398161ffc163c503763b1f4360639393e0e4c8e300e0caec,
    0x00000000000743f190a18c5577a3c2d2a1f610ae9601ac046a38084ccb7cd721]

omit [Hashing] [ScriptEngine] [NodeConfig] [BlockFiles] in
theorem enforceBIP30_of_notMem {hash : uint256} (h : hash ∉ bip30Exempt) (nHeight : Nat) :
    enforceBIP30 (some hash) nHeight = true := by
  obtain ⟨h1, h⟩ := not_or.mp fun hmem => h (List.mem_cons.mpr hmem)
  obtain ⟨h2, -⟩ := not_or.mp fun hmem => h (List.mem_cons.mpr hmem)
  unfold enforceBIP30
  dsimp only
  rw [beq_false_of_ne h1, beq_false_of_ne h2, Bool.and_false, Bool.and_false]
  rfl

/-- Every disk operation succeeds, and a block comes at its own time. -/
def replayEnv : SetBestChainEnv where
  fReadBlock _ := true
  fReadUndo _ := true
  connect pindex := ⟨(BlockFiles.block pindex).getBlockTime, true, true, true, true⟩
  fCatchingUp := false
  fCacheFull := false
  fDiskSpace := true
  fFlushCoins := true
  nAcceptTime tx := tx.nLockTime.toNat
  nStack := 0

/-- One block, on a node that has not seen it. -/
def replayBlock (view : CoinsView) (pindex : CBlockIndex) : Check CoinsView :=
  (connectIndex replayEnv .init view pindex).2

/-- The blocks of the chain from the first one on, on a new node. -/
def replay : CBlockIndex → Check CoinsView
  | .root h => replayBlock .empty (.root h)
  | .child p h => do
    let view ← replay p
    replayBlock view (.child p h)

/-- The replay of a chain that may be empty. -/
def replayTip (tip : Option CBlockIndex) : Check CoinsView := tip.elim (.ok .empty) replay

/-- The view means the same as the replay of the chain of its best block, and is regular. -/
def Replays (view : CoinsView) : Prop :=
  ∃ v, replayTip view.getBestBlock = .ok v ∧ Equiv view v ∧ view.Regular

/-- The undo data that the replay of an entry writes. -/
def ReplayUndo (pindex : CBlockIndex) (undo : Option CBlockUndo) : Prop :=
  ∃ pprev v coins blockundo, pindex.pprev = some pprev ∧ replay pprev = .ok v ∧
    (BlockFiles.block pindex).getHash ≠ hashGenesisBlock ∧ (BlockFiles.block pindex).Checked ∧
    connectCoins (BlockFiles.block pindex) pindex (some pindex.getBlockHash) v =
      .ok (coins, blockundo) ∧ undo = some blockundo

/-- Every entry with undo data has that of its replay. -/
def UndoKept (entries : List CBlockIndex) (data : CBlockIndex → BlockData) : Prop :=
  ∀ p ∈ entries, (data p).nStatus.haveUndo = true → ReplayUndo p (data p).undo

/-- An entry of the index, on the genesis block of the network and not exempt from BIP30. -/
structure Ordinary (entries : List CBlockIndex) (pindex : CBlockIndex) : Prop where
  mem : pindex ∈ entries
  base : pindex.base.getBlockHash = hashGenesisBlock
  bip30 : pindex.getBlockHash ∉ bip30Exempt

variable {entries : List CBlockIndex} {p q : CBlockIndex} {v w w' : CoinsView}
variable {env : SetBestChainEnv} {s s' : NodeState}

theorem replay_eq (p : CBlockIndex) :
    replay p = (do let view ← replayTip p.pprev; replayBlock view p) := by
  cases p with
  | root h => rfl
  | child p h => rfl

theorem replayTip_of_pprev (hv : replayTip p.pprev = .ok v) (hw : replayBlock v p = .ok w) :
    replay p = .ok w := by
  rw [replay_eq]
  exact Checked.bind_ok.mpr ⟨v, hv, hw⟩

theorem replayBlock_ok (h : replayBlock v p = .ok w) :
    (BlockFiles.block p).getHash = p.getBlockHash ∧
      ∃ data, connectBlock (replayEnv.connect p) (BlockFiles.block p) p (some p.getBlockHash)
        .unconnected v false = (data, .ok w) := by
  have hcall : connectIndex replayEnv .init v p = ((connectIndex replayEnv .init v p).1, .ok w) :=
    Prod.ext rfl h
  obtain ⟨block, data, hread, hconn, -⟩ := connectIndex_ok hcall
  obtain ⟨-, rfl, hhash⟩ := readFromDisk_ok.mp hread
  exact ⟨hhash, data, hconn⟩

theorem replayBlock_of_connectBlock {data : BlockData}
    (hhash : (BlockFiles.block p).getHash = p.getBlockHash)
    (h : connectBlock (replayEnv.connect p) (BlockFiles.block p) p (some p.getBlockHash) .unconnected
      v false = (data, .ok w)) : replayBlock v p = .ok w := by
  have hread : readFromDisk replayEnv p = .ok (BlockFiles.block p) :=
    readFromDisk_ok.mpr ⟨rfl, rfl, hhash⟩
  have hinit : (init.data p) = .unconnected := rfl
  rw [replayBlock, connectIndex, hread]
  dsimp only
  rw [hinit, h]

/-! ## Connecting -/

theorem connectBlock_regular {cenv : ConnectEnv} {data data' : BlockData}
    (hbase : p.base.getBlockHash = hashGenesisBlock)
    (hhash : (BlockFiles.block p).getHash = p.getBlockHash) (hw : w.Regular)
    (h : connectBlock cenv (BlockFiles.block p) p (some p.getBlockHash) data w false =
      (data', .ok w')) : w'.Regular := by
  by_cases hgenesis : (BlockFiles.block p).getHash = hashGenesisBlock
  · obtain ⟨-, rfl⟩ := connectBlock_ok_genesis hgenesis h
    exact hw.setBestBlock _
  · obtain ⟨hb, -, coins, blockundo, hcoins, rfl, -⟩ := connectBlock_ok hgenesis h
    cases p with
    | root header => exact absurd (hhash.trans hbase) hgenesis
    | child q header => exact (regular_connectCoins rfl hb hw hcoins).setBestBlock _

theorem replay_regular (hbase : p.base.getBlockHash = hashGenesisBlock) (h : replay p = .ok v) :
    v.Regular := by
  induction p generalizing v with
  | root header =>
    obtain ⟨hhash, data, hconn⟩ := replayBlock_ok h
    exact connectBlock_regular hbase hhash regular_empty hconn
  | child q header ih =>
    obtain ⟨view, hview, h⟩ := Checked.bind_ok.mp h
    obtain ⟨hhash, data, hconn⟩ := replayBlock_ok h
    exact connectBlock_regular hbase hhash (ih hbase hview) hconn

theorem replay_tip (h : replay p = .ok v) : v.getBestBlock = some p := by
  rw [replay_eq] at h
  obtain ⟨view, -, h⟩ := Checked.bind_ok.mp h
  obtain ⟨-, data, hconn⟩ := replayBlock_ok h
  exact (connectBlock_tip hconn).2

/-- A block that connects to the replay of the chain below it connects in the replay. -/
theorem connectIndex_replays (hbase : p.base.getBlockHash = hashGenesisBlock) (hw : Replays w)
    (h : connectIndex env s w p = (s', .ok w')) : Replays w' := by
  obtain ⟨v, hv, hequiv, hregular⟩ := hw
  obtain ⟨block, data, hread, hconn, -⟩ := connectIndex_ok h
  obtain ⟨-, rfl, hhash⟩ := readFromDisk_ok.mp hread
  obtain ⟨hprev, htip⟩ := connectBlock_tip hconn
  have htime : (BlockFiles.block p).getBlockTime ≤
      (replayEnv.connect p).nAdjustedTime + 15 * 60 := by
    change _ ≤ ((BlockFiles.block p).getBlockTime : Int) + 15 * 60
    omega
  obtain ⟨stored, v', hconn', hequiv'⟩ := connectBlock_congr hequiv
    (show (replayEnv.connect p).diskWorks = true from rfl) htime hconn .unconnected
  rw [← hprev] at hv
  have hreplay : replayTip w'.getBestBlock = .ok v' := by
    rw [htip]
    exact replayTip_of_pprev hv (replayBlock_of_connectBlock hhash hconn')
  exact ⟨v', hreplay, hequiv', connectBlock_regular hbase hhash hregular hconn⟩

/-- What it writes as its undo data is what the replay writes, also if the call fails later. -/
theorem connectIndex_undoKept (hbase : p.base.getBlockHash = hashGenesisBlock) (hw : Replays w)
    (hs : UndoKept entries s.data) {r : Check CoinsView}
    (h : connectIndex env s w p = (s', r)) : UndoKept entries s'.data := by
  unfold connectIndex at h
  split at h
  · obtain ⟨rfl, -⟩ := Prod.mk.inj h
    exact hs
  · next block hread =>
    obtain ⟨rfl, -⟩ := Prod.mk.inj h
    obtain ⟨-, rfl, hhash⟩ := readFromDisk_ok.mp hread
    intro q hqmem
    by_cases hq : q = p
    · subst hq
      dsimp only
      rw [Function.update_self]
      intro hhave
      rcases connectBlock_data hhave with
        ⟨hold, heq⟩ | ⟨hgenesis, hb, hprev, coins, blockundo, hcoins, heq⟩
      · rw [heq]
        exact hs q hqmem hold
      · obtain ⟨v, hv, hequiv, -⟩ := hw
        obtain ⟨coins', hcoins', -⟩ := connectCoins_congr hequiv hcoins
        cases q with
        | root header => exact absurd (hhash.trans hbase) hgenesis
        | child q header =>
          rw [← hprev] at hv
          exact ⟨q, v, coins', blockundo, rfl, hv, hgenesis, hb, hcoins', heq⟩
    · dsimp only
      rw [Function.update_of_ne hq]
      exact hs q hqmem

/-- The loop over `vConnect`. -/
theorem connectBlocks_replays {vConnect : List CBlockIndex}
    (hbase : ∀ p ∈ vConnect, p.base.getBlockHash = hashGenesisBlock) (hw : Replays w)
    (hs : UndoKept entries s.data)
    {r : Except (CBlockIndex × Failure) (CoinsView × List CTransaction)}
    (h : connectBlocks env s w vConnect = (s', r)) :
    UndoKept entries s'.data ∧ ∀ w' vDelete, r = .ok (w', vDelete) → Replays w' := by
  induction vConnect generalizing s w r with
  | nil =>
    obtain ⟨rfl, rfl⟩ := Prod.mk.inj h
    refine ⟨hs, fun w' vDelete hr => ?_⟩
    obtain ⟨rfl, -⟩ := Prod.mk.inj (Except.ok.inj hr)
    exact hw
  | cons p vConnect ih =>
    have hp := hbase p List.mem_cons_self
    rw [connectBlocks] at h
    split at h
    · next s1 e h1 =>
      obtain ⟨rfl, rfl⟩ := Prod.mk.inj h
      exact ⟨connectIndex_undoKept hp hw hs h1, fun _ _ hr => by cases hr⟩
    · next s1 view1 h1 =>
      have hrest := fun r => ih (r := r) (fun q hq => hbase q (List.mem_cons_of_mem _ hq))
        (connectIndex_replays hp hw h1) (connectIndex_undoKept hp hw hs h1)
      split at h
      · next s2 e h2 =>
        obtain ⟨rfl, rfl⟩ := Prod.mk.inj h
        exact ⟨(hrest _ h2).1, fun _ _ hr => by cases hr⟩
      · next s2 view2 vDelete2 h2 =>
        obtain ⟨rfl, rfl⟩ := Prod.mk.inj h
        refine ⟨(hrest _ h2).1, fun w' vDelete hr => ?_⟩
        obtain ⟨rfl, -⟩ := Prod.mk.inj (Except.ok.inj hr)
        exact (hrest _ h2).2 view2 vDelete2 rfl

/-- The best block of a replayed view can be taken back, which leads to the replay of the chain
below it. -/
theorem exists_disconnectBlock {data : CBlockIndex → BlockData} (hp : Ordinary entries p)
    (hundo : UndoKept entries data) (hw : Replays w) (htip : w.getBestBlock = some p)
    (hhave : (data p).nStatus.haveUndo = true) :
    ∃ w', disconnectBlock (BlockFiles.block p) p (data p) true w = .ok (w', true) ∧ Replays w' := by
  obtain ⟨v, hv, hequiv, hregular⟩ := hw
  obtain ⟨pprev, vprev, coins, blockundo, hprev, hvprev, hgenesis, hb, hcoins, heq⟩ :=
    hundo p hp.mem hhave
  rw [htip] at hv
  change replay p = .ok v at hv
  rw [replay_eq, hprev] at hv
  obtain ⟨vprev', hvprev', hblock⟩ := Checked.bind_ok.mp hv
  obtain rfl := Except.ok.inj (hvprev.symm.trans hvprev')
  obtain ⟨hhash, stored, hconn⟩ := replayBlock_ok hblock
  obtain ⟨-, -, coins', blockundo', hcoins', rfl, -⟩ := connectBlock_ok hgenesis hconn
  obtain ⟨rfl, rfl⟩ := Prod.mk.inj (Except.ok.inj (hcoins.symm.trans hcoins'))
  have hbase : pprev.base.getBlockHash = hashGenesisBlock := by
    rw [base_of_mem_chain (mem_chain_of_pprev hprev)]
    exact hp.base
  obtain ⟨back, hdisc, hback, hregular'⟩ := disconnectBlock_connected hprev hb
    (enforceBIP30_of_notMem hp.bip30 _) (replay_regular hbase hvprev) (replay_tip hvprev) hcoins
    hhave heq hequiv hregular
  refine ⟨back, hdisc, vprev, ?_, hback, hregular'⟩
  rw [show back.getBestBlock = some pprev from hback.pindexTip.trans (replay_tip hvprev)]
  exact hvprev

theorem disconnectBlock_replays {data : CBlockIndex → BlockData} (hp : Ordinary entries p)
    (hundo : UndoKept entries data) (hw : Replays w) {fReadUndo fClean : Bool}
    (h : disconnectBlock (BlockFiles.block p) p (data p) fReadUndo w = .ok (w', fClean)) :
    Replays w' := by
  obtain ⟨htip, hhave, -, -, -, -, rfl, -⟩ := disconnectBlock_ok.mp h
  obtain ⟨back, hdisc, hback⟩ := exists_disconnectBlock hp hundo hw htip hhave
  obtain ⟨rfl, -⟩ := Prod.mk.inj (Except.ok.inj (hdisc.symm.trans h))
  exact hback

theorem disconnectBlocks_replays {data : CBlockIndex → BlockData} {vDisconnect : List CBlockIndex}
    {vResurrect : List CTransaction} (hord : ∀ p ∈ vDisconnect, Ordinary entries p)
    (hundo : UndoKept entries data) (hw : Replays w)
    (h : disconnectBlocks env data w vDisconnect = .ok (w', vResurrect)) : Replays w' := by
  induction vDisconnect generalizing w vResurrect with
  | nil =>
    obtain ⟨rfl, -⟩ := Prod.mk.inj (Except.ok.inj h)
    exact hw
  | cons p vDisconnect ih =>
    obtain ⟨block, view1, vResurrect1, hread, hdisc, hrest, -⟩ := disconnectBlocks_cons_ok.mp h
    obtain ⟨-, rfl, -⟩ := readFromDisk_ok.mp hread
    have hview1 := disconnectBlock_replays (hord p List.mem_cons_self) hundo hw hdisc
    exact ih (fun q hq => hord q (List.mem_cons_of_mem _ hq)) hview1 hrest

/-! ## The invariant -/

structure Replayed (s : NodeState) : Prop where
  coins : Replays s.coinsTip
  undo : UndoKept s.mapBlockIndex s.data
  bip30 : ∀ p ∈ s.mapBlockIndex, p.getBlockHash ∉ bip30Exempt

/-- The coins, the index and the undo data have not changed. -/
structure CoinsKept (s s' : NodeState) : Prop where
  coinsTip : s'.coinsTip = s.coinsTip
  mapBlockIndex : s'.mapBlockIndex = s.mapBlockIndex
  undo : ∀ p, (s'.data p).nStatus.haveUndo = (s.data p).nStatus.haveUndo ∧
    (s'.data p).undo = (s.data p).undo

theorem Replayed.of_kept (hs : Replayed s) (h : CoinsKept s s') : Replayed s' := by
  refine ⟨h.coinsTip ▸ hs.coins, fun p hp hhave => ?_, h.mapBlockIndex ▸ hs.bip30⟩
  rw [(h.undo p).2]
  exact hs.undo p (h.mapBlockIndex ▸ hp) ((h.undo p).1 ▸ hhave)

namespace CoinsKept

variable {s1 s2 s3 : NodeState}

omit [Hashing] [ScriptEngine] [NodeConfig] [BlockFiles]

theorem refl (s : NodeState) : CoinsKept s s := ⟨rfl, rfl, fun _ => ⟨rfl, rfl⟩⟩

theorem trans (h : CoinsKept s1 s2) (h' : CoinsKept s2 s3) : CoinsKept s1 s3 :=
  ⟨h'.coinsTip.trans h.coinsTip, h'.mapBlockIndex.trans h.mapBlockIndex,
    fun p => ⟨(h'.undo p).1.trans (h.undo p).1, (h'.undo p).2.trans (h.undo p).2⟩⟩

theorem abortOn (e : Failure) : CoinsKept s (s.abortOn e) := ⟨rfl, rfl, fun _ => ⟨rfl, rfl⟩⟩

theorem setFailedValid (pindex : CBlockIndex) : CoinsKept s (s.setFailedValid pindex) := by
  refine ⟨rfl, rfl, fun p => ?_⟩
  by_cases hp : p = pindex
  · subst hp
    simp [NodeState.setFailedValid]
  · simp [NodeState.setFailedValid, hp]

theorem setFailedChild (pindex : CBlockIndex) : CoinsKept s (s.setFailedChild pindex) := by
  refine ⟨rfl, rfl, fun p => ?_⟩
  by_cases hp : p = pindex
  · subst hp
    simp [NodeState.setFailedChild]
  · simp [NodeState.setFailedChild, hp]

theorem poolOnly (h : PoolOnly s s') : CoinsKept s s' := by
  rw [h.frame]
  exact ⟨rfl, rfl, fun _ => ⟨rfl, rfl⟩⟩

theorem invalidChainFound {pindexNew : CBlockIndex}
    (h : s.invalidChainFound pindexNew = .ok s') : CoinsKept s s' := by
  rw [invalidChainFound_ok h]
  exact ⟨rfl, rfl, fun _ => ⟨rfl, rfl⟩⟩

variable [Hashing]

theorem eraseValid (pindex : CBlockIndex) : CoinsKept s (s.eraseValid pindex) :=
  ⟨rfl, rfl, fun _ => ⟨rfl, rfl⟩⟩

theorem markFailed {pindexTest : CBlockIndex} : CoinsKept s (markFailed pindexTest s p) := by
  induction p generalizing s with
  | root header =>
    rw [NodeState.markFailed]
    split
    · exact refl s
    · exact (setFailedChild _).trans (eraseValid _)
  | child p header ih =>
    rw [NodeState.markFailed]
    split
    · exact refl s
    · exact ((setFailedChild _).trans (eraseValid _)).trans ih

theorem invalidBlockFound {reorganise : NodeState → Except Halt NodeState} {pindex : CBlockIndex}
    (hnext : s.pnext pindex = none) (h : invalidBlockFound reorganise s pindex = .ok s') :
    CoinsKept s s' := by
  obtain ⟨s1, h1, h⟩ := Checked.bind_ok.mp h
  have hnext1 : s1.pnext pindex = none := by
    rw [invalidChainFound_ok h1]
    exact hnext
  rw [if_neg (by simp [hnext1])] at h
  obtain rfl := Except.ok.inj h
  exact ((setFailedValid _).trans (eraseValid _)).trans (invalidChainFound h1)

end CoinsKept

theorem Replays.dropPruned (h : Replays w) : Replays w.dropPruned := by
  obtain ⟨v, hv, hequiv, hregular⟩ := h
  exact ⟨v, hv, (equiv_dropPruned w).trans hequiv, hregular.dropPruned⟩

variable {reorganise : NodeState → Except Halt NodeState} {pindexNew : CBlockIndex}

/-- What a call of `SetBestChain` does to the coins: nothing, or the two loops are run, and what
they make of the coins is stored. -/
theorem setBestChain_coins (hmain : MainChain s) (hrun : s.fRequestShutdown = false)
    (hmem : pindexNew ∈ s.mapBlockIndex) {r : Check Unit}
    (h : s.setBestChain reorganise env pindexNew = .ok (s', r)) :
    CoinsKept s s' ∨ ∃ pfork view vResurrect s1 r1, s.fork pindexNew = .ok pfork ∧
      disconnectBlocks env s.data s.coinsTip (s.vDisconnect pfork) = .ok (view, vResurrect) ∧
      connectBlocks env s view (vConnect pfork pindexNew) = (s1, r1) ∧
      (CoinsKept s1 s' ∨ ∃ view' vDelete, r1 = .ok (view', vDelete) ∧
        (CoinsKept { s1 with coinsTip := view' } s' ∨
          CoinsKept { s1 with coinsTip := view'.dropPruned } s')) := by
  obtain ⟨pfork, hfork, h⟩ := setBestChain_ok.mp h
  cases r with
  | ok u =>
    obtain ⟨view, vResurrect, s1, view', vDelete, s2, hdisc, hconn, hpush, hmemory⟩ :=
      setBestChainFrom_ok h
    obtain ⟨s3, s4, hres, hdel, rfl⟩ := updateMemory_ok hmemory
    have hpool := (foldlM_poolOnly (fun _ _ _ => acceptToMemoryPool_poolOnly) hres).trans
      (foldlM_poolOnly (fun _ _ _ => deleteTransaction_poolOnly) hdel)
    have hkept : ∀ {s5}, CoinsKept s5 s2 → CoinsKept s5 (setTip s4 pindexNew) := by
      intro s5 h5
      rw [hpool.frame]
      exact ⟨h5.coinsTip, h5.mapBlockIndex, h5.undo⟩
    refine .inr ⟨pfork, view, vResurrect, s1, _, hfork, hdisc, hconn, .inr ⟨view', vDelete, rfl, ?_⟩⟩
    rw [pushCoins_ok hpush] at hkept
    split at hkept
    · exact .inr (hkept ⟨rfl, rfl, fun _ => ⟨rfl, rfl⟩⟩)
    · exact .inl (hkept ⟨rfl, rfl, fun _ => ⟨rfl, rfl⟩⟩)
  | error e =>
    rcases setBestChainFrom_error h with ⟨-, rfl⟩ | ⟨view, vResurrect, hdisc, hcases⟩
    · exact .inl (.abortOn e)
    rcases hcases with
      ⟨s1, pindex, s2, hconn, hfailed, rfl⟩ | ⟨s1, view', vDelete, s2, hconn, hpush, rfl⟩
    · refine .inr ⟨pfork, view, vResurrect, s1, _, hfork, hdisc, hconn,
        .inl (.trans ?_ (.abortOn e))⟩
      unfold connectFailed at hfailed
      split at hfailed
      · obtain ⟨s3, h3, hfailed⟩ := Checked.bind_ok.mp hfailed
        have hnext : s3.pnext pindex = none := by
          rw [invalidChainFound_ok h3, (connectBlocks_recorded hconn).frame]
          exact hmain.pnext_of_vConnect hrun hmem hfork (connectBlocks_error_mem hconn)
        exact (CoinsKept.invalidChainFound h3).trans (CoinsKept.invalidBlockFound hnext hfailed)
      · exact Except.ok.inj hfailed ▸ .refl s1
    · refine .inr ⟨pfork, view, vResurrect, s1, _, hfork, hdisc, hconn, .inr ⟨view', vDelete, rfl, ?_⟩⟩
      rw [(pushCoins_error hpush).1]
      exact .inl (.abortOn e)

/-- A call of `SetBestChain`. -/
theorem setBestChain_replayed (hmain : MainChain s) (hrun : s.fRequestShutdown = false)
    (hmem : pindexNew ∈ s.mapBlockIndex) (hs : Replayed s) {r : Check Unit}
    (h : s.setBestChain reorganise env pindexNew = .ok (s', r)) : Replayed s' := by
  rcases setBestChain_coins hmain hrun hmem h with
    hkept | ⟨pfork, view, vResurrect, s1, r1, hfork, hdisc, hconn, hcases⟩
  · exact hs.of_kept hkept
  have hord : ∀ p ∈ s.vDisconnect pfork, Ordinary s.mapBlockIndex p := by
    intro p hp
    obtain ⟨best, hbest, hp⟩ := mem_chainOf.mp ((hmain.mem_vDisconnect hrun hmem hfork).mp hp).1
    have hpmem := hmain.tree.mem_of_mem_chain (hmain.known best hbest) hp
    exact ⟨hpmem, hmain.tree.base_hash hpmem, hs.bip30 p hpmem⟩
  have hbase : ∀ p ∈ vConnect pfork pindexNew, p.base.getBlockHash = hashGenesisBlock := by
    intro p hp
    exact hmain.tree.base_hash
      (hmain.tree.mem_of_mem_chain hmem ((hmain.mem_vConnect hrun hmem hfork).mp hp).1)
  have hview := disconnectBlocks_replays hord hs.undo hs.coins hdisc
  obtain ⟨hundo, hok⟩ := connectBlocks_replays hbase hview hs.undo hconn
  have hframe := (connectBlocks_recorded hconn).frame
  have hmap : s1.mapBlockIndex = s.mapBlockIndex := by rw [hframe]
  have hcoins : s1.coinsTip = s.coinsTip := by rw [hframe]
  have hstored : ∀ view', Replays view' → Replayed { s1 with coinsTip := view' } :=
    fun view' hview' => ⟨hview', hmap ▸ hundo, hmap ▸ hs.bip30⟩
  rcases hcases with hkept | ⟨view', vDelete, rfl, hkept⟩
  · exact Replayed.of_kept ⟨hcoins ▸ hs.coins, hmap ▸ hundo, hmap ▸ hs.bip30⟩ hkept
  · have hview' := hok view' vDelete rfl
    rcases hkept with hkept | hkept
    · exact (hstored _ hview').of_kept hkept
    · exact (hstored _ hview'.dropPruned).of_kept hkept

section Keeps

variable {P : NodeState → Prop}

/-- A property of the coins, the index and the undo data that every call of `SetBestChain` keeps is
kept by `ConnectBestBlock`. -/
theorem connectBestBlock_keeps (hkept : ∀ s s', CoinsKept s s' → P s → P s')
    (hset : ∀ reorganise env s s' p r, MainChain s → s.fRequestShutdown = false →
      p ∈ s.mapBlockIndex → P s → s.setBestChain reorganise env p = .ok (s', r) → P s')
    {best : ConnectBestEnv} {fuel : Nat} {r : Check Unit} (hmain : MainChain s) (hs : P s)
    (h : connectBestBlock best fuel s = .ok (s', r)) : P s' := by
  induction fuel generalizing s with
  | zero => cases h
  | succ fuel ih =>
    rcases connectBestBlock_cases h with ⟨-, rfl, -⟩ | ⟨top, htop, hcases⟩
    · exact hs
    rcases hcases with ⟨-, rfl, -⟩ | ⟨pindexTest, s1, -, h1, h⟩ | ⟨vAttach, hcheck, h⟩
    · exact hs
    · exact ih (hmain.of_unmoved (markFailed_unmoved.trans (invalidChainFound_unmoved h1)))
        (hkept _ _ (CoinsKept.markFailed.trans (CoinsKept.invalidChainFound h1)) hs) h
    · have hknown := hmain.attach_known htop hcheck
      have hcall : ∀ s1 s2 r1, ∀ p ∈ vAttach,
          (MainChain s1 ∧ s1.mapBlockIndex = s.mapBlockIndex) ∧ P s1 →
          s1.fRequestShutdown = false →
          s1.setBestChain (fun s => (connectBestBlock best fuel s).map Prod.fst) (best.switch p) p =
            .ok (s2, r1) → (MainChain s2 ∧ s2.mapBlockIndex = s.mapBlockIndex) ∧ P s2 := by
        intro s1 s2 r1 p hp hs1 hrun h1
        have hpmem : p ∈ s1.mapBlockIndex := hs1.1.2 ▸ hknown p hp
        obtain ⟨hs2, hmap⟩ := setBestChain_mainChain hs1.1.1 hrun hpmem h1
        exact ⟨⟨hs2, hmap.trans hs1.1.2⟩, hset _ _ _ _ _ _ hs1.1.1 hrun hpmem hs1.2 h1⟩
      exact attachBlocks_invariant
        (P := fun s' => (MainChain s' ∧ s'.mapBlockIndex = s.mapBlockIndex) ∧ P s')
        (fun s1 hs1 => hkept s1 _ ⟨rfl, rfl, fun _ => ⟨rfl, rfl⟩⟩ hs1.2) (fun _ hs1 => hs1.2)
        (fun s1 s2 u => hcall s1 s2 (.ok u))
        (fun s1 s2 e p hp hs1 hrun h1 => (hcall s1 s2 (.error e) p hp hs1 hrun h1).2)
        ⟨⟨hmain, rfl⟩, hs⟩ h

/-- ... and by the operations of the node, if loading makes it true and a new entry keeps it. -/
theorem step_keeps (hkept : ∀ s s', CoinsKept s s' → P s → P s')
    (hset : ∀ reorganise env s s' p r, MainChain s → s.fRequestShutdown = false →
      p ∈ s.mapBlockIndex → P s → s.setBestChain reorganise env p = .ok (s', r) → P s')
    {o : NodeOp} (hload : ∀ db coinsDB, o = .loadBlockIndexDB db coinsDB →
      (∀ p ∈ coinsDB.getBestBlock, p ∈ db.entries) → P (loadBlockIndexDB db coinsDB))
    (hinsert : ∀ env fuel header, o = .addToBlockIndex env fuel header →
      s.newIndex header ∉ s.mapBlockIndex → P (s.insertIndex (s.newIndex header)))
    (hmain : MainChain s) (hs : P s) (h : s.step o = some s') : P s' := by
  have hbest : ∀ {best fuel s s' r}, MainChain s → P s →
      NodeState.connectBestBlock best fuel s = .ok (s', r) → P s' :=
    fun hmain hs h => connectBestBlock_keeps hkept hset hmain hs h
  cases stepped_of_step h with
  | loadBlockIndexDB tree best => exact hload _ _ rfl best
  | @addToBlockIndex _ _ header _ _ prev call =>
    rcases addToBlockIndex_cases call with ⟨e, rfl⟩ | ⟨hnew, hcases⟩
    · exact hkept _ _ (.abortOn e) hs
    have hmem : s.newIndex header ∉ s.mapBlockIndex := fun hmem =>
      findIndex_none hnew _ hmem newIndex_hash
    have hinserted := hinsert _ _ _ rfl hmem
    rcases hcases with ⟨e, rfl⟩ | ⟨s1, r1, h1, hres⟩
    · exact hkept _ _ (.abortOn e) hinserted
    · have hs1 := hbest (hmain.insertIndex_newIndex prev hnew) hinserted h1
      rcases hres with rfl | ⟨e, rfl⟩
      · exact hs1
      · exact hkept _ _ (.abortOn e) hs1
  | invalidBlockFound mem call =>
    obtain ⟨s1, h1, hres⟩ := invalidBlockFound_cases call
    have hs1 := hkept _ _ (((CoinsKept.setFailedValid _).trans (CoinsKept.eraseValid _)).trans
      (CoinsKept.invalidChainFound h1)) hs
    rcases hres with rfl | ⟨r, hcall⟩
    · exact hs1
    · exact hbest (hmain.of_unmoved (unmoved_setFailedValid.trans (invalidChainFound_unmoved h1)))
        hs1 hcall
  | connectBestBlock call => exact hbest hmain hs call
  | setBestChain mem running call => exact hset _ _ _ _ _ _ hmain running mem hs call
  | findBlockByHeight call =>
    rw [findBlockByHeight_frame call]
    exact hkept s _ ⟨rfl, rfl, fun _ => ⟨rfl, rfl⟩⟩ hs
  | acceptToMemoryPool call => exact hkept _ _ (.poolOnly (acceptToMemoryPool_poolOnly call)) hs

end Keeps

/-! ## Runs -/

/-- What is loaded is what a replay writes, and no block is exempt from BIP30. -/
def Replayable : NodeOp → Prop
  | .loadBlockIndexDB db coinsDB => Replays coinsDB ∧ UndoKept db.entries db.data ∧
      ∀ p ∈ db.entries, p.getBlockHash ∉ bip30Exempt
  | .addToBlockIndex _ _ header => header.getHash ∉ bip30Exempt
  | _ => True

omit [ScriptEngine] [BlockFiles] in
theorem loadBlockIndexDB_coins (db : BlockTreeDB) (coinsDB : CoinsView) :
    (loadBlockIndexDB db coinsDB).mapBlockIndex = db.entries ∧
      (loadBlockIndexDB db coinsDB).data = db.data ∧
      (loadBlockIndexDB db coinsDB).coinsTip = coinsDB := by
  unfold loadBlockIndexDB
  dsimp only
  rw [foldl_insertValid_eq]
  cases coinsDB.getBestBlock <;> exact ⟨rfl, rfl, rfl⟩

theorem loadBlockIndexDB_replayed {db : BlockTreeDB} {coinsDB : CoinsView}
    (h : Replayable (.loadBlockIndexDB db coinsDB)) : Replayed (loadBlockIndexDB db coinsDB) := by
  obtain ⟨hcoins, hundo, hexempt⟩ := h
  obtain ⟨hmap, hdata, htip⟩ := loadBlockIndexDB_coins db coinsDB
  refine ⟨by rw [htip]; exact hcoins, ?_, fun p hp => hexempt p (hmap ▸ hp)⟩
  rw [hmap, hdata]
  exact hundo

theorem insertIndex_replayed {header : CBlockHeader} (hs : Replayed s)
    (hheader : header.getHash ∉ bip30Exempt) : Replayed (s.insertIndex (s.newIndex header)) := by
  rw [insertIndex, insertValid_eq]
  refine ⟨hs.coins, fun p hp => ?_, fun p hp => ?_⟩
  · dsimp only at hp ⊢
    by_cases hne : p = s.newIndex header
    · subst hne
      rw [Function.update_self]
      intro hhave
      cases hhave
    · rw [Function.update_of_ne hne]
      exact hs.undo p ((List.mem_cons.mp hp).resolve_left hne)
  · rcases List.mem_cons.mp hp with rfl | hp
    · exact newIndex_hash ▸ hheader
    · exact hs.bip30 p hp

theorem step_replayed {o : NodeOp} (ho : Replayable o) (hmain : MainChain s) (hs : Replayed s)
    (h : s.step o = some s') : Replayed s' := by
  refine step_keeps (fun _ _ hkept hs => hs.of_kept hkept)
    (fun _ _ _ _ _ _ hmain hrun hmem hs h => setBestChain_replayed hmain hrun hmem hs h)
    ?_ ?_ hmain hs h
  · rintro db coinsDB rfl -
    exact loadBlockIndexDB_replayed ho
  · rintro env fuel header rfl -
    exact insertIndex_replayed hs ho

theorem replayed_init : Replayed init := by
  refine ⟨⟨.empty, rfl, CoinsView.Equiv.refl _, regular_empty⟩, fun p hp => ?_, fun p hp => ?_⟩
  · cases hp
  · cases hp

theorem replayed_of_run {ops : List NodeOp} (hops : ∀ o ∈ ops, Replayable o)
    (h : Run.run step init ops = some s) : MainChain s ∧ Replayed s :=
  Run.run_invariant (P := fun s => MainChain s ∧ Replayed s)
    (fun _ o ho _ hs h1 => ⟨step_mainChain hs.1 h1, step_replayed (hops o ho) hs.1 hs.2 h1⟩)
    ⟨mainChain_init, replayed_init⟩ h

/-- **The coins are those of the active chain.** In every state a run reaches, the coins mean the
same as those of a new node that has connected the blocks of the chain of their best block one after the
other; and unless a shutdown has been requested, that block is `pindexBest`. What such a state has
on disk can be loaded again, the coins of one state with the index of another. -/
theorem coinsTip_replay {ops : List NodeOp} (hops : ∀ o ∈ ops, Replayable o)
    (h : Run.run step init ops = some s) :
    (∃ v, replayTip s.coinsTip.getBestBlock = .ok v ∧ Equiv s.coinsTip v) ∧
    (s.fRequestShutdown = false → s.coinsTip.getBestBlock = s.pindexBest) ∧
    ∀ ops' s' bnBestInvalidWork, (∀ o ∈ ops', Replayable o) → Run.run step init ops' = some s' →
      Replayable (.loadBlockIndexDB ⟨s'.mapBlockIndex, s'.data, bnBestInvalidWork⟩
        s.coinsTip.dropPruned) := by
  obtain ⟨hmain, hs⟩ := replayed_of_run hops h
  obtain ⟨v, hv, hequiv, -⟩ := hs.coins
  refine ⟨⟨v, hv, hequiv⟩, hmain.coins, fun ops' s' _ hops' h' => ?_⟩
  have hs' := (replayed_of_run hops' h').2
  exact ⟨hs.coins.dropPruned, hs'.undo, hs'.bip30⟩

/-- **Nodes with the same best block have the same coins**, whatever each of them has connected and
disconnected before. -/
theorem coinsTip_agree {ops ops' : List NodeOp} (hops : ∀ o ∈ ops, Replayable o)
    (hops' : ∀ o ∈ ops', Replayable o) (h : Run.run step init ops = some s)
    (h' : Run.run step init ops' = some s')
    (htip : s.coinsTip.getBestBlock = s'.coinsTip.getBestBlock) :
    Equiv s.coinsTip s'.coinsTip := by
  obtain ⟨v, hv, hequiv, -⟩ := (replayed_of_run hops h).2.coins
  obtain ⟨v', hv', hequiv', -⟩ := (replayed_of_run hops' h').2.coins
  rw [← htip] at hv'
  obtain rfl := Except.ok.inj (hv.symm.trans hv')
  exact hequiv.trans hequiv'.symm

end NodeState

/-! ## Two ways to a tip -/

namespace Sample

/-- The genesis block and a block on top of it. -/
def straightRun : List NodeOp :=
  [.addToBlockIndex addEnv 5 genesis.header, .addToBlockIndex addEnv 5 (nextHeader 2)]

/-- The node connects another block first and switches. -/
def detourRun : List NodeOp :=
  [.addToBlockIndex addEnv 5 genesis.header, .addToBlockIndex addEnv 5 (nextHeader 1),
    .addToBlockIndex addEnv 5 (nextHeader 2), .setBestChain bestEnv 0 (next 2)]

theorem replayable_detourRun : ∀ o ∈ detourRun, NodeState.Replayable o := by
  have hexempt : genesis.header.getHash ∉ NodeState.bip30Exempt ∧
      (nextHeader 1).getHash ∉ NodeState.bip30Exempt ∧
      (nextHeader 2).getHash ∉ NodeState.bip30Exempt := by
    decide +kernel
  intro o ho
  simp only [detourRun, List.mem_cons, List.not_mem_nil, or_false] at ho
  rcases ho with rfl | rfl | rfl | rfl
  · exact hexempt.1
  · exact hexempt.2.1
  · exact hexempt.2.2
  · trivial

theorem replayable_straightRun : ∀ o ∈ straightRun, NodeState.Replayable o := by
  intro o ho
  apply replayable_detourRun
  simp only [straightRun, detourRun, List.mem_cons, List.not_mem_nil, or_false] at ho ⊢
  tauto

theorem coinsTip_replay_sample : ∃ s, Run.run NodeState.step .init detourRun = some s ∧
    s.coinsTip.getBestBlock = some (next 2) ∧
    ∃ v, NodeState.replay (next 2) = .ok v ∧ CoinsView.Equiv s.coinsTip v := by
  have hrun : ((Run.run NodeState.step .init detourRun).any fun s =>
      s.coinsTip.getBestBlock == some (next 2)) = true := by
    decide +kernel
  obtain ⟨s, hs, htip⟩ := (Option.any_eq_true _ _).mp hrun
  rw [beq_iff_eq] at htip
  obtain ⟨v, hv, hequiv⟩ := (NodeState.coinsTip_replay replayable_detourRun hs).1
  rw [htip] at hv
  exact ⟨s, hs, htip, v, hv, hequiv⟩

theorem coinsTip_agree_sample : ∃ s s', Run.run NodeState.step .init detourRun = some s ∧
    Run.run NodeState.step .init straightRun = some s' ∧
    CoinsView.Equiv s.coinsTip s'.coinsTip := by
  have hrun : ((Run.run NodeState.step .init detourRun).any fun s =>
      s.coinsTip.getBestBlock == some (next 2)) = true ∧
      ((Run.run NodeState.step .init straightRun).any fun s =>
        s.coinsTip.getBestBlock == some (next 2)) = true := by
    decide +kernel
  obtain ⟨s, hs, htip⟩ := (Option.any_eq_true _ _).mp hrun.1
  obtain ⟨s', hs', htip'⟩ := (Option.any_eq_true _ _).mp hrun.2
  rw [beq_iff_eq] at htip htip'
  exact ⟨s, s', hs, hs', NodeState.coinsTip_agree replayable_detourRun replayable_straightRun hs hs'
    (htip.trans htip'.symm)⟩

end Sample

end Terracoin
