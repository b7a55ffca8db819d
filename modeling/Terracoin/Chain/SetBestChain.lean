import Terracoin.Chain.NodeState

/-!
# `SetBestChain`

Moving the active chain to another entry of the block index. The function works in four phases: it
disconnects and connects blocks on a view of its own, pushes that view to `*pcoinsTip` and the
database, moves the links `pnext`, and brings the memory pool and the globals up to date.

`InvalidBlockFound` calls `ConnectBestBlock` again, and `reorganise` stands for that call.
-/

namespace Terracoin

open CBlockIndex

/-- The block files: the block an index entry was made for. -/
class BlockFiles where
  block : CBlockIndex → CBlock

/-- What a call of `SetBestChain` meets outside the state of the node: disk operations, the clock
and the depth of the stack. -/
structure SetBestChainEnv where
  fReadBlock : CBlockIndex → Bool
  fReadUndo : CBlockIndex → Bool
  connect : CBlockIndex → ConnectEnv
  /-- `IsInitialBlockDownload` for reasons other than `nBestHeight`: an import, a reindex, or an old
  best block. -/
  fCatchingUp : Bool
  /-- `pcoinsTip` holds more than `nCoinCacheSize` entries. -/
  fCacheFull : Bool
  fDiskSpace : Bool
  fFlushCoins : Bool
  nAcceptTime : CTransaction → Int
  nStack : Nat

namespace NodeState

variable [Hashing] [ScriptEngine] [NodeConfig] [BlockFiles]

/-- `InvalidChainFound`. Its message shows the time of `pindexBest`. -/
def invalidChainFound (s : NodeState) (pindexNew : CBlockIndex) : Except Halt NodeState :=
  if s.pindexBest.isNone then .error .crash
  else if pindexNew.bnChainWork > s.bnBestInvalidWork then
    .ok { s with bnBestInvalidWork := pindexNew.bnChainWork }
  else .ok s

/-- `nStatus |= BLOCK_FAILED_VALID`. -/
def setFailedValid (s : NodeState) (pindex : CBlockIndex) : NodeState :=
  let nStatus := { (s.data pindex).nStatus with failedValid := true }
  { s with data := Function.update s.data pindex { s.data pindex with nStatus := nStatus } }

/-- `nStatus |= BLOCK_FAILED_CHILD`. -/
def setFailedChild (s : NodeState) (pindex : CBlockIndex) : NodeState :=
  let nStatus := { (s.data pindex).nStatus with failedChild := true }
  { s with data := Function.update s.data pindex { s.data pindex with nStatus := nStatus } }

def invalidBlockFound (reorganise : NodeState → Except Halt NodeState) (s : NodeState)
    (pindex : CBlockIndex) : Except Halt NodeState := do
  let s ← ((s.setFailedValid pindex).eraseValid pindex).invalidChainFound pindex
  if (s.pnext pindex).isSome then reorganise s else .ok s

/-! ## Blocks on the view -/

/-- `ReadFromDisk`, which compares the hash of the block with that of the entry. -/
def readFromDisk (env : SetBestChainEnv) (pindex : CBlockIndex) : Check CBlock := do
  let block := BlockFiles.block pindex
  Checked.require (env.fReadBlock pindex && block.getHash == pindex.getBlockHash)
    (.abort "Failed to read block")
  pure block

/-- The transactions of a disconnected block that are queued to go back to the pool. -/
def resurrected (pindex : CBlockIndex) (block : CBlock) : List CTransaction :=
  block.vtx.filter fun tx =>
    !tx.isCoinBase && decide (pindex.nHeight > NodeConfig.nTotalBlocksEstimate)

/-- The loop over `vDisconnect`: the view after it, and `vResurrect`. -/
def disconnectBlocks (env : SetBestChainEnv) (data : CBlockIndex → BlockData) :
    CoinsView → List CBlockIndex → Check (CoinsView × List CTransaction)
  | view, [] => pure (view, [])
  | view, pindex :: vDisconnect => do
    let block ← readFromDisk env pindex
    let (view, fClean) ← disconnectBlock block pindex (data pindex) (env.fReadUndo pindex) view
    Checked.require fClean (.error "SetBestBlock() : DisconnectBlock %s failed")
    let (view, vResurrect) ← disconnectBlocks env data view vDisconnect
    pure (view, resurrected pindex block ++ vResurrect)

/-- The body of the loop over `vConnect`: the block is read and connected. -/
def connectIndex (env : SetBestChainEnv) (s : NodeState) (view : CoinsView) (pindex : CBlockIndex) :
    NodeState × Check CoinsView :=
  match readFromDisk env pindex with
  | .error e => (s, .error e)
  | .ok block =>
    let r := connectBlock (env.connect pindex) block pindex (some pindex.getBlockHash)
      (s.data pindex) view false
    ({ s with
        data := Function.update s.data pindex r.1
        pindexGenesisBlock :=
          if block.getHash = hashGenesisBlock ∧ r.2.isOk then some pindex
          else s.pindexGenesisBlock },
      r.2)

/-- The loop over `vConnect`: the view after it and `vDelete`, or the entry it failed at. -/
def connectBlocks (env : SetBestChainEnv) :
    NodeState → CoinsView → List CBlockIndex →
      NodeState × Except (CBlockIndex × Failure) (CoinsView × List CTransaction)
  | s, view, [] => (s, .ok (view, []))
  | s, view, pindex :: vConnect =>
    match connectIndex env s view pindex with
    | (s, .error e) => (s, .error (pindex, e))
    | (s, .ok view) =>
      match connectBlocks env s view vConnect with
      | (s, .error e) => (s, .error e)
      | (s, .ok (view, vDelete)) => (s, .ok (view, (BlockFiles.block pindex).vtx ++ vDelete))

def connectFailed (reorganise : NodeState → Except Halt NodeState) (s : NodeState)
    (pindexNew pindex : CBlockIndex) (e : Failure) : Except Halt NodeState := do
  if e.isInvalid then
    let s ← s.invalidChainFound pindexNew
    invalidBlockFound reorganise s pindex
  else .ok s

def isInitialBlockDownload (env : SetBestChainEnv) (s : NodeState) : Bool :=
  s.pindexBest.isNone || decide (s.nBestHeight < NodeConfig.nTotalBlocksEstimate) ||
    env.fCatchingUp

/-- The push to `*pcoinsTip` is followed by a flush to the database. -/
def flushes (env : SetBestChainEnv) (s : NodeState) : Bool :=
  !s.isInitialBlockDownload env || env.fCacheFull

/-- `view.Flush()`, and then `pcoinsTip->Flush()` when it is due. The database drops pruned
entries. -/
def pushCoins (env : SetBestChainEnv) (s : NodeState) (view : CoinsView) : NodeState × Check Unit :=
  let s := { s with coinsTip := view }
  if s.flushes env then
    if !env.fDiskSpace then (s, .error (.abort "Error: Disk space is low!"))
    else if !env.fFlushCoins then (s, .error (.abort "Failed to write to coin database"))
    else ({ s with coinsTip := view.dropPruned }, .ok ())
  else (s, .ok ())

/-! ## The memory structures -/

/-- `if (pindex->pprev) pindex->pprev->pnext = NULL;`. -/
def clearLink (pnext : CBlockIndex → Option CBlockIndex) (pindex : CBlockIndex) :
    CBlockIndex → Option CBlockIndex :=
  pindex.pprev.elim pnext fun pprev => Function.update pnext pprev none

/-- `if (pindex->pprev) pindex->pprev->pnext = pindex;`. -/
def setLink (pnext : CBlockIndex → Option CBlockIndex) (pindex : CBlockIndex) :
    CBlockIndex → Option CBlockIndex :=
  pindex.pprev.elim pnext fun pprev => Function.update pnext pprev (some pindex)

/-- The loops over `vDisconnect` and `vConnect`. -/
def clearNext (pnext : CBlockIndex → Option CBlockIndex) (vDisconnect : List CBlockIndex) :
    CBlockIndex → Option CBlockIndex :=
  vDisconnect.foldl clearLink pnext

def setNext (pnext : CBlockIndex → Option CBlockIndex) (vConnect : List CBlockIndex) :
    CBlockIndex → Option CBlockIndex :=
  vConnect.foldl setLink pnext

/-- `tx.AcceptToMemoryPool(state, true, fLimitFree)`, with the state after it. -/
def acceptToMemoryPool (s : NodeState) (nAdjustedTime : Int) (fRateLimited : Bool)
    (tx : CTransaction) (fLimitFree : Bool) : Except Halt NodeState :=
  match s.mempool.accept ⟨s.nBestHeight, nAdjustedTime, fRateLimited⟩ s.coinsTip tx true
    fLimitFree with
  | .ok mempool => .ok { s with mempool := mempool }
  | .error e => if e.isCrash then .error .crash else .ok (s.abortOn e)

/-- `tx.AcceptToMemoryPool(stateDummy, true, false)` for a transaction of `vResurrect`; errors are
ignored. -/
def resurrect (env : SetBestChainEnv) (s : NodeState) (tx : CTransaction) : Except Halt NodeState :=
  s.acceptToMemoryPool (env.nAcceptTime tx) false tx false

/-- `mempool.remove(tx); mempool.removeConflicts(tx);` -/
def deleteTransaction (env : SetBestChainEnv) (s : NodeState) (tx : CTransaction) :
    Except Halt NodeState :=
  match (s.mempool.remove env.nStack tx false).bind (·.removeConflicts env.nStack tx) with
  | none => .error .crash
  | some mempool => .ok { s with mempool := mempool }

def setTip (s : NodeState) (pindexNew : CBlockIndex) : NodeState :=
  { s with
    hashBestChain := pindexNew.getBlockHash
    pindexBest := some pindexNew
    pblockindexFBBHLast := none
    nBestHeight := pindexNew.nHeight
    bnBestChainWork := pindexNew.bnChainWork }

/-- The part of `SetBestChain` after the coins have been written. -/
def updateMemory (env : SetBestChainEnv) (s : NodeState) (pindexNew : CBlockIndex)
    (vDisconnect vConnect : List CBlockIndex) (vResurrect vDelete : List CTransaction) :
    Except Halt NodeState := do
  let s := { s with pnext := setNext (clearNext s.pnext vDisconnect) vConnect }
  let s ← vResurrect.foldlM (resurrect env) s
  let s ← vDelete.foldlM (deleteTransaction env) s
  pure (s.setTip pindexNew)

/-- The fork of the best block of the coins and `pindexNew`, if there is a best block. -/
def fork (s : NodeState) (pindexNew : CBlockIndex) : Except Halt (Option CBlockIndex) :=
  match s.coinsTip.getBestBlock with
  | none => .ok none
  | some pbest => (findFork pbest pindexNew).elim (.error .crash) fun f => .ok (some f)

def vDisconnect (s : NodeState) (pfork : Option CBlockIndex) : List CBlockIndex :=
  s.coinsTip.getBestBlock.elim [] (pathTo pfork)

def vConnect (pfork : Option CBlockIndex) (pindexNew : CBlockIndex) : List CBlockIndex :=
  (pathTo pfork pindexNew).reverse

def setBestChainFrom (reorganise : NodeState → Except Halt NodeState) (env : SetBestChainEnv)
    (s : NodeState) (pindexNew : CBlockIndex) (pfork : Option CBlockIndex) :
    Except Halt (NodeState × Check Unit) :=
  match disconnectBlocks env s.data s.coinsTip (s.vDisconnect pfork) with
  | .error e => s.fail e
  | .ok (view, vResurrect) =>
    match connectBlocks env s view (vConnect pfork pindexNew) with
    | (s, .error (pindex, e)) => do
      let s ← s.connectFailed reorganise pindexNew pindex e
      s.fail e
    | (s1, .ok (view, vDelete)) =>
      match s1.pushCoins env view with
      | (s, .error e) => s.fail e
      | (s2, .ok ()) => do
        let s ← s2.updateMemory env pindexNew (s.vDisconnect pfork) (vConnect pfork pindexNew)
          vResurrect vDelete
        pure (s, .ok ())

def setBestChain (reorganise : NodeState → Except Halt NodeState) (env : SetBestChainEnv)
    (s : NodeState) (pindexNew : CBlockIndex) : Except Halt (NodeState × Check Unit) := do
  let pfork ← s.fork pindexNew
  s.setBestChainFrom reorganise env pindexNew pfork

/-! ## What the phases do -/

omit [ScriptEngine] [NodeConfig] in
theorem readFromDisk_ok {env : SetBestChainEnv} {pindex : CBlockIndex} {block : CBlock} :
    readFromDisk env pindex = .ok block ↔ env.fReadBlock pindex = true ∧
      block = BlockFiles.block pindex ∧ block.getHash = pindex.getBlockHash := by
  simp only [readFromDisk, Checked.bind_ok, Checked.require_ok, Checked.pure_ok, Bool.and_eq_true,
    beq_iff_eq]
  constructor
  · rintro ⟨_, ⟨hread, hhash⟩, rfl⟩
    exact ⟨hread, rfl, hhash⟩
  · rintro ⟨hread, rfl, hhash⟩
    exact ⟨(), ⟨hread, hhash⟩, rfl⟩

section Loops

variable {env : SetBestChainEnv} {s s' : NodeState} {view view' : CoinsView} {pindex : CBlockIndex}

theorem connectIndex_ok (h : connectIndex env s view pindex = (s', .ok view')) :
    ∃ block data, readFromDisk env pindex = .ok block ∧
      connectBlock (env.connect pindex) block pindex (some pindex.getBlockHash) (s.data pindex)
        view false = (data, .ok view') ∧
      s' = { s with
        data := Function.update s.data pindex data
        pindexGenesisBlock :=
          if block.getHash = hashGenesisBlock then some pindex else s.pindexGenesisBlock } := by
  unfold connectIndex at h
  cases hread : readFromDisk env pindex with
  | error e =>
    rw [hread] at h
    cases (Prod.mk.inj h).2
  | ok block =>
    rw [hread] at h
    obtain ⟨rfl, hr⟩ := Prod.mk.inj h
    exact ⟨block, _, rfl, Prod.ext rfl hr, by simp [hr, Except.isOk, Except.toBool]⟩

theorem connectIndex_recorded {r : Check CoinsView} (h : connectIndex env s view pindex = (s', r)) :
    Recorded s s' := by
  unfold connectIndex at h
  split at h
  · obtain ⟨rfl, -⟩ := Prod.mk.inj h
    exact .refl s
  · obtain ⟨rfl, -⟩ := Prod.mk.inj h
    refine ⟨rfl, fun p => ?_⟩
    rename_i block _
    have hflags := connectBlock_failed (env.connect pindex) block pindex
      (some pindex.getBlockHash) (s.data pindex) view false
    by_cases hp : p = pindex
    · subst hp
      simp [failed, BlockStatus.failed, hflags]
    · simp [failed, Function.update_of_ne hp]

theorem connectIndex_genesis {r : Check CoinsView} (h : connectIndex env s view pindex = (s', r))
    (hne : pindex.getBlockHash ≠ hashGenesisBlock) :
    s'.pindexGenesisBlock = s.pindexGenesisBlock := by
  unfold connectIndex at h
  split at h
  · obtain ⟨rfl, -⟩ := Prod.mk.inj h
    rfl
  · obtain ⟨rfl, -⟩ := Prod.mk.inj h
    have hhash := (readFromDisk_ok.mp ‹_›).2.2
    exact if_neg fun hc => hne (hhash.symm.trans hc.1)

theorem connectIndex_tip (h : connectIndex env s view pindex = (s', .ok view')) :
    pindex.pprev = view.getBestBlock ∧ view'.getBestBlock = some pindex := by
  obtain ⟨block, data, -, hconn, -⟩ := connectIndex_ok h
  exact connectBlock_tip hconn

variable {vConnect : List CBlockIndex} {vDelete : List CTransaction}
variable {r : Except (CBlockIndex × Failure) (CoinsView × List CTransaction)}

theorem connectBlocks_cons_ok
    (h : connectBlocks env s view (pindex :: vConnect) = (s', .ok (view', vDelete))) :
    ∃ s1 view1 vDelete1, connectIndex env s view pindex = (s1, .ok view1) ∧
      connectBlocks env s1 view1 vConnect = (s', .ok (view', vDelete1)) ∧
      vDelete = (BlockFiles.block pindex).vtx ++ vDelete1 := by
  rw [connectBlocks] at h
  split at h
  · cases (Prod.mk.inj h).2
  · rename_i s1 view1 h1
    split at h
    · cases (Prod.mk.inj h).2
    · rename_i s2 view2 vDelete2 h2
      obtain ⟨rfl, hr⟩ := Prod.mk.inj h
      obtain ⟨rfl, rfl⟩ := Prod.mk.inj (Except.ok.inj hr)
      exact ⟨s1, view1, vDelete2, h1, h2, rfl⟩

/-- A property of the state that connecting one of the blocks preserves, whether it succeeds or
not, is preserved by the loop. -/
theorem connectBlocks_invariant {P : NodeState → Prop}
    (hstep : ∀ s view, ∀ pindex ∈ vConnect, ∀ s' r,
      connectIndex env s view pindex = (s', r) → P s → P s') (hs : P s)
    (h : connectBlocks env s view vConnect = (s', r)) : P s' := by
  induction vConnect generalizing s view r with
  | nil =>
    obtain ⟨rfl, -⟩ := Prod.mk.inj h
    exact hs
  | cons pindex vConnect ih =>
    rw [connectBlocks] at h
    split at h
    · rename_i s1 e h1
      obtain ⟨rfl, -⟩ := Prod.mk.inj h
      exact hstep s view pindex List.mem_cons_self s1 _ h1 hs
    · rename_i s1 view1 h1
      have hs1 := hstep s view pindex List.mem_cons_self s1 _ h1 hs
      have hrest : ∀ r, connectBlocks env s1 view1 vConnect = (s', r) → P s' := fun r =>
        ih (fun s view p hp => hstep s view p (List.mem_cons_of_mem _ hp)) hs1
      split at h
      · rename_i s2 e h2
        obtain ⟨rfl, -⟩ := Prod.mk.inj h
        exact hrest _ h2
      · rename_i s2 view2 vDelete2 h2
        obtain ⟨rfl, -⟩ := Prod.mk.inj h
        exact hrest _ h2

theorem connectBlocks_recorded (h : connectBlocks env s view vConnect = (s', r)) : Recorded s s' :=
  connectBlocks_invariant (fun _ _ _ _ _ _ h1 hs => hs.trans (connectIndex_recorded h1)) (.refl s) h

theorem connectBlocks_error_mem {e : Failure}
    (h : connectBlocks env s view vConnect = (s', .error (pindex, e))) : pindex ∈ vConnect := by
  induction vConnect generalizing s view with
  | nil => cases (Prod.mk.inj h).2
  | cons p vConnect ih =>
    rw [connectBlocks] at h
    split at h
    · obtain ⟨rfl, -⟩ := Prod.mk.inj (Except.error.inj (Prod.mk.inj h).2)
      exact List.mem_cons_self
    · split at h
      · rename_i s1 view1 _ _ s2 e2 h2
        obtain ⟨rfl, h3⟩ := Prod.mk.inj h
        rw [Except.error.inj h3] at h2
        exact List.mem_cons_of_mem _ (ih h2)
      · cases (Prod.mk.inj h).2

theorem connectBlocks_tip (h : connectBlocks env s view vConnect = (s', .ok (view', vDelete))) :
    view'.getBestBlock = vConnect.getLast?.or view.getBestBlock := by
  induction vConnect generalizing s view vDelete with
  | nil =>
    obtain ⟨-, hr⟩ := Prod.mk.inj h
    obtain ⟨rfl, -⟩ := Prod.mk.inj (Except.ok.inj hr)
    rfl
  | cons p vConnect ih =>
    obtain ⟨s1, view1, vDelete1, h1, h2, -⟩ := connectBlocks_cons_ok h
    rw [ih h2, (connectIndex_tip h1).2, List.getLast?_cons]
    cases vConnect.getLast? <;> rfl

variable {data : CBlockIndex → BlockData} {vResurrect : List CTransaction}

omit [ScriptEngine] in
theorem disconnectBlocks_cons_ok {vDisconnect : List CBlockIndex} :
    disconnectBlocks env data view (pindex :: vDisconnect) = .ok (view', vResurrect) ↔
      ∃ block view1 vResurrect1, readFromDisk env pindex = .ok block ∧
        disconnectBlock block pindex (data pindex) (env.fReadUndo pindex) view =
          .ok (view1, true) ∧
        disconnectBlocks env data view1 vDisconnect = .ok (view', vResurrect1) ∧
        vResurrect = resurrected pindex block ++ vResurrect1 := by
  simp only [disconnectBlocks, Checked.bind_ok, Checked.require_ok, Checked.pure_ok, Prod.exists,
    Prod.mk.injEq]
  constructor
  · rintro ⟨block, hread, view1, _, hdisc, _, rfl, view2, vResurrect1, hrest, rfl, rfl⟩
    exact ⟨block, view1, vResurrect1, hread, hdisc, hrest, rfl⟩
  · rintro ⟨block, view1, vResurrect1, hread, hdisc, hrest, rfl⟩
    exact ⟨block, hread, view1, true, hdisc, (), rfl, view', vResurrect1, hrest, rfl, rfl⟩

omit [ScriptEngine] in
/-- Disconnecting down to the fork makes it the best block of the view. -/
theorem disconnectBlocks_tip {p f : CBlockIndex} (hf : f ∈ p.chain)
    (htip : view.getBestBlock = some p)
    (h : disconnectBlocks env data view (pathTo (some f) p) = .ok (view', vResurrect)) :
    view'.getBestBlock = some f := by
  induction p generalizing view vResurrect with
  | root h' =>
    obtain rfl : f = root h' := by simpa [chain] using hf
    rw [pathTo_eq_nil] at h
    obtain ⟨rfl, -⟩ := Prod.mk.inj (Except.ok.inj h)
    exact htip
  | child p h' ih =>
    by_cases heq : f = child p h'
    · rw [heq, pathTo_eq_nil] at h
      obtain ⟨rfl, -⟩ := Prod.mk.inj (Except.ok.inj h)
      rw [htip, heq]
    · rw [pathTo, if_neg fun hc => heq (Option.some.inj hc)] at h
      obtain ⟨block, view1, vResurrect1, -, hdisc, hrest, -⟩ := disconnectBlocks_cons_ok.mp h
      have hfp : f ∈ p.chain := (mem_chain_child.mp hf).resolve_left heq
      exact ih hfp (disconnectBlock_tip hdisc).2 hrest

end Loops

/-! ## What the function does -/

variable {reorganise : NodeState → Except Halt NodeState} {env : SetBestChainEnv} {s s' : NodeState}
variable {pindexNew : CBlockIndex} {pfork : Option CBlockIndex}

omit [Hashing] [ScriptEngine] [NodeConfig] [BlockFiles] in
theorem fork_ok : s.fork pindexNew = .ok pfork ↔
    (s.coinsTip.getBestBlock = none ∧ pfork = none) ∨
      ∃ pbest f, s.coinsTip.getBestBlock = some pbest ∧ findFork pbest pindexNew = some f ∧
        pfork = some f := by
  unfold fork
  cases s.coinsTip.getBestBlock with
  | none => simp [eq_comm]
  | some pbest => cases hf : findFork pbest pindexNew <;> simp [hf, eq_comm]

theorem setBestChain_ok {r : Check Unit} :
    s.setBestChain reorganise env pindexNew = .ok (s', r) ↔ ∃ pfork, s.fork pindexNew = .ok pfork ∧
      s.setBestChainFrom reorganise env pindexNew pfork = .ok (s', r) :=
  Checked.bind_ok

omit [Hashing] [ScriptEngine] [BlockFiles] in
theorem pushCoins_ok {view : CoinsView} {u : Unit} (h : s.pushCoins env view = (s', .ok u)) :
    s' = { s with coinsTip := if s.flushes env then view.dropPruned else view } := by
  unfold pushCoins at h
  dsimp only at h
  rw [show flushes env { s with coinsTip := view } = s.flushes env from rfl] at h
  split at h
  · split at h
    · cases (Prod.mk.inj h).2
    · split at h
      · cases (Prod.mk.inj h).2
      · rw [← (Prod.mk.inj h).1, if_pos ‹_›]
  · rw [← (Prod.mk.inj h).1, if_neg ‹_›]

omit [Hashing] [ScriptEngine] [BlockFiles] in
theorem pushCoins_error {view : CoinsView} {e : Failure}
    (h : s.pushCoins env view = (s', .error e)) :
    s' = { s with coinsTip := view } ∧ e.isAbort = true ∧ s.flushes env = true ∧
      (env.fDiskSpace && env.fFlushCoins) = false := by
  unfold pushCoins at h
  dsimp only at h
  rw [show flushes env { s with coinsTip := view } = s.flushes env from rfl] at h
  split at h
  · split at h
    · obtain ⟨rfl, he⟩ := Prod.mk.inj h
      cases he
      exact ⟨rfl, rfl, ‹_›, by simp_all⟩
    · split at h
      · obtain ⟨rfl, he⟩ := Prod.mk.inj h
        cases he
        exact ⟨rfl, rfl, ‹_›, by simp_all⟩
      · cases (Prod.mk.inj h).2
  · cases (Prod.mk.inj h).2

omit [BlockFiles] in
theorem acceptToMemoryPool_poolOnly {nAdjustedTime : Int} {fRateLimited fLimitFree : Bool}
    {tx : CTransaction}
    (h : s.acceptToMemoryPool nAdjustedTime fRateLimited tx fLimitFree = .ok s') :
    PoolOnly s s' := by
  unfold acceptToMemoryPool at h
  split at h
  · obtain rfl := Except.ok.inj h
    exact ⟨rfl, id⟩
  · split at h
    · cases h
    · obtain rfl := Except.ok.inj h
      exact ⟨rfl, fun hs => by simp_all [abortOn]⟩

omit [ScriptEngine] [NodeConfig] [BlockFiles] in
theorem deleteTransaction_poolOnly {tx : CTransaction} (h : s.deleteTransaction env tx = .ok s') :
    PoolOnly s s' := by
  unfold deleteTransaction at h
  split at h
  · cases h
  · obtain rfl := Except.ok.inj h
    exact ⟨rfl, id⟩

omit [BlockFiles] in
theorem updateMemory_ok {vDisconnect vConnect : List CBlockIndex}
    {vResurrect vDelete : List CTransaction}
    (h : s.updateMemory env pindexNew vDisconnect vConnect vResurrect vDelete = .ok s') :
    ∃ s1 s2, vResurrect.foldlM (resurrect env)
          { s with pnext := setNext (clearNext s.pnext vDisconnect) vConnect } = .ok s1 ∧
        vDelete.foldlM (deleteTransaction env) s1 = .ok s2 ∧ s' = s2.setTip pindexNew := by
  simp only [updateMemory, Checked.bind_ok, Checked.pure_ok] at h
  obtain ⟨s1, h1, s2, h2, rfl⟩ := h
  exact ⟨s1, s2, h1, h2, rfl⟩

/-- A successful call has gone through all its phases. -/
theorem setBestChainFrom_ok {u : Unit}
    (h : s.setBestChainFrom reorganise env pindexNew pfork = .ok (s', .ok u)) :
    ∃ view vResurrect s1 view' vDelete s2,
      disconnectBlocks env s.data s.coinsTip (s.vDisconnect pfork) = .ok (view, vResurrect) ∧
      connectBlocks env s view (vConnect pfork pindexNew) = (s1, .ok (view', vDelete)) ∧
      s1.pushCoins env view' = (s2, .ok ()) ∧
      s2.updateMemory env pindexNew (s.vDisconnect pfork) (vConnect pfork pindexNew) vResurrect
        vDelete = .ok s' := by
  unfold setBestChainFrom at h
  split at h
  · cases (fail_ok.mp h).2.2
  · rename_i view vResurrect hdisc
    split at h
    · obtain ⟨s2, -, h⟩ := Checked.bind_ok.mp h
      cases (fail_ok.mp h).2.2
    · rename_i s1 view' vDelete hconn
      split at h
      · cases (fail_ok.mp h).2.2
      · rename_i s2 hpush
        obtain ⟨s3, hmem, h⟩ := Checked.bind_ok.mp h
        obtain ⟨rfl, -⟩ := Prod.mk.inj (Checked.pure_ok.mp h)
        exact ⟨view, vResurrect, s1, view', vDelete, s2, hdisc, hconn, hpush, hmem⟩

/-- A call that fails does so while it disconnects a block, while it connects one, or while it pushes
the view. -/
theorem setBestChainFrom_error {e : Failure}
    (h : s.setBestChainFrom reorganise env pindexNew pfork = .ok (s', .error e)) :
    (disconnectBlocks env s.data s.coinsTip (s.vDisconnect pfork) = .error e ∧ s' = s.abortOn e) ∨
    ∃ view vResurrect,
      disconnectBlocks env s.data s.coinsTip (s.vDisconnect pfork) = .ok (view, vResurrect) ∧
      ((∃ s1 pindex s2,
          connectBlocks env s view (vConnect pfork pindexNew) = (s1, .error (pindex, e)) ∧
          s1.connectFailed reorganise pindexNew pindex e = .ok s2 ∧ s' = s2.abortOn e) ∨
        ∃ s1 view' vDelete s2,
          connectBlocks env s view (vConnect pfork pindexNew) = (s1, .ok (view', vDelete)) ∧
          s1.pushCoins env view' = (s2, .error e) ∧ s' = s2.abortOn e) := by
  unfold setBestChainFrom at h
  split at h
  · obtain ⟨-, rfl, he⟩ := fail_ok.mp h
    cases he
    exact .inl ⟨‹_›, rfl⟩
  · rename_i view vResurrect hdisc
    refine .inr ⟨view, vResurrect, hdisc, ?_⟩
    split at h
    · rename_i s1 pindex e1 hconn
      obtain ⟨s2, hfailed, h⟩ := Checked.bind_ok.mp h
      obtain ⟨-, rfl, he⟩ := fail_ok.mp h
      cases he
      exact .inl ⟨s1, pindex, s2, hconn, hfailed, rfl⟩
    · rename_i s1 view' vDelete hconn
      split at h
      · rename_i s2 e2 hpush
        obtain ⟨-, rfl, he⟩ := fail_ok.mp h
        cases he
        exact .inr ⟨s1, view', vDelete, s2, hconn, hpush, rfl⟩
      · obtain ⟨s3, -, h⟩ := Checked.bind_ok.mp h
        cases (Prod.mk.inj (Checked.pure_ok.mp h)).2

end NodeState

end Terracoin
