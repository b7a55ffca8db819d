import Terracoin.Chain.Replay

/-!
# `VerifyDB`

At its start the node takes back the last blocks of the active chain on a copy of the coins, and at
the highest level connects them again. On the coins of any run, with a disk that can be read and a
clock that has not gone back, it finds nothing, at every level and depth, wherever its cache fills
up or a shutdown stops it, and leaves the coins, the index and the undo data as they are
(`verifyDB_spec`).
-/

namespace Terracoin

open CBlockIndex CoinsView

/-- What a call of `VerifyDB` meets outside the state: the two options, requests to shut down in
each of its loops, the clock, room in the cache, and the disk. -/
structure VerifyEnv where
  nCheckLevel : Int
  nCheckDepth : Int
  fShutdownDown : CBlockIndex → Bool
  fShutdownUp : CBlockIndex → Bool
  nAdjustedTime : CBlockIndex → Int
  /-- The two caches hold at most `2*nCoinCacheSize + 32000` entries. -/
  fCacheRoom : CBlockIndex → Bool
  disk : SetBestChainEnv

/-- The disk can be read and written, and no block is too far ahead of the clock. -/
structure VerifyEnv.Works [BlockFiles] (env : VerifyEnv) (best : CBlockIndex) : Prop where
  fReadBlock : ∀ p ∈ best.chain, env.disk.fReadBlock p = true
  fReadUndo : ∀ p ∈ best.chain, env.disk.fReadUndo p = true
  diskWorks : ∀ p ∈ best.chain, (env.disk.connect p).diskWorks = true
  nAdjustedTime : ∀ p ∈ best.chain,
    (BlockFiles.block p).getBlockTime ≤ env.nAdjustedTime p + 15 * 60
  nConnectTime : ∀ p ∈ best.chain,
    (BlockFiles.block p).getBlockTime ≤ (env.disk.connect p).nAdjustedTime + 15 * 60

/-- The variables of the first loop. -/
structure VerifyState where
  coins : CoinsView
  pindexState : CBlockIndex
  pindexFailure : Option CBlockIndex
  nGoodTransactions : Nat

/-- `if (!call) return error(message);`. A call that dies takes the process with it. -/
def orReturn {α : Type} (message : String) : Check α → Check α
  | .ok a => .ok a
  | .error e => if e.isCrash then .error e else .error (.error message)

namespace NodeState

variable [Hashing] [ScriptEngine] [NodeConfig] [BlockFiles]

def checkDepth (env : VerifyEnv) (s : NodeState) : Int :=
  let nCheckDepth := if env.nCheckDepth = 0 then 1000000000 else env.nCheckDepth
  if nCheckDepth > s.nBestHeight then s.nBestHeight else nCheckDepth

def checkLevel (env : VerifyEnv) : Int := max 0 (min 4 env.nCheckLevel)

/-- The checks of the first loop that look at the block and its undo data alone. -/
def verifyFiles (env : VerifyEnv) (s : NodeState) (pindex : CBlockIndex) : Check CBlock := do
  -- check level 0: read from disk
  let block ← orReturn "VerifyDB() : *** block.ReadFromDisk failed at %d, hash=%s"
    (readFromDisk env.disk pindex)
  -- check level 1: verify block validity
  let _ ← if 1 ≤ checkLevel env then
      orReturn "VerifyDB() : *** found bad block at %d, hash=%s\n"
        (block.checkBlock (env.nAdjustedTime pindex) true true)
    else pure ()
  -- check level 2: verify undo validity
  Checked.require (!(decide (2 ≤ checkLevel env) && (s.data pindex).nStatus.haveUndo) ||
      env.disk.fReadUndo pindex && (s.data pindex).undo.isSome)
    (.error "VerifyDB() : *** found bad undo data at %d, hash=%s\n")
  pure block

def verifyBlock (env : VerifyEnv) (s : NodeState) (st : VerifyState) (pindex pprev : CBlockIndex) :
    Check VerifyState := do
  let block ← verifyFiles env s pindex
  -- check level 3: check for inconsistencies during memory-only disconnect of tip blocks
  if 3 ≤ checkLevel env ∧ pindex = st.pindexState ∧ env.fCacheRoom pindex = true then do
    let (coins, fClean) ← orReturn
      "VerifyDB() : *** irrecoverable inconsistency in block data at %d, hash=%s"
      (disconnectBlock block pindex (s.data pindex) (env.disk.fReadUndo pindex) st.coins)
    if fClean then
      pure ⟨coins, pprev, st.pindexFailure, st.nGoodTransactions + block.vtx.length⟩
    else pure ⟨coins, pprev, some pindex, 0⟩
  else pure st

def verifyDown (env : VerifyEnv) (s : NodeState) :
    VerifyState → CBlockIndex → Check VerifyState
  | st, .root _ => pure st
  | st, .child p h =>
    if env.fShutdownDown (.child p h) ∨
        ((CBlockIndex.child p h).nHeight : Int) < s.nBestHeight - checkDepth env s then pure st
    else do
      let st ← verifyBlock env s st (.child p h) p
      verifyDown env s st p

/-- The second loop, with the index after it. -/
def verifyUp (env : VerifyEnv) (pindexBest : CBlockIndex) :
    Nat → NodeState → CoinsView → CBlockIndex → Except Halt (NodeState × Check Unit)
  | 0, _, _, _ => .error .outOfFuel
  | fuel + 1, s, coins, pindex =>
    if pindex = pindexBest ∨ env.fShutdownUp pindex then .ok (s, .ok ())
    else
      match s.pnext pindex with
      | none => .error .crash
      | some pindex =>
        match readFromDisk env.disk pindex with
        | .error _ =>
          s.fail (.error "VerifyDB() : *** block.ReadFromDisk failed at %d, hash=%s")
        | .ok block =>
          let r := connectBlock (env.disk.connect pindex) block pindex (some pindex.getBlockHash)
            (s.data pindex) coins false
          let s := { s with data := Function.update s.data pindex r.1 }
          match r.2 with
          | .error e =>
            if e.isCrash then .error .crash
            else (s.abortOn e).fail
              (.error "VerifyDB() : *** found unconnectable block at %d, hash=%s")
          | .ok coins => verifyUp env pindexBest fuel s coins pindex

def verifyDB (env : VerifyEnv) (s : NodeState) : Except Halt (NodeState × Check Unit) :=
  match s.pindexBest with
  | none => .ok (s, .ok ())
  | some pindexBest =>
    if pindexBest.pprev = none then .ok (s, .ok ())
    else
      match verifyDown env s ⟨s.coinsTip, pindexBest, none, 0⟩ pindexBest with
      | .error e => s.fail e
      | .ok st =>
        if st.pindexFailure.isSome then
          s.fail (.error ("VerifyDB() : *** coin database inconsistencies found " ++
            "(last %i blocks, %i good transactions before that)\n"))
        else if 4 ≤ checkLevel env then
          verifyUp env pindexBest (pindexBest.nHeight + 1) s st.coins st.pindexState
        else .ok (s, .ok ())

/-! ## Undo data for the chain of the coins -/

/-- The index has the chain that ends in `tip`, with undo data for every block but the first. -/
structure UndoWritten (entries : List CBlockIndex) (data : CBlockIndex → BlockData)
    (tip : Option CBlockIndex) : Prop where
  known : ∀ p ∈ tip, p ∈ entries
  haveUndo : ∀ p ∈ chainOf tip, p.pprev ≠ none → (data p).nStatus.haveUndo = true

variable {entries : List CBlockIndex} {data data' : CBlockIndex → BlockData}
variable {tip : Option CBlockIndex} {p q best : CBlockIndex} {w w' : CoinsView} {env : SetBestChainEnv} {s s' : NodeState}

omit [Hashing] [ScriptEngine] [NodeConfig] [BlockFiles] in
theorem UndoWritten.mono (h : UndoWritten entries data tip)
    (hdata : ∀ p, (data p).nStatus.haveUndo = true → (data' p).nStatus.haveUndo = true) :
    UndoWritten entries data' tip :=
  ⟨h.known, fun p hp hprev => hdata p (h.haveUndo p hp hprev)⟩

omit [ScriptEngine] [BlockFiles] in
theorem getBlockHash_ne_genesis (htree : BlockTree entries) (hp : p ∈ entries)
    (hprev : p.pprev ≠ none) : p.getBlockHash ≠ hashGenesisBlock := by
  intro hhash
  apply hprev
  rw [htree.eq_base_of_hash hp hp hhash]
  exact base_pprev

omit [Hashing] [ScriptEngine] [NodeConfig] [BlockFiles] in
theorem writeUndoData_kept (cenv : ConnectEnv) {data : BlockData} (blockundo : CBlockUndo)
    (h : data.nStatus.haveUndo = true) :
    (writeUndoData cenv data blockundo).1.nStatus.haveUndo = true ∧
      (writeUndoData cenv data blockundo).1.undo = data.undo := by
  unfold writeUndoData
  split
  · exact ⟨h, rfl⟩
  · simp [h]

omit [BlockFiles] in
/-- `ConnectBlock` leaves undo data that has been written as it is. -/
theorem connectBlock_kept (cenv : ConnectEnv) (b : CBlock) (p : CBlockIndex)
    (phashBlock : Option uint256) (w : CoinsView) {data : BlockData}
    (h : data.nStatus.haveUndo = true) :
    (connectBlock cenv b p phashBlock data w false).1.nStatus.haveUndo = true ∧
      (connectBlock cenv b p phashBlock data w false).1.undo = data.undo := by
  unfold connectBlock
  split
  · exact ⟨h, rfl⟩
  · exact ⟨h, rfl⟩
  · rename_i view blockundo _
    have hwrite := writeUndoData_kept cenv blockundo h
    rw [if_neg Bool.false_ne_true]
    split
    · rename_i heq
      rwa [heq] at hwrite
    · rename_i heq
      rw [heq] at hwrite
      split <;> exact hwrite

theorem connectIndex_kept {r : Check CoinsView} (h : connectIndex env s w p = (s', r))
    (hq : (s.data q).nStatus.haveUndo = true) : (s'.data q).nStatus.haveUndo = true := by
  unfold connectIndex at h
  split at h
  · obtain ⟨rfl, -⟩ := Prod.mk.inj h
    exact hq
  · obtain ⟨rfl, -⟩ := Prod.mk.inj h
    dsimp only
    by_cases heq : q = p
    · subst heq
      rw [Function.update_self]
      exact (connectBlock_kept _ _ _ _ _ hq).1
    · rw [Function.update_of_ne heq]
      exact hq

theorem connectIndex_undoWritten (htree : BlockTree entries) (hp : p ∈ entries)
    (hw : UndoWritten entries s.data w.getBestBlock) (h : connectIndex env s w p = (s', .ok w')) :
    UndoWritten entries s'.data w'.getBestBlock := by
  obtain ⟨hprev, htip⟩ := connectIndex_tip h
  obtain ⟨block, data, hread, hconn, rfl⟩ := connectIndex_ok h
  obtain ⟨-, rfl, hhash⟩ := readFromDisk_ok.mp hread
  rw [htip]
  refine ⟨fun q hq => Option.some.inj hq ▸ hp, fun q hq hqprev => ?_⟩
  rcases mem_chain_iff.mp hq with rfl | ⟨pprev, hpprev, hq⟩
  · have hgenesis := hhash ▸ getBlockHash_ne_genesis htree hp hqprev
    obtain ⟨-, -, -, -, -, -, hhave, -⟩ := connectBlock_ok hgenesis hconn
    dsimp only
    rw [Function.update_self]
    exact hhave
  · apply connectIndex_kept h
    apply hw.haveUndo q _ hqprev
    rw [← hprev, hpprev]
    exact hq

theorem connectBlocks_undoWritten {vConnect : List CBlockIndex}
    {r : Except (CBlockIndex × Failure) (CoinsView × List CTransaction)} (htree : BlockTree entries)
    (hmem : ∀ p ∈ vConnect, p ∈ entries) (hw : UndoWritten entries s.data w.getBestBlock)
    (h : connectBlocks env s w vConnect = (s', r)) :
    (∀ q, (s.data q).nStatus.haveUndo = true → (s'.data q).nStatus.haveUndo = true) ∧
      ∀ w' vDelete, r = .ok (w', vDelete) → UndoWritten entries s'.data w'.getBestBlock := by
  refine ⟨fun q hq => connectBlocks_invariant (P := fun s => (s.data q).nStatus.haveUndo = true)
    (fun _ _ _ _ _ _ h1 hq => connectIndex_kept h1 hq) hq h, ?_⟩
  rintro w' vDelete rfl
  induction vConnect generalizing s w vDelete with
  | nil =>
    obtain ⟨rfl, hr⟩ := Prod.mk.inj h
    obtain ⟨rfl, -⟩ := Prod.mk.inj (Except.ok.inj hr)
    exact hw
  | cons p vConnect ih =>
    obtain ⟨s1, view1, vDelete1, h1, h2, -⟩ := connectBlocks_cons_ok h
    have hp := hmem p List.mem_cons_self
    exact ih (fun q hq => hmem q (List.mem_cons_of_mem _ hq))
      (connectIndex_undoWritten htree hp hw h1) _ h2

omit [ScriptEngine] in
theorem disconnectBlocks_undoWritten {vDisconnect : List CBlockIndex}
    {vResurrect : List CTransaction} (htree : BlockTree entries) (hw : UndoWritten entries data w.getBestBlock)
    (h : disconnectBlocks env data w vDisconnect = .ok (w', vResurrect)) :
    UndoWritten entries data w'.getBestBlock := by
  induction vDisconnect generalizing w vResurrect with
  | nil =>
    obtain ⟨rfl, -⟩ := Prod.mk.inj (Except.ok.inj h)
    exact hw
  | cons p vDisconnect ih =>
    obtain ⟨block, view1, vResurrect1, -, hdisc, hrest, -⟩ := disconnectBlocks_cons_ok.mp h
    obtain ⟨htip, hback⟩ := disconnectBlock_tip hdisc
    refine ih ?_ hrest
    have hp : p ∈ entries := hw.known p htip
    rw [hback]
    refine ⟨fun q hq => htree.mem_of_pprev hp hq, fun q hq hprev => hw.haveUndo q ?_ hprev⟩
    obtain ⟨pprev, hpprev, hq⟩ := mem_chainOf.mp hq
    rw [htip]
    exact mem_chain_trans hq (mem_chain_of_pprev hpprev)

/-- What `VerifyDB` needs of the index. -/
def Undoable (s : NodeState) : Prop := UndoWritten s.mapBlockIndex s.data s.coinsTip.getBestBlock

omit [Hashing] [ScriptEngine] [NodeConfig] [BlockFiles] in
theorem Undoable.of_kept (hs : Undoable s) (h : CoinsKept s s') : Undoable s' := by
  unfold Undoable
  rw [h.coinsTip, h.mapBlockIndex]
  exact hs.mono fun p hp => (h.undo p).1 ▸ hp

theorem setBestChain_undoable {reorganise : NodeState → Except Halt NodeState}
    {pindexNew : CBlockIndex} {r : Check Unit} (hmain : MainChain s)
    (hrun : s.fRequestShutdown = false) (hmem : pindexNew ∈ s.mapBlockIndex) (hs : Undoable s)
    (h : s.setBestChain reorganise env pindexNew = .ok (s', r)) : Undoable s' := by
  rcases setBestChain_coins hmain hrun hmem h with
    hkept | ⟨pfork, view, vResurrect, s1, r1, hfork, hdisc, hconn, hcases⟩
  · exact hs.of_kept hkept
  have hknown : ∀ p ∈ vConnect pfork pindexNew, p ∈ s.mapBlockIndex := fun p hp =>
    hmain.tree.mem_of_mem_chain hmem ((hmain.mem_vConnect hrun hmem hfork).mp hp).1
  have hview := disconnectBlocks_undoWritten hmain.tree hs hdisc
  obtain ⟨hmono, hok⟩ := connectBlocks_undoWritten hmain.tree hknown hview hconn
  have hframe := (connectBlocks_recorded hconn).frame
  have hmap : s1.mapBlockIndex = s.mapBlockIndex := by rw [hframe]
  have hcoins : s1.coinsTip = s.coinsTip := by rw [hframe]
  rcases hcases with hkept | ⟨view', vDelete, rfl, hkept⟩
  · refine Undoable.of_kept ?_ hkept
    unfold Undoable
    rw [hmap, hcoins]
    exact hs.mono hmono
  · have hview' := hok view' vDelete rfl
    rw [← hmap] at hview'
    have hstored : Undoable { s1 with coinsTip := view' } ∧
        Undoable { s1 with coinsTip := view'.dropPruned } := ⟨hview', hview'⟩
    rcases hkept with hkept | hkept
    · exact hstored.1.of_kept hkept
    · exact hstored.2.of_kept hkept

def UndoLoaded : NodeOp → Prop
  | .loadBlockIndexDB db coinsDB => UndoWritten db.entries db.data coinsDB.getBestBlock
  | _ => True

theorem step_undoable {o : NodeOp} (ho : UndoLoaded o) (hmain : MainChain s) (hs : Undoable s)
    (h : s.step o = some s') : Undoable s' := by
  refine step_keeps (fun _ _ hkept hs => hs.of_kept hkept)
    (fun _ _ _ _ _ _ hmain hrun hmem hs h => setBestChain_undoable hmain hrun hmem hs h)
    ?_ ?_ hmain hs h
  · rintro db coinsDB rfl -
    obtain ⟨hmap, hdata, htip⟩ := loadBlockIndexDB_coins db coinsDB
    unfold Undoable
    rw [hmap, hdata, htip]
    exact ho
  · rintro env fuel header rfl hnew
    rw [insertIndex, insertValid_eq]
    refine ⟨fun p hp => List.mem_cons_of_mem _ (hs.known p hp), fun p hp hprev => ?_⟩
    have hne : p ≠ s.newIndex header := by
      rintro rfl
      obtain ⟨best, hbest, hp⟩ := mem_chainOf.mp hp
      exact hnew (hmain.tree.mem_of_mem_chain (hs.known best hbest) hp)
    dsimp only
    rw [Function.update_of_ne hne]
    exact hs.haveUndo p hp hprev

omit [Hashing] [ScriptEngine] [NodeConfig] [BlockFiles] in
theorem undoable_init : Undoable init := by
  refine ⟨fun p hp => ?_, fun p hp => ?_⟩ <;> cases hp

theorem undoable_of_run {ops : List NodeOp} (hops : ∀ o ∈ ops, UndoLoaded o)
    (h : Run.run step init ops = some s) : Undoable s :=
  (Run.run_invariant (P := fun s => MainChain s ∧ Undoable s)
    (fun _ o ho _ hs h1 => ⟨step_mainChain hs.1 h1, step_undoable (hops o ho) hs.1 hs.2 h1⟩)
    ⟨mainChain_init, undoable_init⟩ h).2

/-! ## The two loops -/

/-- What holds of the node when `VerifyDB` is called, with `best` for `pindexBest`. -/
structure Verifiable (s : NodeState) (best : CBlockIndex) : Prop where
  main : MainChain s
  replayed : Replayed s
  undoable : Undoable s
  pindexBest : s.pindexBest = some best
  coinsBest : s.coinsTip.getBestBlock = some best

variable {venv : VerifyEnv} {st : VerifyState}

theorem exists_replay (h : replay best = .ok w) (hp : p ∈ best.chain) : ∃ v, replay p = .ok v := by
  induction best generalizing w with
  | root header =>
    obtain rfl : p = .root header := by simpa [chain] using hp
    exact ⟨w, h⟩
  | child q header ih =>
    rcases mem_chain_child.mp hp with rfl | hp
    · exact ⟨w, h⟩
    · obtain ⟨view, hview, -⟩ := Checked.bind_ok.mp h
      exact ih hview hp

namespace Verifiable

theorem replay_mem (hs : Verifiable s best) (hp : p ∈ best.chain) : ∃ v, replay p = .ok v := by
  obtain ⟨v, hv, -⟩ := hs.replayed.coins
  rw [hs.coinsBest] at hv
  exact exists_replay hv hp

theorem mem (hs : Verifiable s best) (hp : p ∈ best.chain) : p ∈ s.mapBlockIndex :=
  hs.main.tree.mem_of_mem_chain (hs.main.known best hs.pindexBest) hp

theorem ordinary (hs : Verifiable s best) (hp : p ∈ best.chain) : Ordinary s.mapBlockIndex p :=
  ⟨hs.mem hp, hs.main.tree.base_hash (hs.mem hp), hs.replayed.bip30 p (hs.mem hp)⟩

theorem haveUndo (hs : Verifiable s best) (hp : p ∈ best.chain) (hprev : p.pprev ≠ none) :
    (s.data p).nStatus.haveUndo = true :=
  hs.undoable.haveUndo p (hs.coinsBest ▸ hp) hprev

theorem readFromDisk (hs : Verifiable s best) (henv : venv.Works best) (hp : p ∈ best.chain) :
    readFromDisk venv.disk p = .ok (BlockFiles.block p) := by
  obtain ⟨v, hv⟩ := hs.replay_mem hp
  rw [replay_eq] at hv
  obtain ⟨view, -, hblock⟩ := Checked.bind_ok.mp hv
  exact readFromDisk_ok.mpr ⟨henv.fReadBlock p hp, rfl, (replayBlock_ok hblock).1⟩

theorem checkBlock (hs : Verifiable s best) (henv : venv.Works best) (hp : p ∈ best.chain) :
    ∃ u, (BlockFiles.block p).checkBlock (venv.nAdjustedTime p) true true = .ok u := by
  obtain ⟨v, hv⟩ := hs.replay_mem hp
  rw [replay_eq] at hv
  obtain ⟨view, -, hblock⟩ := Checked.bind_ok.mp hv
  obtain ⟨-, data, hconn⟩ := replayBlock_ok hblock
  obtain ⟨u, hcheck⟩ := connectBlock_checkBlock hconn
  exact ⟨u, CBlock.checkBlock_at (henv.nAdjustedTime p hp) hcheck⟩

end Verifiable

/-- What the first loop has found so far: nothing. -/
structure VerifiedTo (best : CBlockIndex) (st : VerifyState) : Prop where
  coins : Replays st.coins
  tip : st.coins.getBestBlock = some st.pindexState
  mem : st.pindexState ∈ best.chain
  pindexFailure : st.pindexFailure = none

theorem verifyFiles_spec (hs : Verifiable s best) (henv : venv.Works best) (hp : p ∈ best.chain)
    (hprev : p.pprev ≠ none) : verifyFiles venv s p = .ok (BlockFiles.block p) := by
  obtain ⟨u, hcheck⟩ := hs.checkBlock henv hp
  obtain ⟨-, -, -, blockundo, -, -, -, -, -, hundo⟩ :=
    hs.replayed.undo p (hs.mem hp) (hs.haveUndo hp hprev)
  rw [verifyFiles, hs.readFromDisk henv hp]
  dsimp only [bind, Except.bind, orReturn]
  rw [hcheck, henv.fReadUndo p hp, hundo, Option.isSome_some, Bool.and_self, Bool.or_true]
  split <;> rfl

theorem verifyBlock_spec (hs : Verifiable s best) (henv : venv.Works best) (hp : p ∈ best.chain)
    (hprev : p.pprev = some q) (hst : VerifiedTo best st) :
    ∃ st', verifyBlock venv s st p q = .ok st' ∧ VerifiedTo best st' := by
  have hroot : p.pprev ≠ none := by simp [hprev]
  rw [verifyBlock, verifyFiles_spec hs henv hp hroot]
  dsimp only [bind, Except.bind]
  split
  · next hlevel =>
    obtain ⟨-, hstate, -⟩ := hlevel
    have htip : st.coins.getBestBlock = some p := by rw [hst.tip, hstate]
    obtain ⟨coins, hdisc, hcoins⟩ :=
      exists_disconnectBlock (hs.ordinary hp) hs.replayed.undo hst.coins htip (hs.haveUndo hp hroot)
    have hback := (disconnectBlock_tip hdisc).2
    rw [henv.fReadUndo p hp, hdisc]
    exact ⟨_, rfl, hcoins, hback.trans hprev, mem_chain_trans (mem_chain_of_pprev hprev) hp,
      hst.pindexFailure⟩
  · exact ⟨st, rfl, hst⟩

theorem verifyDown_spec (hs : Verifiable s best) (henv : venv.Works best) (hp : p ∈ best.chain)
    (hst : VerifiedTo best st) : ∃ st', verifyDown venv s st p = .ok st' ∧ VerifiedTo best st' := by
  induction p generalizing st with
  | root header => exact ⟨st, rfl, hst⟩
  | child q header ih =>
    rw [verifyDown]
    split
    · exact ⟨st, rfl, hst⟩
    · obtain ⟨st1, h1, hst1⟩ := verifyBlock_spec hs henv hp rfl hst
      obtain ⟨st2, h2, hst2⟩ := ih (mem_chain_trans (mem_chain_of_pprev rfl) hp) hst1
      exact ⟨st2, Checked.bind_ok.mpr ⟨st1, h1, h2⟩, hst2⟩

/-- The next block connects again, and its undo data stays as it is. -/
theorem reconnect_spec (hs : Verifiable s best) (henv : venv.Works best) (hp : p ∈ best.chain)
    (hprev : p.pprev = some q) (hw : Replays w) (htip : w.getBestBlock = some q)
    {stored : BlockData} (hhave : stored.nStatus.haveUndo = true) :
    ∃ stored' w', connectBlock (venv.disk.connect p) (BlockFiles.block p) p (some p.getBlockHash)
        stored w false = (stored', .ok w') ∧ Replays w' ∧ w'.getBestBlock = some p ∧
      stored'.nStatus.haveUndo = stored.nStatus.haveUndo ∧ stored'.undo = stored.undo := by
  obtain ⟨v, hv, hequiv, hregular⟩ := hw
  obtain ⟨vp, hvp⟩ := hs.replay_mem hp
  have hreplay := hvp
  rw [replay_eq, hprev, ← htip, hv] at hvp
  obtain ⟨hhash, data, hconn⟩ := replayBlock_ok hvp
  obtain ⟨stored', w', hconn', hequiv'⟩ := connectBlock_congr hequiv.symm (henv.diskWorks p hp)
    (henv.nConnectTime p hp) hconn stored
  have htip' := (connectBlock_tip hconn').2
  have hkept := connectBlock_kept (venv.disk.connect p) (BlockFiles.block p) p
    (some p.getBlockHash) w hhave
  rw [hconn'] at hkept
  refine ⟨stored', w', hconn', ⟨vp, ?_, hequiv'.symm, ?_⟩, htip', hkept.1.trans hhave.symm, hkept.2⟩
  · rw [htip']
    exact hreplay
  · exact connectBlock_regular (hs.ordinary hp).base hhash hregular hconn'

theorem verifyUp_spec {s0 : NodeState} (hs : Verifiable s0 best) (henv : venv.Works best)
    (hframe : s = { s0 with data := s.data }) (hkept : CoinsKept s0 s) (hp : p ∈ best.chain)
    (hw : Replays w) (htip : w.getBestBlock = some p) {fuel : Nat}
    (hfuel : best.nHeight < fuel + p.nHeight) :
    ∃ s', verifyUp venv best fuel s w p = .ok (s', .ok ()) ∧ s' = { s0 with data := s'.data } ∧
      CoinsKept s0 s' := by
  induction fuel generalizing s w p with
  | zero =>
    have hle := nHeight_le_of_mem_chain hp
    omega
  | succ fuel ih =>
    rw [verifyUp]
    split
    · exact ⟨s, rfl, hframe, hkept⟩
    next hgo =>
    obtain ⟨b, hb, hprev⟩ := exists_next hp fun heq => hgo (.inl heq)
    have hnext : s.pnext p = some b := by
      rw [hframe]
      exact (hs.main.pnext_iff p b).mpr ⟨mem_chainOf.mpr ⟨best, hs.pindexBest, hb⟩, hprev⟩
    have hhave : (s.data b).nStatus.haveUndo = true := by
      rw [(hkept.undo b).1]
      exact hs.haveUndo hb (by simp [hprev])
    obtain ⟨stored, w', hconn, hw', htip', hstored⟩ := reconnect_spec hs henv hb hprev hw htip hhave
    have hheight := nHeight_of_pprev hprev
    rw [hnext]
    dsimp only
    rw [hs.readFromDisk henv hb]
    dsimp only
    rw [hconn]
    refine ih (by rw [hframe]) (hkept.trans ⟨rfl, rfl, fun x => ?_⟩) hb hw' htip' (by omega)
    dsimp only
    by_cases hx : x = b
    · subst hx
      rw [Function.update_self]
      exact hstored
    · rw [Function.update_of_ne hx]
      exact ⟨rfl, rfl⟩

/-- **`VerifyDB` finds nothing on the coins of any run**, at every level and depth, wherever its
cache fills up or a shutdown stops it. It leaves the coins, the index and the undo data as they are. -/
theorem verifyDB_spec {ops : List NodeOp} (hops : ∀ o ∈ ops, Replayable o ∧ UndoLoaded o)
    (h : Run.run step init ops = some s) (hrun : s.fRequestShutdown = false)
    (henv : ∀ best ∈ s.pindexBest, venv.Works best) :
    ∃ s', s.verifyDB venv = .ok (s', .ok ()) ∧ s' = { s with data := s'.data } ∧
      CoinsKept s s' := by
  obtain ⟨hmain, hreplayed⟩ := replayed_of_run (fun o ho => (hops o ho).1) h
  have hundoable := undoable_of_run (fun o ho => (hops o ho).2) h
  have hcoins := hmain.coins hrun
  rcases Option.eq_none_or_eq_some s.pindexBest with hbest | ⟨best, hbest⟩
  · exact ⟨s, by rw [verifyDB, hbest], rfl, .refl s⟩
  by_cases hroot : best.pprev = none
  · refine ⟨s, ?_, rfl, .refl s⟩
    rw [verifyDB, hbest]
    exact if_pos hroot
  have hs : Verifiable s best := ⟨hmain, hreplayed, hundoable, hbest, hcoins.trans hbest⟩
  have hworks := henv best hbest
  have hstart : VerifiedTo best ⟨s.coinsTip, best, none, 0⟩ :=
    ⟨hreplayed.coins, hs.coinsBest, self_mem_chain, rfl⟩
  obtain ⟨st, hdown, hst⟩ := verifyDown_spec hs hworks self_mem_chain hstart
  have hcall : s.verifyDB venv = if 4 ≤ checkLevel venv then
      verifyUp venv best (best.nHeight + 1) s st.coins st.pindexState else .ok (s, .ok ()) := by
    rw [verifyDB, hbest]
    dsimp only
    rw [if_neg hroot, hdown]
    dsimp only
    rw [hst.pindexFailure, Option.isSome_none, if_neg Bool.false_ne_true]
  rw [hcall]
  split
  · have hfuel : best.nHeight < best.nHeight + 1 + st.pindexState.nHeight := by omega
    exact verifyUp_spec hs hworks rfl (.refl s) hst.mem hst.coins hst.tip hfuel
  · exact ⟨s, rfl, rfl, .refl s⟩

end NodeState

namespace Sample

def verifyEnv : VerifyEnv :=
  ⟨4, 0, fun _ => false, fun _ => false, fun _ => 1000, fun _ => true, switchEnv⟩

theorem undoLoaded_detourRun : ∀ o ∈ detourRun, NodeState.UndoLoaded o := by
  intro o ho
  simp only [detourRun, List.mem_cons, List.not_mem_nil, or_false] at ho
  rcases ho with rfl | rfl | rfl | rfl <;> trivial

theorem verifyDB_spec_sample : ∃ s s', Run.run NodeState.step .init detourRun = some s ∧
    s.pindexBest = some (next 2) ∧ s.verifyDB verifyEnv = .ok (s', .ok ()) := by
  have hrun : ((Run.run NodeState.step .init detourRun).any fun s =>
      s.pindexBest == some (next 2) && !s.fRequestShutdown) = true := by
    decide +kernel
  obtain ⟨s, hs, hstate⟩ := (Option.any_eq_true _ _).mp hrun
  rw [Bool.and_eq_true, beq_iff_eq, Bool.not_eq_true'] at hstate
  have htimes : ∀ p ∈ (next 2).chain, (BlockFiles.block p).getBlockTime ≤ 1000 + 15 * 60 := by
    decide +kernel
  have hworks : verifyEnv.Works (next 2) :=
    ⟨fun _ _ => rfl, fun _ _ => rfl, fun _ _ => rfl, htimes, htimes⟩
  obtain ⟨s', hcall, -⟩ := NodeState.verifyDB_spec
    (fun o ho => ⟨replayable_detourRun o ho, undoLoaded_detourRun o ho⟩) hs hstate.2
    (fun best hbest => by
      obtain rfl := Option.some.inj (hstate.1.symm.trans hbest)
      exact hworks)
  exact ⟨s, s', hs, hstate.1, hcall⟩

end Sample

end Terracoin
