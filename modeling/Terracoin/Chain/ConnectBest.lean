import Terracoin.Chain.SetBestChain

/-!
# `ConnectBestBlock` and the block index

`ConnectBestBlock` moves the active chain to the entry of `setBlockIndexValid` with the most work.
Its outer loop, and the calls of it that `InvalidBlockFound` makes, take fuel. `AddToBlockIndex`
and `LoadBlockIndexDB` fill the index, and `NodeState.step` puts all the operations together.
-/

namespace Terracoin

open CBlockIndex

/-- What a call of `ConnectBestBlock` meets outside the state, for every entry it switches to: a
request to shut down that arrives just before, and the call of `SetBestChain`. -/
structure ConnectBestEnv where
  fShutdown : CBlockIndex → Bool
  switch : CBlockIndex → SetBestChainEnv

namespace NodeState

/-- `vAttach.push_back(pindexTest)`, if it has more work than `pindexBest`. The list is kept in the
order in which it is used. -/
def pushAttach (s : NodeState) (pindexTest : CBlockIndex) (vAttach : List CBlockIndex) :
    List CBlockIndex :=
  if s.pindexBest.all fun pindexBest => pindexTest.bnChainWork > pindexBest.bnChainWork then
    pindexTest :: vAttach
  else vAttach

/-- The inner loop of `ConnectBestBlock`: the failed entry that it meets, or the entries to attach
once it has come to the root or to the active chain. -/
def checkAncestry (s : NodeState) : CBlockIndex → List CBlockIndex → CBlockIndex ⊕ List CBlockIndex
  | .root h, vAttach =>
    if s.failed (.root h) then .inl (.root h) else .inr (s.pushAttach (.root h) vAttach)
  | .child p h, vAttach =>
    if s.failed (.child p h) then .inl (.child p h)
    else if (s.pnext (.child p h)).isSome then .inr (s.pushAttach (.child p h) vAttach)
    else checkAncestry s p (s.pushAttach (.child p h) vAttach)

variable [Hashing]

/-- Mark the descendants of `pindexTest` from `pindexFailed` down. -/
def markFailed (pindexTest : CBlockIndex) : NodeState → CBlockIndex → NodeState
  | s, .root h =>
    if pindexTest = .root h then s else (s.setFailedChild (.root h)).eraseValid (.root h)
  | s, .child p h =>
    if pindexTest = .child p h then s
    else markFailed pindexTest ((s.setFailedChild (.child p h)).eraseValid (.child p h)) p

/-! ## The loop -/

variable [ScriptEngine] [NodeConfig] [BlockFiles]

/-- The loop over `vAttach`. -/
def attachBlocks (setBestChain : NodeState → CBlockIndex → Except Halt (NodeState × Check Unit))
    (fShutdown : CBlockIndex → Bool) :
    NodeState → List CBlockIndex → Except Halt (NodeState × Check Unit)
  | s, [] => .ok (s, .ok ())
  | s, pindexSwitch :: vAttach =>
    let s := { s with fRequestShutdown := s.fRequestShutdown || fShutdown pindexSwitch }
    if s.fRequestShutdown then .ok (s, .ok ())
    else do
      let (s, r) ← setBestChain s pindexSwitch
      match r with
      | .ok () => attachBlocks setBestChain fShutdown s vAttach
      | .error e => .ok (s, .error e)

/-- There is nothing to do: the entry is the best block, or has the same work. -/
def nothingToDo (s : NodeState) (pindexNewBest : CBlockIndex) : Bool :=
  s.pindexBest == some pindexNewBest ||
    s.pindexBest.any fun pindexBest => pindexNewBest.bnChainWork == pindexBest.bnChainWork

def connectBestBlock (env : ConnectBestEnv) :
    Nat → NodeState → Except Halt (NodeState × Check Unit)
  | 0, _ => .error .outOfFuel
  | fuel + 1, s =>
    match rbegin s.setBlockIndexValid with
    | none => .ok (s, .ok ())
    | some pindexNewBest =>
      if s.nothingToDo pindexNewBest then .ok (s, .ok ())
      else
        match s.checkAncestry pindexNewBest [] with
        | .inl pindexTest => do
          let s ← (markFailed pindexTest s pindexNewBest).invalidChainFound pindexNewBest
          connectBestBlock env fuel s
        | .inr vAttach =>
          attachBlocks (fun s pindexSwitch =>
            s.setBestChain (fun s => (connectBestBlock env fuel s).map Prod.fst)
              (env.switch pindexSwitch) pindexSwitch) env.fShutdown s vAttach

/-- What a round of the loop can do. -/
theorem connectBestBlock_cases {env : ConnectBestEnv} {fuel : Nat} {s s' : NodeState}
    {r : Check Unit} (h : connectBestBlock env (fuel + 1) s = .ok (s', r)) :
    (s.setBlockIndexValid = [] ∧ s' = s ∧ r = .ok ()) ∨
    ∃ top, rbegin s.setBlockIndexValid = some top ∧
      ((s.nothingToDo top = true ∧ s' = s ∧ r = .ok ()) ∨
      (∃ pindexTest s1, s.checkAncestry top [] = .inl pindexTest ∧
        (markFailed pindexTest s top).invalidChainFound top = .ok s1 ∧
        connectBestBlock env fuel s1 = .ok (s', r)) ∨
      ∃ vAttach, s.checkAncestry top [] = .inr vAttach ∧
        attachBlocks (fun s pindexSwitch =>
          s.setBestChain (fun s => (connectBestBlock env fuel s).map Prod.fst)
            (env.switch pindexSwitch) pindexSwitch) env.fShutdown s vAttach = .ok (s', r)) := by
  rw [connectBestBlock] at h
  split at h
  · rename_i hnone
    obtain ⟨rfl, rfl⟩ := Prod.mk.inj (Except.ok.inj h)
    exact .inl ⟨rbegin_isSome hnone, rfl, rfl⟩
  · rename_i top htop
    refine .inr ⟨top, htop, ?_⟩
    split at h
    · obtain ⟨rfl, rfl⟩ := Prod.mk.inj (Except.ok.inj h)
      exact .inl ⟨‹_›, rfl, rfl⟩
    · split at h
      · obtain ⟨s1, h1, h⟩ := Checked.bind_ok.mp h
        exact .inr (.inl ⟨_, s1, ‹_›, h1, h⟩)
      · exact .inr (.inr ⟨_, ‹_›, h⟩)

/-! ## Filling the index -/

/-- Which disk operations of `AddToBlockIndex` succeed. -/
structure AddEnv where
  fWriteBlockIndex : Bool
  fFlush : Bool
  best : ConnectBestEnv

/-- `mapBlockIndex.find(hash)`. -/
def findIndex (s : NodeState) (hash : uint256) : Option CBlockIndex :=
  s.mapBlockIndex.find? fun pindex => pindex.getBlockHash == hash

def insertIndex (s : NodeState) (pindexNew : CBlockIndex) : NodeState :=
  { s with
    mapBlockIndex := pindexNew :: s.mapBlockIndex
    data := Function.update s.data pindexNew .unconnected
    pnext := Function.update s.pnext pindexNew none }.insertValid pindexNew

def addToBlockIndex (env : AddEnv) (fuel : Nat) (s : NodeState) (header : CBlockHeader) :
    Except Halt (NodeState × Check Unit) :=
  if (s.findIndex header.getHash).isSome then
    s.fail (.DoS 0 "AddToBlockIndex() : %s already exists")
  else
    let pindexNew := (s.findIndex header.hashPrevBlock).elim (.root header) (.child · header)
    let s := s.insertIndex pindexNew
    if !env.fWriteBlockIndex then s.fail (.abort "Failed to write block index")
    else do
      let (s, r) ← connectBestBlock env.best fuel s
      match r with
      | .error e => .ok (s, .error e)
      | .ok () =>
        if !env.fFlush then s.fail (.abort "Failed to sync block index") else .ok (s, .ok ())

/-- The index entry `AddToBlockIndex` makes for a header. -/
def newIndex (s : NodeState) (header : CBlockHeader) : CBlockIndex :=
  (s.findIndex header.hashPrevBlock).elim (.root header) (.child · header)

/-- A call refuses a known header; otherwise it inserts the entry and, unless a write fails, looks for
the best block. -/
theorem addToBlockIndex_cases {env : AddEnv} {fuel : Nat} {s s' : NodeState} {header : CBlockHeader}
    {r : Check Unit} (h : s.addToBlockIndex env fuel header = .ok (s', r)) :
    (∃ e, s' = s.abortOn e) ∨ s.findIndex header.getHash = none ∧
      ((∃ e, s' = (s.insertIndex (s.newIndex header)).abortOn e) ∨
      ∃ s1 r1, connectBestBlock env.best fuel (s.insertIndex (s.newIndex header)) = .ok (s1, r1) ∧
        (s' = s1 ∨ ∃ e, s' = s1.abortOn e)) := by
  unfold addToBlockIndex at h
  split at h
  · obtain ⟨-, rfl, -⟩ := fail_ok.mp h
    exact .inl ⟨_, rfl⟩
  · refine .inr ⟨Option.not_isSome_iff_eq_none.mp ‹_›, ?_⟩
    dsimp only at h
    split at h
    · obtain ⟨-, rfl, -⟩ := fail_ok.mp h
      exact .inl ⟨_, rfl⟩
    · obtain ⟨⟨s1, r1⟩, h1, h⟩ := Checked.bind_ok.mp h
      refine .inr ⟨s1, r1, h1, ?_⟩
      cases r1 with
      | error e =>
        obtain ⟨rfl, -⟩ := Prod.mk.inj (Except.ok.inj h)
        exact .inl rfl
      | ok u =>
        dsimp only at h
        split at h
        · obtain ⟨-, rfl, -⟩ := fail_ok.mp h
          exact .inr ⟨_, rfl⟩
        · obtain ⟨rfl, -⟩ := Prod.mk.inj (Except.ok.inj h)
          exact .inl rfl

/-- What the block tree database holds. -/
structure BlockTreeDB where
  entries : List CBlockIndex
  data : CBlockIndex → BlockData
  bnBestInvalidWork : Int

/-- The entries that `LoadBlockIndexDB` puts into `setBlockIndexValid`. -/
def isCandidate (data : BlockData) : Bool :=
  decide (BLOCK_VALID_TRANSACTIONS ≤ data.nStatus.validity) && !data.nStatus.failed

/-- `LoadBlockIndexDB` in a process that has just been started and has called `UnloadBlockIndex`;
`coinsDB` is what `*pcoinsTip` reads from the coin database. -/
def loadBlockIndexDB (db : BlockTreeDB) (coinsDB : CoinsView) : NodeState :=
  let s := { init with
    mapBlockIndex := db.entries
    data := db.data
    pindexGenesisBlock := db.entries.find? fun pindex => pindex.getBlockHash == hashGenesisBlock
    nBestHeight := 0
    bnBestInvalidWork := db.bnBestInvalidWork
    coinsTip := coinsDB }
  let s := (db.entries.filter fun pindex => isCandidate (db.data pindex)).foldl insertValid s
  match coinsDB.getBestBlock with
  | none => s
  | some pindexBest =>
    { s with
      pindexBest := some pindexBest
      hashBestChain := pindexBest.getBlockHash
      nBestHeight := pindexBest.nHeight
      bnBestChainWork := pindexBest.bnChainWork
      pnext := setNext s.pnext pindexBest.chain }

end NodeState

/-- What holds of the entries of `mapBlockIndex`: a predecessor of an entry is an entry, an entry is
found under its hash, and `AcceptBlock` lets no block but the genesis block in without one. -/
structure BlockTree [Hashing] [NodeConfig] (entries : List CBlockIndex) : Prop where
  closed : ∀ p ∈ entries, ∀ q ∈ p.pprev, q ∈ entries
  hash_nodup : (entries.map CBlockIndex.getBlockHash).Nodup
  genesis : ∀ p ∈ entries, p.pprev = none → p.getBlockHash = hashGenesisBlock

instance [Hashing] [NodeConfig] (entries : List CBlockIndex) : Decidable (BlockTree entries) :=
  decidable_of_iff ((∀ p ∈ entries, ∀ q ∈ p.pprev, q ∈ entries) ∧
      (entries.map CBlockIndex.getBlockHash).Nodup ∧
      ∀ p ∈ entries, p.pprev = none → p.getBlockHash = hashGenesisBlock)
    ⟨fun h => ⟨h.1, h.2.1, h.2.2⟩, fun h => ⟨h.closed, h.hash_nodup, h.genesis⟩⟩

/-! ## Operations -/

/-- The operations of a node. Loading the block index starts a new process. -/
inductive NodeOp where
  | loadBlockIndexDB (db : NodeState.BlockTreeDB) (coinsDB : CoinsView)
  | addToBlockIndex (env : NodeState.AddEnv) (fuel : Nat) (header : CBlockHeader)
  | invalidBlockFound (env : ConnectBestEnv) (fuel : Nat) (pindex : CBlockIndex)
  | connectBestBlock (env : ConnectBestEnv) (fuel : Nat)
  | setBestChain (env : ConnectBestEnv) (fuel : Nat) (pindexNew : CBlockIndex)
  | findBlockByHeight (nHeight : Int)
  | acceptToMemoryPool (nAdjustedTime : Int) (fRateLimited : Bool) (tx : CTransaction)
      (fLimitFree : Bool)

namespace NodeState

variable [Hashing] [ScriptEngine] [NodeConfig] [BlockFiles]

/-- The state after an operation, if its callers make it and it returns. The databases hold a tree
of blocks and the coins of one of them; `AcceptBlock` adds a block with a known predecessor, and
`InitBlockIndex` the genesis block; and `ConnectBestBlock` calls `SetBestChain` only when no
shutdown is requested. -/
def step (s : NodeState) : NodeOp → Option NodeState
  | .loadBlockIndexDB db coinsDB =>
    if BlockTree db.entries ∧ ∀ p ∈ coinsDB.getBestBlock, p ∈ db.entries then
      some (loadBlockIndexDB db coinsDB)
    else none
  | .addToBlockIndex env fuel header =>
    if (s.findIndex header.hashPrevBlock).isSome ∨ header.getHash = hashGenesisBlock then
      (s.addToBlockIndex env fuel header).toOption.map Prod.fst
    else none
  | .invalidBlockFound env fuel pindex =>
    if pindex ∈ s.mapBlockIndex then
      (s.invalidBlockFound (fun s => (connectBestBlock env fuel s).map Prod.fst) pindex).toOption
    else none
  | .connectBestBlock env fuel => (connectBestBlock env fuel s).toOption.map Prod.fst
  | .setBestChain env fuel pindexNew =>
    if pindexNew ∈ s.mapBlockIndex ∧ s.fRequestShutdown = false then
      (s.setBestChain (fun s => (connectBestBlock env fuel s).map Prod.fst)
        (env.switch pindexNew) pindexNew).toOption.map Prod.fst
    else none
  | .findBlockByHeight nHeight => (s.findBlockByHeight nHeight).map Prod.snd
  | .acceptToMemoryPool nAdjustedTime fRateLimited tx fLimitFree =>
    (s.acceptToMemoryPool nAdjustedTime fRateLimited tx fLimitFree).toOption

/-- What a step has done: what its callers made sure of, and the call that returned. -/
inductive Stepped (s : NodeState) : NodeOp → NodeState → Prop
  | loadBlockIndexDB {db : BlockTreeDB} {coinsDB : CoinsView} (tree : BlockTree db.entries)
    (best : ∀ p ∈ coinsDB.getBestBlock, p ∈ db.entries) :
    Stepped s (.loadBlockIndexDB db coinsDB) (NodeState.loadBlockIndexDB db coinsDB)
  | addToBlockIndex {env : AddEnv} {fuel : Nat} {header : CBlockHeader} {s' : NodeState}
    {r : Check Unit}
    (prev : (s.findIndex header.hashPrevBlock).isSome ∨ header.getHash = hashGenesisBlock)
    (call : s.addToBlockIndex env fuel header = .ok (s', r)) :
    Stepped s (.addToBlockIndex env fuel header) s'
  | invalidBlockFound {env : ConnectBestEnv} {fuel : Nat} {pindex : CBlockIndex} {s' : NodeState}
    (mem : pindex ∈ s.mapBlockIndex)
    (call : s.invalidBlockFound (fun s => (connectBestBlock env fuel s).map Prod.fst) pindex =
      .ok s') : Stepped s (.invalidBlockFound env fuel pindex) s'
  | connectBestBlock {env : ConnectBestEnv} {fuel : Nat} {s' : NodeState} {r : Check Unit}
    (call : NodeState.connectBestBlock env fuel s = .ok (s', r)) :
    Stepped s (.connectBestBlock env fuel) s'
  | setBestChain {env : ConnectBestEnv} {fuel : Nat} {pindexNew : CBlockIndex} {s' : NodeState}
    {r : Check Unit} (mem : pindexNew ∈ s.mapBlockIndex) (running : s.fRequestShutdown = false)
    (call : s.setBestChain (fun s => (NodeState.connectBestBlock env fuel s).map Prod.fst)
      (env.switch pindexNew) pindexNew = .ok (s', r)) :
    Stepped s (.setBestChain env fuel pindexNew) s'
  | findBlockByHeight {nHeight : Int} {p : CBlockIndex} {s' : NodeState}
    (call : s.findBlockByHeight nHeight = some (p, s')) : Stepped s (.findBlockByHeight nHeight) s'
  | acceptToMemoryPool {nAdjustedTime : Int} {fRateLimited : Bool} {tx : CTransaction}
    {fLimitFree : Bool} {s' : NodeState}
    (call : s.acceptToMemoryPool nAdjustedTime fRateLimited tx fLimitFree = .ok s') :
    Stepped s (.acceptToMemoryPool nAdjustedTime fRateLimited tx fLimitFree) s'

theorem stepped_of_step {s s' : NodeState} {o : NodeOp} (h : s.step o = some s') :
    Stepped s o s' := by
  cases o with
  | loadBlockIndexDB db coinsDB =>
    rw [step] at h
    split at h
    · rename_i hdb
      obtain rfl := Option.some.inj h
      exact .loadBlockIndexDB hdb.1 hdb.2
    · cases h
  | addToBlockIndex env fuel header =>
    rw [step] at h
    split at h
    · obtain ⟨r, hcall⟩ := Checked.toOption_map_fst h
      exact .addToBlockIndex ‹_› hcall
    · cases h
  | invalidBlockFound env fuel pindex =>
    rw [step] at h
    split at h
    · exact .invalidBlockFound ‹_› (Checked.toOption_eq_some.mp h)
    · cases h
  | connectBestBlock env fuel =>
    obtain ⟨r, hcall⟩ := Checked.toOption_map_fst h
    exact .connectBestBlock hcall
  | setBestChain env fuel pindexNew =>
    rw [step] at h
    split at h
    · rename_i hcallers
      obtain ⟨r, hcall⟩ := Checked.toOption_map_fst h
      exact .setBestChain hcallers.1 hcallers.2 hcall
    · cases h
  | findBlockByHeight nHeight =>
    obtain ⟨⟨p, s1⟩, hcall, rfl⟩ := Option.map_eq_some_iff.mp h
    exact .findBlockByHeight hcall
  | acceptToMemoryPool nAdjustedTime fRateLimited tx fLimitFree =>
    exact .acceptToMemoryPool (Checked.toOption_eq_some.mp h)

theorem invalidBlockFound_cases {env : ConnectBestEnv} {fuel : Nat} {s s' : NodeState}
    {pindex : CBlockIndex}
    (h : s.invalidBlockFound (fun s => (connectBestBlock env fuel s).map Prod.fst) pindex = .ok s') :
    ∃ s1, ((s.setFailedValid pindex).eraseValid pindex).invalidChainFound pindex = .ok s1 ∧
      (s' = s1 ∨ ∃ r, connectBestBlock env fuel s1 = .ok (s', r)) := by
  obtain ⟨s1, h1, h⟩ := Checked.bind_ok.mp h
  refine ⟨s1, h1, ?_⟩
  split at h
  · exact .inr (Checked.map_fst_ok h)
  · exact .inl (Except.ok.inj h).symm

end NodeState

end Terracoin
