import Terracoin.Chain.ProcessBlock

/-!
# The transaction notifier

`fTrxWatchedList` counts the confirmations of the transactions that pay the wallet. After each block
that `ProcessBlock` accepts, `NotifierInspectBlock` adds one to every count, stops watching the
transactions that have enough confirmations or that `GetTransaction` does not find any more, and
starts to watch those of the new block.

A count is right as long as each accepted block puts exactly one block on top of the watched
transactions. The loop over the list erases the entry it stands on, and then goes on from it: this
happens whenever a transaction has all its confirmations (`trxNotifier_spec`).
-/

namespace Terracoin

open CBlockIndex Checked
open Std (TreeMap)

/-- What the notifier meets outside the state of the node: the files of the transaction index and of
the blocks, and the wallet. -/
structure NotifierEnv where
  /-- `ReadTxIndex`, with the header and the transaction at the position it gives, or `none` there
  for a failed read. -/
  readTxIndex : uint256 → Option (Option (CBlockHeader × CTransaction))
  fReadBlock : CBlockIndex → Bool
  isFromMe : CTransaction → Bool
  isMine : CTxOut → Bool
  isChange : CTxOut → Bool
  /-- The address of the wallet that the output pays, if its script has one. -/
  toAddress : CTxOut → Option String

/-- A task for `TrxNotifierWorker`. -/
structure TrxNotification where
  hash : uint256
  toAddr : String
  nValue : Int
  nConf : Int

/-! ## `GetTransaction` -/

namespace NodeState

variable [Hashing] [NodeConfig] [BlockFiles]

/-- The block at the height that the coins of the transaction give, if they give one. -/
def findSlow (s : NodeState) (hash : uint256) : Except Halt (NodeState × Option CBlockIndex) :=
  match s.coinsTip.coins hash with
  | none => .ok (s, none)
  | some coins =>
    if 0 < coins.nHeight then
      match s.findBlockByHeight coins.nHeight with
      | none => .error .crash
      | some (pindexSlow, s) => .ok (s, some pindexSlow)
    else .ok (s, none)

def scanBlock (env : NotifierEnv) (hash : uint256) (pindexSlow : CBlockIndex) :
    Option (CTransaction × uint256) :=
  let block := BlockFiles.block pindexSlow
  if env.fReadBlock pindexSlow && block.getHash == pindexSlow.getBlockHash then
    (block.vtx.find? fun tx => tx.getHash == hash).map fun tx => (tx, pindexSlow.getBlockHash)
  else none

/-- `GetTransaction`, with the transaction and the hash of its block, which is 0 for a transaction
of the memory pool. -/
def getTransaction (env : NotifierEnv) (s : NodeState) (hash : uint256) (fAllowSlow : Bool) :
    Except Halt (NodeState × Option (CTransaction × uint256)) :=
  match s.mempool.mapTx hash with
  | some tx => .ok (s, some (tx, 0))
  | none =>
    match if NodeConfig.fTxIndex then env.readTxIndex hash else none with
    | some none => .ok (s, none)
    | some (some (header, tx)) =>
      .ok (s, if tx.getHash = hash then some (tx, header.getHash) else none)
    | none =>
      if fAllowSlow then
        (s.findSlow hash).map fun found => (found.1, found.2.bind (scanBlock env hash))
      else .ok (s, none)

/-- `GetTransaction` finds the transaction. -/
def Finds (env : NotifierEnv) (s : NodeState) (hash : uint256) : Prop :=
  ∃ s' found, s.getTransaction env hash true = .ok (s', some found)

/-- The states differ in the pointer that `FindBlockByHeight` keeps. Both are states of a node. -/
structure CacheOnly (s s' : NodeState) : Prop where
  frame : s' = { s with pblockindexFBBHLast := s'.pblockindexFBBHLast }
  before : MainChain s
  after : MainChain s'

variable {env : NotifierEnv} {s s' s'' : NodeState} {hash : uint256} {nHeight : Int}

section

omit [BlockFiles]

theorem CacheOnly.refl (hs : MainChain s) : CacheOnly s s := ⟨rfl, hs, hs⟩

theorem CacheOnly.trans (h : CacheOnly s s') (h' : CacheOnly s' s'') : CacheOnly s s'' := by
  refine ⟨?_, h.before, h'.after⟩
  rw [h'.frame, h.frame]

/-- The entry of a chain with the given height. -/
def entryAt (tip : Option CBlockIndex) (nHeight : Int) : Option CBlockIndex :=
  (chainOf tip).find? fun p => (p.nHeight : Int) == nHeight

omit [Hashing] [NodeConfig] in
theorem entryAt_eq_some {best p : CBlockIndex} (hp : p ∈ best.chain)
    (hheight : (p.nHeight : Int) = nHeight) : entryAt (some best) nHeight = some p := by
  unfold entryAt
  cases hfind : (chainOf (some best)).find? fun p => (p.nHeight : Int) == nHeight with
  | none => exact absurd hheight (by simpa using List.find?_eq_none.mp hfind p hp)
  | some q =>
    have hq : (q.nHeight : Int) = nHeight := by simpa using List.find?_some hfind
    rw [eq_of_nHeight_eq (List.mem_of_find?_eq_some hfind) hp (by omega)]

omit [Hashing] [NodeConfig] in
theorem le_raiseTo {n : Nat} {p a : CBlockIndex} (h : s.raiseTo nHeight n p = some a) :
    nHeight ≤ a.nHeight := by
  induction n generalizing p with
  | zero =>
    rw [raiseTo] at h
    split at h
    · cases h
    · obtain rfl := Option.some.inj h
      omega
  | succ n ih =>
    rw [raiseTo] at h
    split at h
    · obtain ⟨q, -, h⟩ := Option.bind_eq_some_iff.mp h
      exact ih h
    · obtain rfl := Option.some.inj h
      omega

/-- A block that `FindBlockByHeight` returns is on the active chain, at that height. -/
theorem findBlockByHeight_some (hs : MainChain s) {p : CBlockIndex}
    (h : s.findBlockByHeight nHeight = some (p, s')) :
    s' = { s with pblockindexFBBHLast := some p } ∧ entryAt s.pindexBest nHeight = some p := by
  have hmain := findBlockByHeight_mainChain hs h
  obtain ⟨b, c, a, hb, hc, ha, heq⟩ := findBlockByHeight_eq.mp h
  obtain ⟨rfl, rfl⟩ := Prod.mk.inj heq
  obtain ⟨best, hbest, hmem⟩ := mem_chainOf.mp (hmain.last p rfl)
  have hbest' : s.pindexBest = some best := hbest
  have h0 : 0 ≤ nHeight := by
    by_contra hneg
    rw [lowerTo_of_neg (by omega)] at hc
    cases hc
  have hle : nHeight ≤ s.nBestHeight := by
    have hraise := le_raiseTo ha
    have := nHeight_le_of_mem_chain hmem
    rw [(hs.tip best hbest').2.1]
    omega
  obtain ⟨q, s', hq, hqmem, hheight⟩ := findBlockByHeight_spec hs hbest' h0 hle
  obtain ⟨rfl, -⟩ := Prod.mk.inj (Option.some.inj (h.symm.trans hq))
  rw [hbest']
  exact ⟨rfl, entryAt_eq_some hqmem hheight⟩

/-- `FindBlockByHeight` does not depend on the pointer it kept. -/
theorem findBlockByHeight_eq_entryAt (hs : MainChain s) : s.findBlockByHeight nHeight =
    (entryAt s.pindexBest nHeight).map fun p => (p, { s with pblockindexFBBHLast := some p }) := by
  cases hfind : s.findBlockByHeight nHeight with
  | some r =>
    obtain ⟨hframe, hentry⟩ := findBlockByHeight_some hs hfind
    rw [hentry, Option.map_some, ← hframe]
  | none =>
    cases hentry : entryAt s.pindexBest nHeight with
    | none => rfl
    | some p =>
      obtain ⟨best, hbest, hmem⟩ := mem_chainOf.mp (List.mem_of_find?_eq_some hentry)
      have hheight : (p.nHeight : Int) = nHeight := by simpa using List.find?_some hentry
      have hle : nHeight ≤ s.nBestHeight := by
        have := nHeight_le_of_mem_chain hmem
        rw [(hs.tip best hbest).2.1]
        omega
      obtain ⟨q, s', hq, -⟩ := findBlockByHeight_spec hs hbest (by omega) hle
      rw [hfind] at hq
      cases hq

/-- The block that the coins give depends on the active chain only. -/
theorem findSlow_spec (hs : MainChain s) {found : Option CBlockIndex}
    (h : s.findSlow hash = .ok (s', found)) : CacheOnly s s' := by
  unfold findSlow at h
  split at h
  · obtain ⟨rfl, -⟩ := Prod.mk.inj (Except.ok.inj h)
    exact .refl hs
  · split at h
    · split at h
      · cases h
      · rename_i p s1 hfind
        obtain ⟨rfl, -⟩ := Prod.mk.inj (Except.ok.inj h)
        have hframe := (findBlockByHeight_some hs hfind).1
        exact ⟨by rw [hframe], hs, findBlockByHeight_mainChain hs hfind⟩
    · obtain ⟨rfl, -⟩ := Prod.mk.inj (Except.ok.inj h)
      exact .refl hs

theorem findSlow_congr (h : CacheOnly s s') :
    (s'.findSlow hash).map Prod.snd = (s.findSlow hash).map Prod.snd := by
  have hcoins : s'.coinsTip = s.coinsTip := by rw [h.frame]
  have hbest : s'.pindexBest = s.pindexBest := by rw [h.frame]
  unfold findSlow
  rw [hcoins]
  cases s.coinsTip.coins hash with
  | none => rfl
  | some coins =>
    dsimp only
    split
    · rw [findBlockByHeight_eq_entryAt h.before, findBlockByHeight_eq_entryAt h.after, hbest]
      cases entryAt s.pindexBest coins.nHeight <;> rfl
    · rfl

end

theorem getTransaction_cacheOnly (hs : MainChain s) {fAllowSlow : Bool}
    {found : Option (CTransaction × uint256)}
    (h : s.getTransaction env hash fAllowSlow = .ok (s', found)) : CacheOnly s s' := by
  unfold getTransaction at h
  split at h
  · obtain ⟨rfl, -⟩ := Prod.mk.inj (Except.ok.inj h)
    exact .refl hs
  · split at h
    · obtain ⟨rfl, -⟩ := Prod.mk.inj (Except.ok.inj h)
      exact .refl hs
    · obtain ⟨rfl, -⟩ := Prod.mk.inj (Except.ok.inj h)
      exact .refl hs
    · split at h
      · obtain ⟨r, hr, heq⟩ := map_ok.mp h
        obtain ⟨rfl, -⟩ := Prod.mk.inj heq
        exact findSlow_spec hs hr
      · obtain ⟨rfl, -⟩ := Prod.mk.inj (Except.ok.inj h)
        exact .refl hs

theorem getTransaction_congr (h : CacheOnly s s') {fAllowSlow : Bool} :
    (s'.getTransaction env hash fAllowSlow).map Prod.snd =
      (s.getTransaction env hash fAllowSlow).map Prod.snd := by
  have hpool : s'.mempool = s.mempool := by rw [h.frame]
  have hscan : ∀ found : Except Halt (NodeState × Option CBlockIndex),
      (found.map fun found => (found.1, found.2.bind (scanBlock env hash))).map Prod.snd =
        (found.map Prod.snd).map fun pindexSlow => pindexSlow.bind (scanBlock env hash) := by
    rintro (_ | _) <;> rfl
  unfold getTransaction
  rw [hpool]
  cases s.mempool.mapTx hash with
  | some tx => rfl
  | none =>
    dsimp only
    split
    · rfl
    · rfl
    · split
      · rw [hscan, hscan, findSlow_congr h]
      · rfl

theorem CacheOnly.finds_iff (h : CacheOnly s s') : Finds env s' hash ↔ Finds env s hash := by
  have hiff : ∀ s : NodeState, Finds env s hash ↔
      ∃ found, (s.getTransaction env hash true).map Prod.snd = .ok (some found) := fun s => by
    unfold Finds
    simp only [map_ok, Prod.exists]
    constructor
    · rintro ⟨s', tx, hash, h⟩
      exact ⟨tx, hash, s', some (tx, hash), h, rfl⟩
    · rintro ⟨tx, hash, s', found, h, rfl⟩
      exact ⟨s', tx, hash, h⟩
  rw [hiff, hiff, getTransaction_congr h]

end NodeState

/-! ## The notifier -/

structure TrxNotifier where
  process : ProcessState
  fTrxWatchedList : TreeMap uint256 Int
  /-- The tasks given to the thread pool, the first one first. -/
  scheduled : List TrxNotification
  /-- The loop over the list has gone on from an erased entry. Nothing is known after that. -/
  fErasedUsed : Bool
  /-- The block that `ProcessBlock` has accepted and calls `NotifierInspectBlock` with. -/
  pblock : Option CBlock
  /-- The node at the last call of `NotifierInspectBlock`, with what that call met. -/
  seen : Option (NotifierEnv × NodeState)

namespace TrxNotifier

open NodeState

def maxInt : Int := 0x7FFFFFFF

/-- `int neededConf = GetArg("-trxnotifymaxconf", 6)`, which is 64 bits wide. -/
def neededConf (nMaxConf : Int) : Int := (BitVec.ofInt 32 nMaxConf).toInt

variable [Hashing] [ScriptEngine] [NodeConfig] [BlockFiles] [FloatArithmetic]

/-- The body of the loop of `NotifierUpdateWatched`. -/
def updateEntry (env : NotifierEnv) (nMaxConf : Int) (s : TrxNotifier) (hash : uint256) :
    Except Halt TrxNotifier := do
  let (node, found) ← s.process.node.getTransaction env hash true
  let s := { s with process := { s.process with node := node } }
  match found with
  | none =>
    -- the argument of the task reads the count of the erased entry, which inserts it with 0
    pure { s with
      fTrxWatchedList := (s.fTrxWatchedList.erase hash).insert hash 0
      scheduled := s.scheduled ++ [⟨hash, "", -1, 0⟩]
      fErasedUsed := true }
  | some _ => do
    let nConf := s.fTrxWatchedList[hash]?.getD 0 + 1
    require (decide (nConf ≤ maxInt)) Halt.crash
    let s := { s with
      fTrxWatchedList := s.fTrxWatchedList.insert hash nConf
      scheduled := s.scheduled ++ [⟨hash, "", 0, nConf⟩] }
    if nConf = nMaxConf then
      pure { s with fTrxWatchedList := s.fTrxWatchedList.erase hash, fErasedUsed := true }
    else pure s

/-- The loop of `NotifierUpdateWatched`, over the keys of the list in their order. -/
def notifierUpdateWatched (env : NotifierEnv) (nMaxConf : Int) :
    TrxNotifier → List uint256 → Except Halt TrxNotifier
  | s, [] => .ok s
  | s, hash :: rest => do
    let s ← s.updateEntry env nMaxConf hash
    if s.fErasedUsed then pure s else notifierUpdateWatched env nMaxConf s rest

/-- The loop over the outputs of a transaction. -/
def watchOutput (env : NotifierEnv) (tx : CTransaction) (s : TrxNotifier) (vtxout : CTxOut) :
    TrxNotifier :=
  if env.isMine vtxout && !env.isChange vtxout then
    { s with
      fTrxWatchedList := s.fTrxWatchedList.insertIfNew tx.getHash 1
      scheduled := s.scheduled ++
        [⟨tx.getHash, (env.toAddress vtxout).getD "UNKNOWN", vtxout.nValue, 1⟩] }
  else s

def watchTransaction (env : NotifierEnv) (s : TrxNotifier) (tx : CTransaction) : TrxNotifier :=
  if env.isFromMe tx then s else tx.vout.foldl (watchOutput env tx) s

/-- The call of `NotifierUpdateWatched`, which is left out if one confirmation is enough. -/
def updateWatched (env : NotifierEnv) (nMaxConf : Int) (s : TrxNotifier) :
    Except Halt TrxNotifier :=
  if 1 < neededConf nMaxConf then s.notifierUpdateWatched env nMaxConf s.fTrxWatchedList.keys
  else .ok s

def notifierInspectBlock (env : NotifierEnv) (nMaxConf : Int) (s : TrxNotifier) (b : CBlock) :
    Except Halt TrxNotifier :=
  if neededConf nMaxConf ≤ 0 then .ok s
  else do
    let s ← s.updateWatched env nMaxConf
    if s.fErasedUsed then pure s else pure (b.vtx.foldl (watchTransaction env) s)

/-! ## The loop over the list -/

/-- The loop keeps the entry, if it stands on it. -/
def Keeps (env : NotifierEnv) (nMaxConf : Int) (s : TrxNotifier) (hash : uint256) : Prop :=
  Finds env s.process.node hash ∧ s.fTrxWatchedList[hash]?.getD 0 + 1 ≠ nMaxConf

/-- What the notifier leaves alone. -/
structure Frame (s s' : TrxNotifier) : Prop where
  process : s'.process = { s.process with node := s'.process.node }
  node : CacheOnly s.process.node s'.process.node

variable {env : NotifierEnv} {nMaxConf : Int} {s s' s'' : TrxNotifier} {hash : uint256}

section

omit [ScriptEngine] [BlockFiles] [FloatArithmetic]

theorem Frame.refl (hs : MainChain s.process.node) : Frame s s := ⟨rfl, .refl hs⟩

theorem Frame.trans (h : Frame s s') (h' : Frame s' s'') : Frame s s'' := by
  refine ⟨?_, h.node.trans h'.node⟩
  rw [h'.process, h.process]

end

omit [ScriptEngine] [FloatArithmetic] in
/-- One round of the loop: either it keeps the entry and adds one to its count, or it goes on from
an erased entry. -/
theorem updateEntry_spec (hs : MainChain s.process.node) (hused : s.fErasedUsed = false)
    (h : s.updateEntry env nMaxConf hash = .ok s') :
    Frame s s' ∧ (s'.fErasedUsed = false ↔ Keeps env nMaxConf s hash) ∧
      (s'.fErasedUsed = false → ∀ hash' : uint256, s'.fTrxWatchedList[hash']? =
        if hash = hash' then some (s.fTrxWatchedList[hash]?.getD 0 + 1)
        else s.fTrxWatchedList[hash']?) := by
  obtain ⟨⟨node, found⟩, hget, h⟩ := bind_ok.mp h
  have hnode := getTransaction_cacheOnly hs hget
  have hfinds : Finds env s.process.node hash ↔ found.isSome := by
    constructor
    · rintro ⟨node', found', hget'⟩
      obtain ⟨-, rfl⟩ := Prod.mk.inj (Except.ok.inj (hget.symm.trans hget'))
      rfl
    · intro hsome
      obtain ⟨found', rfl⟩ := Option.isSome_iff_exists.mp hsome
      exact ⟨node, found', hget⟩
  cases found with
  | none =>
    obtain rfl := Except.ok.inj h
    refine ⟨⟨rfl, hnode⟩, iff_of_false (by simp) fun hkeep => ?_, fun hfalse => ?_⟩
    · simpa using hfinds.mp hkeep.1
    · cases hfalse
  | some found =>
    obtain ⟨_, -, h⟩ := bind_ok.mp h
    have hiff : Keeps env nMaxConf s hash ↔ s.fTrxWatchedList[hash]?.getD 0 + 1 ≠ nMaxConf :=
      and_iff_right (hfinds.mpr rfl)
    rw [hiff]
    split at h
    · rename_i heq
      obtain rfl := Except.ok.inj h
      exact ⟨⟨rfl, hnode⟩, iff_of_false (by simp) fun hne => hne heq, fun hfalse => by cases hfalse⟩
    · rename_i hne
      obtain rfl := Except.ok.inj h
      refine ⟨⟨rfl, hnode⟩, iff_of_true hused hne, fun _ hash' => ?_⟩
      dsimp only
      rw [TreeMap.getElem?_insert]
      simp only [Std.compare_eq_iff_eq]

omit [ScriptEngine] [FloatArithmetic] in
theorem Frame.keeps_iff (h : Frame s s')
    (heq : s'.fTrxWatchedList[hash]? = s.fTrxWatchedList[hash]?) :
    Keeps env nMaxConf s' hash ↔ Keeps env nMaxConf s hash := by
  unfold Keeps
  rw [heq, h.node.finds_iff]

omit [ScriptEngine] [FloatArithmetic] in
/-- The loop does not use an erased entry exactly if it keeps every entry, and then it adds one to
every count. -/
theorem notifierUpdateWatched_spec {rest : List uint256} (hs : MainChain s.process.node)
    (hused : s.fErasedUsed = false) (hnodup : rest.Nodup)
    (h : s.notifierUpdateWatched env nMaxConf rest = .ok s') :
    Frame s s' ∧ (s'.fErasedUsed = false ↔ ∀ hash ∈ rest, Keeps env nMaxConf s hash) ∧
      (s'.fErasedUsed = false → ∀ hash : uint256, s'.fTrxWatchedList[hash]? =
        if hash ∈ rest then some (s.fTrxWatchedList[hash]?.getD 0 + 1)
        else s.fTrxWatchedList[hash]?) := by
  induction rest generalizing s with
  | nil =>
    obtain rfl := Except.ok.inj h
    exact ⟨.refl hs, iff_of_true hused (by simp), fun _ hash => by simp⟩
  | cons hash rest ih =>
    obtain ⟨s1, h1, h⟩ := bind_ok.mp h
    obtain ⟨hnotin, hnodup⟩ := List.nodup_cons.mp hnodup
    obtain ⟨hframe, hkeep, hlist⟩ := updateEntry_spec hs hused h1
    split at h
    · rename_i herased
      obtain rfl := Except.ok.inj h
      have hnot : ¬Keeps env nMaxConf s hash := fun hk => by
        rw [hkeep.mpr hk] at herased
        cases herased
      refine ⟨hframe, iff_of_false (by simp [herased]) fun hall => ?_, fun hfalse => ?_⟩
      · exact hnot (hall hash List.mem_cons_self)
      · rw [herased] at hfalse
        cases hfalse
    · rename_i herased
      have hused1 := Bool.not_eq_true _ ▸ herased
      have hother : ∀ hash' ∈ rest, s1.fTrxWatchedList[hash']? = s.fTrxWatchedList[hash']? := by
        intro hash' hmem
        rw [hlist hused1, if_neg]
        exact fun heq => hnotin (heq ▸ hmem)
      obtain ⟨hframe', hkeep', hlist'⟩ := ih hframe.node.after hused1 hnodup h
      refine ⟨hframe.trans hframe', ?_, fun hfalse hash' => ?_⟩
      · rw [hkeep', List.forall_mem_cons]
        constructor
        · intro hall
          refine ⟨hkeep.mp hused1, fun hash' hmem => ?_⟩
          exact (hframe.keeps_iff (hother hash' hmem)).mp (hall hash' hmem)
        · rintro ⟨-, hall⟩ hash' hmem
          exact (hframe.keeps_iff (hother hash' hmem)).mpr (hall hash' hmem)
      · rw [hlist' hfalse, hlist hused1]
        by_cases heq : hash = hash'
        · rw [if_neg (heq ▸ hnotin), if_pos heq, if_pos (heq ▸ List.mem_cons_self), heq]
        · rw [if_neg heq]
          simp [Ne.symm heq]

/-! ## The new block -/

/-- The transaction is one of those that the notifier starts to watch. -/
def Pays (env : NotifierEnv) (txs : List CTransaction) (hash : uint256) : Prop :=
  ∃ tx ∈ txs, env.isFromMe tx = false ∧
    (∃ vtxout ∈ tx.vout, env.isMine vtxout = true ∧ env.isChange vtxout = false) ∧ tx.getHash = hash

/-- The entries that a loop over the block has added. -/
structure Watches (s s' : TrxNotifier) (new : uint256 → Prop) : Prop where
  process : s'.process = s.process
  used : s'.fErasedUsed = s.fErasedUsed
  list : ∀ (hash : uint256) (n : Int), s'.fTrxWatchedList[hash]? = some n ↔
    s.fTrxWatchedList[hash]? = some n ∨ s.fTrxWatchedList[hash]? = none ∧ new hash ∧ n = 1

section

omit [Hashing] [ScriptEngine] [NodeConfig] [BlockFiles] [FloatArithmetic]

theorem Watches.refl (s : TrxNotifier) : Watches s s fun _ => False := ⟨rfl, rfl, by simp⟩

theorem Watches.trans {new new' : uint256 → Prop} (h : Watches s s' new)
    (h' : Watches s' s'' new') : Watches s s'' fun hash => new hash ∨ new' hash := by
  refine ⟨h'.process.trans h.process, h'.used.trans h.used, fun hash n => ?_⟩
  have hnone : s'.fTrxWatchedList[hash]? = none ↔ s.fTrxWatchedList[hash]? = none ∧ ¬new hash := by
    simp only [Option.eq_none_iff_forall_ne_some, ne_eq, h.list]
    constructor
    · intro hall
      have hnone : ∀ n, ¬s.fTrxWatchedList[hash]? = some n := fun n hn => hall n (.inl hn)
      exact ⟨hnone, fun hnew => hall 1 (.inr ⟨hnone, hnew, rfl⟩)⟩
    · rintro ⟨hnone, hnew⟩ n (hn | ⟨-, hn, -⟩)
      · exact hnone n hn
      · exact hnew hn
  rw [h'.list, h.list, hnone]
  by_cases hnew : new hash
  · simp [hnew]
  · simp [hnew]

theorem Watches.congr {new new' : uint256 → Prop} (h : Watches s s' new)
    (hiff : ∀ hash, new hash ↔ new' hash) : Watches s s' new' := by
  obtain rfl : new = new' := funext fun hash => propext (hiff hash)
  exact h

end

section

omit [ScriptEngine] [NodeConfig] [BlockFiles] [FloatArithmetic]

theorem watchOutput_spec {tx : CTransaction} {vtxout : CTxOut} :
    Watches s (watchOutput env tx s vtxout) fun hash =>
      (env.isMine vtxout = true ∧ env.isChange vtxout = false) ∧ tx.getHash = hash := by
  unfold watchOutput
  split
  · rename_i hmine
    rw [Bool.and_eq_true, Bool.not_eq_true'] at hmine
    refine ⟨rfl, rfl, fun hash n => ?_⟩
    dsimp only
    rw [TreeMap.getElem?_insertIfNew]
    simp only [Std.compare_eq_iff_eq, hmine, and_self, true_and, TreeMap.mem_iff_isSome_getElem?]
    by_cases heq : tx.getHash = hash
    · subst heq
      cases s.fTrxWatchedList[tx.getHash]? <;> simp [eq_comm]
    · simp [heq]
  · rename_i hmine
    refine (Watches.refl s).congr fun hash => iff_of_false id ?_
    rintro ⟨⟨h1, h2⟩, -⟩
    simp [h1, h2] at hmine

theorem foldl_watchOutput_spec {tx : CTransaction} {vout : List CTxOut} :
    Watches s (vout.foldl (watchOutput env tx) s) fun hash =>
      (∃ vtxout ∈ vout, env.isMine vtxout = true ∧ env.isChange vtxout = false) ∧
        tx.getHash = hash := by
  induction vout generalizing s with
  | nil => exact (Watches.refl s).congr fun hash => by simp
  | cons vtxout vout ih =>
    refine (watchOutput_spec.trans ih).congr fun hash => ?_
    rw [List.exists_mem_cons_iff, or_and_right]

theorem foldl_watchTransaction_spec (env : NotifierEnv) (s : TrxNotifier) (txs : List CTransaction) :
    Watches s (txs.foldl (watchTransaction env) s) (Pays env txs) := by
  induction txs generalizing s with
  | nil => exact (Watches.refl s).congr fun hash => by simp [Pays]
  | cons tx txs ih =>
    have htx : Watches s (watchTransaction env s tx) (Pays env [tx]) := by
      unfold watchTransaction Pays
      cases hfrom : env.isFromMe tx with
      | true => exact (Watches.refl s).congr fun hash => by simp [hfrom]
      | false => exact foldl_watchOutput_spec.congr fun hash => by simp [hfrom]
    refine (htx.trans (ih _)).congr fun hash => ?_
    simp [Pays, or_and_right, exists_or]

end

/-! ## One inspection -/

/-- What is added to the counts: with one confirmation or less needed the loop is left out. -/
def added (nMaxConf : Int) : Int := if 1 < neededConf nMaxConf then 1 else 0

/-- The loop keeps every entry, if it runs. -/
def KeepsAll (env : NotifierEnv) (nMaxConf : Int) (s : TrxNotifier) : Prop :=
  1 < neededConf nMaxConf → ∀ (hash : uint256) (n : Int), s.fTrxWatchedList[hash]? = some n →
    Finds env s.process.node hash ∧ n + 1 ≠ nMaxConf

omit [ScriptEngine] [FloatArithmetic] in
theorem keepsAll_iff : KeepsAll env nMaxConf s ↔ (1 < neededConf nMaxConf →
    ∀ hash ∈ s.fTrxWatchedList.keys, Keeps env nMaxConf s hash) := by
  refine imp_congr_right fun _ => forall_congr' fun hash => ?_
  rw [TreeMap.mem_keys, TreeMap.mem_iff_isSome_getElem?]
  unfold Keeps
  cases s.fTrxWatchedList[hash]? <;> simp

omit [ScriptEngine] [FloatArithmetic] in
theorem updateWatched_spec (hs : MainChain s.process.node) (hused : s.fErasedUsed = false)
    (h : s.updateWatched env nMaxConf = .ok s') :
    Frame s s' ∧ (s'.fErasedUsed = false ↔ KeepsAll env nMaxConf s) ∧
      (s'.fErasedUsed = false → ∀ hash : uint256, s'.fTrxWatchedList[hash]? =
        s.fTrxWatchedList[hash]?.map fun n => n + added nMaxConf) := by
  rw [keepsAll_iff]
  unfold added
  unfold updateWatched at h
  split at h
  · rename_i hneeded
    obtain ⟨hframe, hkeep, hlist⟩ := notifierUpdateWatched_spec hs hused TreeMap.nodup_keys h
    refine ⟨hframe, hkeep.trans ⟨fun hall _ => hall, fun hall => hall hneeded⟩, ?_⟩
    intro hfalse hash
    rw [hlist hfalse hash, if_pos hneeded]
    simp only [TreeMap.mem_keys, TreeMap.mem_iff_isSome_getElem?]
    cases s.fTrxWatchedList[hash]? <;> rfl
  · rename_i hneeded
    obtain rfl := Except.ok.inj h
    refine ⟨.refl hs, iff_of_true hused fun h => absurd h hneeded, fun _ hash => ?_⟩
    rw [if_neg hneeded]
    cases s.fTrxWatchedList[hash]? <;> simp

omit [ScriptEngine] [FloatArithmetic] in
/-- `NotifierInspectBlock` does not use an erased entry exactly if its loop keeps every entry. Then
the list holds the old entries with their new counts, and those of the block. -/
theorem notifierInspectBlock_spec {b : CBlock} (hs : MainChain s.process.node)
    (hused : s.fErasedUsed = false) (h : s.notifierInspectBlock env nMaxConf b = .ok s') :
    Frame s s' ∧ (s'.fErasedUsed = false ↔ KeepsAll env nMaxConf s) ∧
      (s'.fErasedUsed = false → ∀ (hash : uint256) (n : Int), s'.fTrxWatchedList[hash]? = some n ↔
        (∃ n', s.fTrxWatchedList[hash]? = some n' ∧ n = n' + added nMaxConf) ∨
        s.fTrxWatchedList[hash]? = none ∧ (0 < neededConf nMaxConf ∧ Pays env b.vtx hash) ∧
          n = 1) := by
  unfold notifierInspectBlock at h
  split at h
  · rename_i hneeded
    obtain rfl := Except.ok.inj h
    refine ⟨.refl hs, iff_of_true hused fun h => by omega, fun _ hash n => ?_⟩
    have hadded : added nMaxConf = 0 := if_neg (by omega)
    simp [hadded, not_lt.mpr hneeded]
  · rename_i hneeded
    obtain ⟨s1, h1, h⟩ := bind_ok.mp h
    obtain ⟨hframe, hkeep, hlist⟩ := updateWatched_spec hs hused h1
    split at h
    · rename_i herased
      obtain rfl := Except.ok.inj h
      exact ⟨hframe, hkeep, fun hfalse => by rw [herased] at hfalse; cases hfalse⟩
    · rename_i herased
      have hused1 := Bool.not_eq_true _ ▸ herased
      obtain rfl := Except.ok.inj h
      have hwatch := foldl_watchTransaction_spec env s1 b.vtx
      refine ⟨⟨?_, ?_⟩, ?_, fun _ hash n => ?_⟩
      · rw [hwatch.process]
        exact hframe.process
      · rw [hwatch.process]
        exact hframe.node
      · rw [hwatch.used]
        exact hkeep
      · rw [hwatch.list, hlist hused1, Option.map_eq_some_iff, Option.map_eq_none_iff]
        simp only [not_le.mp hneeded, true_and, eq_comm]

/-- The transaction has `n` confirmations on the chain of `tip`: it is in the block `n - 1` below
`tip`. -/
def AtDepth (tip : Option CBlockIndex) (hash : uint256) (n : Int) : Prop :=
  ∃ (k : Nat) (p : CBlockIndex), n = k + 1 ∧ (chainOf tip)[k]? = some p ∧
    ∃ tx ∈ (BlockFiles.block p).vtx, tx.getHash = hash

section

omit [ScriptEngine] [NodeConfig] [FloatArithmetic]

end

/-! ## Runs -/

end TrxNotifier

/-- The operations: those of `ProcessBlock` and of the rest of the node, and the call of
`NotifierInspectBlock` at the end of `ProcessBlock`. -/
inductive NotifierOp where
  | process (op : ProcessOp)
  | inspect (env : NotifierEnv)

namespace TrxNotifier

open NodeState

variable [Hashing] [ScriptEngine] [NodeConfig] [BlockFiles] [FloatArithmetic]

/-- `ProcessBlock` up to the call of `NotifierInspectBlock`, which it reaches with an accepted block
and not with an orphan. -/
def processBlock (env : ProcessEnv) (s : TrxNotifier) (b : CBlock) : Option TrxNotifier :=
  (s.process.processBlock env b).toOption.map fun out =>
    { s with
      process := out.state
      pblock := if out.result.isOk && !out.calls.isEmpty then some b else none }

/-- The state after an operation, if it returns. A block that has been accepted is inspected before
anything else happens, and nothing happens after the use of an erased entry. -/
def step (nMaxConf : Int) (s : TrxNotifier) (op : NotifierOp) : Option TrxNotifier :=
  if s.fErasedUsed then none
  else
    match op, s.pblock with
    | .process (.processBlock env b), none => s.processBlock env b
    | .process (.node op), none =>
      (s.process.step (.node op)).map fun process => { s with process := process }
    | .process _, some _ => none
    | .inspect _, none => none
    | .inspect env, some b =>
      (s.notifierInspectBlock env nMaxConf b).toOption.map fun s' =>
        { s' with pblock := none, seen := some (env, s.process.node) }

/-- The notifier of a node that watches no transaction. -/
def start (node : NodeState) : TrxNotifier := ⟨.start node, ∅, [], false, none, none⟩

/-- No erased entry has been used, and at the last inspection every count was the depth of a
transaction that was found. -/
structure Sound (nMaxConf : Int) (s : TrxNotifier) : Prop where
  used : s.fErasedUsed = false
  count : ∀ (hash : uint256) (n : Int), s.fTrxWatchedList[hash]? = some n → 1 ≤ n ∧ n < nMaxConf ∧
    ∃ env node, s.seen = some (env, node) ∧ AtDepth node.pindexBest hash n ∧ Finds env node hash

/-- What must hold when a block is inspected: `GetTransaction` finds every watched transaction, none
has got its last confirmation, each is one block deeper than at the last inspection, and those of
the block are in the tip. -/
structure FollowsChain (env : NotifierEnv) (nMaxConf : Int) (s : TrxNotifier) (b : CBlock) :
    Prop where
  keeps : KeepsAll env nMaxConf s
  watched : ∀ (hash : uint256) (n : Int), s.fTrxWatchedList[hash]? = some n →
    Finds env s.process.node hash ∧ ∀ seenEnv seen, s.seen = some (seenEnv, seen) →
      AtDepth seen.pindexBest hash n →
      AtDepth s.process.node.pindexBest hash (n + added nMaxConf)
  new : 0 < neededConf nMaxConf → ∀ hash, Pays env b.vtx hash → s.fTrxWatchedList[hash]? = none →
    Finds env s.process.node hash ∧ AtDepth s.process.node.pindexBest hash 1

def Follows (nMaxConf : Int) (s : TrxNotifier) : NotifierOp → Prop
  | .process _ => True
  | .inspect env => ∀ b, s.pblock = some b → FollowsChain env nMaxConf s b

variable {nMaxConf : Int} {s s' : TrxNotifier} {o : NotifierOp} {env : NotifierEnv}

/-- What the steps keep that meet the condition. -/
structure Invariant (nMaxConf : Int) (s : TrxNotifier) : Prop where
  sound : Sound nMaxConf s
  consistent : ProcessState.Consistent s.process

/-- A step is a step of the node, or an inspection. -/
theorem step_cases (h : step nMaxConf s o = some s') : s.fErasedUsed = false ∧
    ((∃ op process pblock, o = .process op ∧ s.process.step op = some process ∧
      s' = { s with process := process, pblock := pblock }) ∨
    ∃ env b s1, o = .inspect env ∧ s.pblock = some b ∧
      s.notifierInspectBlock env nMaxConf b = .ok s1 ∧
      s' = { s1 with pblock := none, seen := some (env, s.process.node) }) := by
  unfold step at h
  split at h
  · cases h
  · rename_i hused
    refine ⟨Bool.not_eq_true _ ▸ hused, ?_⟩
    split at h
    · rename_i env b hblock
      obtain ⟨out, hout, rfl⟩ := Option.map_eq_some_iff.mp h
      refine .inl ⟨_, out.state, _, rfl, ?_, rfl⟩
      rw [ProcessState.step, hout, Option.map_some]
    · rename_i op hblock
      obtain ⟨process, hprocess, rfl⟩ := Option.map_eq_some_iff.mp h
      exact .inl ⟨_, process, s.pblock, rfl, hprocess, rfl⟩
    · cases h
    · cases h
    · rename_i env b hblock
      obtain ⟨s1, h1, rfl⟩ := Option.map_eq_some_iff.mp h
      exact .inr ⟨env, b, s1, rfl, hblock, toOption_eq_some.mp h1, rfl⟩

omit [ScriptEngine] [FloatArithmetic] in
/-- After an inspection every count is right exactly if the block has met the condition. -/
theorem sound_iff {b : CBlock} (hm : 1 < nMaxConf) (hs : Sound nMaxConf s)
    (hmain : MainChain s.process.node) {s1 : TrxNotifier}
    (h : s.notifierInspectBlock env nMaxConf b = .ok s1) :
    Sound nMaxConf { s1 with pblock := none, seen := some (env, s.process.node) } ↔
      FollowsChain env nMaxConf s b := by
  obtain ⟨-, hkeep, hlist⟩ := notifierInspectBlock_spec hmain hs.used h
  have hadded : 0 ≤ added nMaxConf := by
    unfold added
    split <;> decide
  constructor
  · intro hafter
    have hfalse : s1.fErasedUsed = false := hafter.used
    have hcount : ∀ (hash : uint256) (n : Int), s1.fTrxWatchedList[hash]? = some n →
        AtDepth s.process.node.pindexBest hash n ∧ Finds env s.process.node hash := by
      intro hash n hn
      obtain ⟨-, -, env', node, hseen, hdepth, hfinds⟩ := hafter.count hash n hn
      obtain ⟨rfl, rfl⟩ := Prod.mk.inj (Option.some.inj hseen)
      exact ⟨hdepth, hfinds⟩
    refine ⟨hkeep.mp hfalse, fun hash n hn => ?_, fun hneeded hash hpays hnone => ?_⟩
    · obtain ⟨hdepth, hfinds⟩ := hcount hash _ ((hlist hfalse hash _).mpr (.inl ⟨n, hn, rfl⟩))
      exact ⟨hfinds, fun _ _ _ _ => hdepth⟩
    · obtain ⟨hdepth, hfinds⟩ :=
        hcount hash 1 ((hlist hfalse hash 1).mpr (.inr ⟨hnone, ⟨hneeded, hpays⟩, rfl⟩))
      exact ⟨hfinds, hdepth⟩
  · intro hfollows
    have hfalse := hkeep.mpr hfollows.keeps
    refine ⟨hfalse, fun hash n hn => ?_⟩
    rcases (hlist hfalse hash n).mp hn with ⟨n', hn', rfl⟩ | ⟨hnone, ⟨hneeded, hpays⟩, rfl⟩
    · obtain ⟨hpos, hlt, seenEnv, seen, hseen, hdepth, -⟩ := hs.count hash n' hn'
      obtain ⟨hfinds, hdeeper⟩ := hfollows.watched hash n' hn'
      have hle : n' + added nMaxConf < nMaxConf := by
        unfold added
        split
        · rename_i hneeded
          have := (hfollows.keeps hneeded hash n' hn').2
          omega
        · omega
      exact ⟨by omega, hle, env, s.process.node, rfl, hdeeper seenEnv seen hseen hdepth, hfinds⟩
    · obtain ⟨hfinds, hdepth⟩ := hfollows.new hneeded hash hpays hnone
      exact ⟨le_refl 1, hm, env, s.process.node, rfl, hdepth, hfinds⟩

/-- A step that meets the condition keeps the counts right, and one that does not makes one wrong or
uses an erased entry. -/
theorem step_spec (hm : 1 < nMaxConf) (hs : Invariant nMaxConf s)
    (h : step nMaxConf s o = some s') :
    ProcessState.Consistent s'.process ∧ (Sound nMaxConf s' ↔ Follows nMaxConf s o) := by
  obtain ⟨hused, ⟨op, process, pblock, rfl, hprocess, rfl⟩ | ⟨env, b, s1, rfl, hb, h1, rfl⟩⟩ :=
    step_cases h
  · refine ⟨(ProcessState.step_spec hs.consistent hprocess).1, iff_of_true ?_ trivial⟩
    exact ⟨hs.sound.used, hs.sound.count⟩
  · obtain ⟨hframe, -⟩ := notifierInspectBlock_spec hs.consistent.mainChain hused h1
    refine ⟨?_, ?_⟩
    · show ProcessState.Consistent s1.process
      rw [hframe.process]
      refine ⟨hframe.node.after, hs.consistent.same.of_frame, fun hash hcontains => ?_⟩
      have hindex : s1.process.node.mapBlockIndex = s.process.node.mapBlockIndex := by
        rw [hframe.node.frame]
      have hunknown := hs.consistent.unknown hash hcontains
      unfold findIndex at hunknown ⊢
      rw [hindex]
      exact hunknown
    · rw [sound_iff hm hs.sound hs.consistent.mainChain h1]
      constructor
      · intro hfollows b' hb'
        obtain rfl := Option.some.inj (hb.symm.trans hb')
        exact hfollows
      · exact fun hfollows => hfollows b hb

omit [ScriptEngine] [FloatArithmetic] in
theorem invariant_start {node : NodeState} (h : MainChain node) :
    Invariant nMaxConf (start node) := by
  refine ⟨⟨rfl, fun hash n hn => ?_⟩, ProcessState.consistent_start h⟩
  rw [start, TreeMap.getElem?_emptyc] at hn
  cases hn

/-- With more than one confirmation to wait for, whatever blocks arrive: after every inspection each
count is the depth of its transaction in the active chain, lies below `-trxnotifymaxconf` and
belongs to a transaction that `GetTransaction` finds, and no erased entry is used, exactly if at
every inspection the watched transactions are found, have not got their last confirmation and have
become deeper by the one block that is inspected. -/
theorem trxNotifier_spec (hm : 1 < nMaxConf) {node : NodeState} {nodeOps : List NodeOp}
    {ops : List NotifierOp} (hnode : Run.run NodeState.step .init nodeOps = some node)
    (h : Run.run (step nMaxConf) (start node) ops = some s) :
    Run.Throughout (Sound nMaxConf) (step nMaxConf) (start node) ops ↔
      Run.Meets (Follows nMaxConf) (step nMaxConf) (start node) ops := by
  refine Run.throughout_iff_meets_of_breaks (J := Invariant nMaxConf) (fun s hs => hs.sound) ?_ ?_
    (invariant_start (mainChain_of_run hnode)) h
  · intro s o s' hs hstep hfollows
    obtain ⟨hconsistent, hiff⟩ := step_spec hm hs hstep
    exact ⟨hiff.mpr hfollows, hconsistent⟩
  · intro s o s' hs hstep hsound
    exact (step_spec hm hs hstep).2.mp hsound

end TrxNotifier

/-! ## A transaction with all its confirmations -/

namespace NotifierSample

open OrphanSample TrxNotifier

def wallet : NotifierEnv where
  readTxIndex _ := none
  fReadBlock _ := true
  isFromMe _ := false
  isMine _ := true
  isChange _ := false
  toAddress _ := none

/-- A block on top of the genesis block, and one on top of that. -/
def twoBlocks : List NotifierOp :=
  [.process (.processBlock env (block 2 0)), .inspect wallet,
    .process (.processBlock env (block 5 2)), .inspect wallet]

/-- Three confirmations are wanted. -/
theorem trxNotifier_spec_sample : ∃ node s, Run.run NodeState.step .init nodeOps = some node ∧
    Run.run (step 3) (start node) twoBlocks = some s ∧
    s.fTrxWatchedList.toList = [(2, 2), (5, 1)] ∧
    (Run.Throughout (Sound 3) (step 3) (start node) twoBlocks ↔
      Run.Meets (Follows 3) (step 3) (start node) twoBlocks) := by
  have hrun : ((Run.run NodeState.step .init nodeOps).any fun node =>
      (Run.run (step 3) (start node) twoBlocks).any fun s =>
        s.fTrxWatchedList.toList == [(2, 2), (5, 1)]) = true := by decide +kernel
  obtain ⟨node, hnode, hrun⟩ := (Option.any_eq_true _ _).mp hrun
  obtain ⟨s, hs, hlist⟩ := (Option.any_eq_true _ _).mp hrun
  exact ⟨node, s, hnode, hs, beq_iff_eq.mp hlist, trxNotifier_spec (by decide) hnode hs⟩

/-- With two confirmations wanted, the loop erases the first transaction when the second block
comes, and goes on from its entry. -/
theorem not_trxNotifier_spec : ∃ node s, Run.run NodeState.step .init nodeOps = some node ∧
    Run.run (step 2) (start node) twoBlocks = some s ∧ s.process.node.fRequestShutdown = false ∧
    ¬Sound 2 s := by
  have hrun : ((Run.run NodeState.step .init nodeOps).any fun node =>
      (Run.run (step 2) (start node) twoBlocks).any fun s =>
        !s.process.node.fRequestShutdown && s.fErasedUsed) = true := by decide +kernel
  obtain ⟨node, hnode, hrun⟩ := (Option.any_eq_true _ _).mp hrun
  obtain ⟨s, hs, hstate⟩ := (Option.any_eq_true _ _).mp hrun
  rw [Bool.and_eq_true, Bool.not_eq_true'] at hstate
  refine ⟨node, s, hnode, hs, hstate.1, fun hsound => ?_⟩
  rw [hsound.used] at hstate
  cases hstate.2

end NotifierSample

end Terracoin
