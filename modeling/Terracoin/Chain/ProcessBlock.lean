import Terracoin.Chain.AcceptBlock
import Terracoin.Chain.MinWork
import Terracoin.Lib.Run
import Mathlib.Data.List.Pairwise

/-!
# `ProcessBlock` and the orphan blocks

A block whose predecessor is unknown waits in `mapOrphanBlocks`, and in `mapOrphanBlocksByPrev` under
the hash of its predecessor. When a block has been accepted, the orphans that wait for it are tried,
and so on for those that are accepted.

The two containers always hold the same blocks, and none that is in the block index. But only a block
that `AcceptBlock` returns `true` for has its orphans tried: one that has entered the index and fails
after that leaves them waiting for good (`orphanBlocks_spec`).
-/

namespace Terracoin

open Checked
open Std (TreeMap)

structure ProcessState where
  node : NodeState
  mapOrphanBlocks : TreeMap uint256 CBlock
  /-- The entries of the multimap, those of one key in the order of their insertion. -/
  mapOrphanBlocksByPrev : List (uint256 × CBlock)

/-- What a call of `ProcessBlock` meets: the clock, whether a peer has sent the block, and the disk
operations of the calls of `AcceptBlock`. -/
structure ProcessEnv where
  nAdjustedTime : Int
  fFrom : Bool
  accept : CBlock → AcceptBlockEnv
  fuel : Nat

/-- A call of `AcceptBlock`: whether it put the block into `mapBlockIndex`, and what it returned. -/
structure AcceptCall where
  block : CBlock
  fInserted : Bool
  result : Check Unit

namespace ProcessState

variable [Hashing] [ScriptEngine] [NodeConfig] [BlockFiles] [FloatArithmetic]

def acceptBlock (env : ProcessEnv) (s : ProcessState) (b : CBlock) :
    Except Halt (ProcessState × AcceptCall) := do
  let (node, result) ← s.node.acceptBlock (env.accept b) env.fuel b
  let fInserted := (s.node.findIndex b.getHash).isNone && (node.findIndex b.getHash).isSome
  pure ({ s with node := node }, ⟨b, fInserted, result⟩)

/-- The inner loop, over the orphans of one block. -/
def acceptOrphans (env : ProcessEnv) :
    ProcessState → List CBlock → Except Halt (ProcessState × List AcceptCall)
  | s, [] => .ok (s, [])
  | s, pblockOrphan :: rest => do
    let (s, call) ← s.acceptBlock env pblockOrphan
    let s := { s with mapOrphanBlocks := s.mapOrphanBlocks.erase pblockOrphan.getHash }
    let (s, calls) ← acceptOrphans env s rest
    pure (s, call :: calls)

/-- The orphans from `lower_bound(hashPrev)` to `upper_bound(hashPrev)`. -/
def waiting (s : ProcessState) (hashPrev : uint256) : List CBlock :=
  (s.mapOrphanBlocksByPrev.filter fun entry => entry.1 == hashPrev).map Prod.snd

/-- The blocks that `AcceptBlock` returned `true` for. -/
def accepted (calls : List AcceptCall) : List uint256 :=
  (calls.filter fun call => call.result.isOk).map fun call => call.block.getHash

/-- The loop over `vWorkQueue`, of which the elements before the current one are dropped. -/
def acceptQueue (env : ProcessEnv) :
    Nat → ProcessState → List uint256 → Except Halt (ProcessState × List AcceptCall)
  | _, s, [] => .ok (s, [])
  | 0, _, _ :: _ => .error .outOfFuel
  | fuel + 1, s, hashPrev :: vWorkQueue => do
    let (s, calls) ← acceptOrphans env s (s.waiting hashPrev)
    let s := { s with
      mapOrphanBlocksByPrev := s.mapOrphanBlocksByPrev.filter fun entry => entry.1 != hashPrev }
    let (s, rest) ← acceptQueue env fuel s (vWorkQueue ++ accepted calls)
    pure (s, calls ++ rest)

/-! ## `ProcessBlock` -/

def getOrphanRoot (s : ProcessState) : Nat → CBlock → Option uint256
  | 0, _ => none
  | fuel + 1, pblock =>
    match s.mapOrphanBlocks[pblock.hashPrevBlock]? with
    | none => some pblock.getHash
    | some pblockPrev => s.getOrphanRoot fuel pblockPrev

def checkProcess (env : ProcessEnv) (s : ProcessState) (b : CBlock) : Check Unit := do
  require (s.node.findIndex b.getHash).isNone (.DoS 0 "ProcessBlock() : already have block %d %s")
  require (!s.mapOrphanBlocks.contains b.getHash)
    (.DoS 0 "ProcessBlock() : already have block (orphan) %s")
  b.checkBlock env.nAdjustedTime true true
  match s.node.getLastCheckpoint with
  | none => pure ()
  | some pcheckpoint => do
    let deltaTime := b.getBlockTime - pcheckpoint.getBlockTime
    let fExtra := b.hashPrevBlock != s.node.hashBestChain
    require (!fExtra || 0 ≤ deltaTime)
      (.DoS 100 "ProcessBlock() : block with timestamp before last checkpoint")
    require (!fExtra ||
        setCompact b.nBits ≤ setCompact (computeMinWork pcheckpoint.header.nBits deltaTime))
      (.DoS 100 "ProcessBlock() : block with too little proof-of-work")

/-- What a call of `ProcessBlock` leaves behind: the state, its result, the calls of `AcceptBlock` it
made, and the arguments of `PushGetBlocks`. -/
structure Processed where
  state : ProcessState
  result : Check Unit
  calls : List AcceptCall
  getBlocks : Option (Option CBlockIndex × uint256)

def addOrphan (s : ProcessState) (b : CBlock) : ProcessState :=
  { s with
    mapOrphanBlocks := s.mapOrphanBlocks.insert b.getHash b
    mapOrphanBlocksByPrev := s.mapOrphanBlocksByPrev ++ [(b.hashPrevBlock, b)] }

/-- The part of `ProcessBlock` after the checks, for a block that is not an orphan. -/
def processAccept (env : ProcessEnv) (s : ProcessState) (b : CBlock) : Except Halt Processed := do
  let (s, call) ← s.acceptBlock env b
  match call.result with
  | .error e => pure ⟨s, .error e, [call], none⟩
  | .ok () =>
    let (s, calls) ← s.acceptQueue env (s.mapOrphanBlocksByPrev.length + 1) [b.getHash]
    pure ⟨s, .ok (), call :: calls, none⟩

def processBlock (env : ProcessEnv) (s : ProcessState) (b : CBlock) : Except Halt Processed :=
  match s.checkProcess env b with
  | .error e => (s.node.fail e).map fun r => ⟨{ s with node := r.1 }, r.2, [], none⟩
  | .ok () =>
    if b.hashPrevBlock ≠ 0 ∧ s.node.findIndex b.hashPrevBlock = none then
      if env.fFrom then
        let s := s.addOrphan b
        let root := s.getOrphanRoot (s.mapOrphanBlocks.size + 1) b
        .ok ⟨s, .ok (), [], root.map fun root => (s.node.pindexBest, root)⟩
      else .ok ⟨s, .ok (), [], none⟩
    else s.processAccept env b

/-! ## The index grows by the blocks of the calls -/

/-- What the calls have done to the index: it holds, besides its old blocks, those that the calls have
put in, each of them new. -/
structure IndexGrows (node node' : NodeState) (calls : List AcceptCall) : Prop where
  mainChain : NodeState.MainChain node'
  isSome_iff : ∀ hash, (node'.findIndex hash).isSome ↔ (node.findIndex hash).isSome ∨
    ∃ call ∈ calls, call.fInserted = true ∧ call.block.getHash = hash
  inserted : ∀ call ∈ calls, call.result.isOk = true → call.fInserted = true
  fresh : ∀ call ∈ calls, call.fInserted = true → node.findIndex call.block.getHash = none
  distinct : calls.Pairwise fun call call' => call.fInserted = true → call'.fInserted = true →
    call.block.getHash ≠ call'.block.getHash

section

omit [ScriptEngine] [BlockFiles] [FloatArithmetic]

variable {node node' node'' : NodeState} {calls calls' : List AcceptCall}

theorem IndexGrows.nil (h : NodeState.MainChain node) : IndexGrows node node [] where
  mainChain := h
  isSome_iff hash := by simp
  inserted := by simp
  fresh := by simp
  distinct := .nil

theorem IndexGrows.append (h : IndexGrows node node' calls) (h' : IndexGrows node' node'' calls') :
    IndexGrows node node'' (calls ++ calls') := by
  refine ⟨h'.mainChain, fun hash => ?_, ?_, ?_, ?_⟩
  · rw [h'.isSome_iff, h.isSome_iff]
    simp only [List.mem_append, or_and_right, exists_or, or_assoc]
  · intro call hcall
    rcases List.mem_append.mp hcall with hcall | hcall
    · exact h.inserted call hcall
    · exact h'.inserted call hcall
  · intro call hcall hins
    rcases List.mem_append.mp hcall with hcall | hcall
    · exact h.fresh call hcall hins
    · have hnone := h'.fresh call hcall hins
      by_contra hsome
      have := (h.isSome_iff call.block.getHash).mpr (.inl (Option.isSome_iff_ne_none.mpr hsome))
      rw [hnone] at this
      cases this
  · refine List.pairwise_append.mpr ⟨h.distinct, h'.distinct, ?_⟩
    intro call hcall call' hcall' hins hins' heq
    have := (h.isSome_iff call.block.getHash).mpr (.inr ⟨call, hcall, hins, rfl⟩)
    rw [heq, h'.fresh call' hcall' hins'] at this
    cases this

omit [NodeConfig] in
theorem findIndex_isSome_cons {pindex : CBlockIndex}
    (h : node'.mapBlockIndex = pindex :: node.mapBlockIndex) (hash : uint256) :
    (node'.findIndex hash).isSome ↔ (node.findIndex hash).isSome ∨ pindex.getBlockHash = hash := by
  unfold NodeState.findIndex
  rw [h]
  simp [or_comm]

omit [NodeConfig] in
theorem newIndex_getBlockHash {header : CBlockHeader} :
    (node.newIndex header).getBlockHash = header.getHash := by
  unfold NodeState.newIndex
  cases node.findIndex header.hashPrevBlock <;> rfl

end

variable {env : ProcessEnv} {s s' : ProcessState} {b : CBlock} {call : AcceptCall}
  {calls : List AcceptCall} {fuel : Nat}

/-- What one call of `AcceptBlock` does. -/
theorem acceptBlock_spec (hs : NodeState.MainChain s.node)
    (h : s.acceptBlock env b = .ok (s', call)) :
    IndexGrows s.node s'.node [call] ∧ call.block = b ∧ s' = { s with node := s'.node } := by
  obtain ⟨⟨node, result⟩, hnode, h⟩ := bind_ok.mp h
  obtain ⟨rfl, rfl⟩ := Prod.mk.inj (pure_ok.mp h)
  refine ⟨?_, rfl, rfl⟩
  obtain ⟨hmain, hcases⟩ := NodeState.acceptBlock_cases hs hnode
  rcases hcases with ⟨hmap, hfail⟩ | ⟨hnew, hmap⟩
  · have hfind : ∀ hash, node.findIndex hash = s.node.findIndex hash := fun hash => by
      unfold NodeState.findIndex
      rw [hmap]
    have hins : ((s.node.findIndex b.getHash).isNone &&
        (node.findIndex b.getHash).isSome) = false := by
      rw [hfind]
      cases s.node.findIndex b.getHash <;> rfl
    exact {
      mainChain := hmain
      isSome_iff hash := by simp [hfind]
      inserted := by simp [hfail]
      fresh := by simp [hins]
      distinct := List.pairwise_singleton _ _ }
  · have hiff := findIndex_isSome_cons hmap
    have hsome : (node.findIndex b.getHash).isSome = true :=
      (hiff b.getHash).mpr (.inr newIndex_getBlockHash)
    exact {
      mainChain := hmain
      isSome_iff hash := by
        rw [hiff, newIndex_getBlockHash]
        simp [hnew, hsome]
      inserted := by simp [hnew, hsome]
      fresh := by simp [hnew]
      distinct := List.pairwise_singleton _ _ }

theorem acceptOrphans_spec {orphans : List CBlock} (hs : NodeState.MainChain s.node)
    (h : s.acceptOrphans env orphans = .ok (s', calls)) :
    IndexGrows s.node s'.node calls ∧ calls.map (fun call => call.block) = orphans ∧
      s'.mapOrphanBlocksByPrev = s.mapOrphanBlocksByPrev ∧
      ∀ hash : uint256, s'.mapOrphanBlocks[hash]? =
        if hash ∈ orphans.map (fun b => b.getHash) then none else s.mapOrphanBlocks[hash]? := by
  induction orphans generalizing s calls with
  | nil =>
    obtain ⟨rfl, rfl⟩ := Prod.mk.inj (Except.ok.inj h)
    exact ⟨.nil hs, rfl, rfl, fun hash => by simp⟩
  | cons b orphans ih =>
    obtain ⟨⟨s1, call⟩, h1, h⟩ := bind_ok.mp h
    obtain ⟨⟨s2, calls2⟩, h2, h⟩ := bind_ok.mp h
    obtain ⟨rfl, rfl⟩ := Prod.mk.inj (pure_ok.mp h)
    obtain ⟨hgrows, rfl, hframe⟩ := acceptBlock_spec hs h1
    obtain ⟨hgrows2, hblocks, hprev, hmap⟩ := ih (by exact hgrows.mainChain) h2
    refine ⟨hgrows.append hgrows2, by rw [List.map_cons, hblocks], ?_, fun hash => ?_⟩
    · rw [hprev, hframe]
    · rw [hmap, TreeMap.getElem?_erase, hframe]
      simp only [Std.compare_eq_iff_eq, List.map_cons, List.mem_cons]
      by_cases h1 : hash ∈ orphans.map fun b => b.getHash
      · simp [h1]
      · by_cases h2 : call.block.getHash = hash
        · simp [h2]
        · simp [h1, h2, Ne.symm h2]

/-! ## The two containers -/

/-- The map and the multimap hold the same blocks: the map each under its hash, the multimap each once,
under the hash of its predecessor. -/
structure SameBlocks (s : ProcessState) : Prop where
  mem_iff : ∀ (hash : uint256) (b : CBlock), s.mapOrphanBlocks[hash]? = some b ↔
    b.getHash = hash ∧ (b.hashPrevBlock, b) ∈ s.mapOrphanBlocksByPrev
  prev : ∀ entry ∈ s.mapOrphanBlocksByPrev, entry.1 = entry.2.hashPrevBlock
  nodup : (s.mapOrphanBlocksByPrev.map fun entry => entry.2.getHash).Nodup

section

omit [ScriptEngine] [NodeConfig] [BlockFiles] [FloatArithmetic]

theorem SameBlocks.eq_of_hash (h : SameBlocks s) {entry entry' : uint256 × CBlock}
    (hmem : entry ∈ s.mapOrphanBlocksByPrev) (hmem' : entry' ∈ s.mapOrphanBlocksByPrev)
    (heq : entry.2.getHash = entry'.2.getHash) : entry = entry' :=
  List.inj_on_of_nodup_map h.nodup hmem hmem' heq

omit [Hashing] in
theorem mem_waiting {hashPrev : uint256} :
    b ∈ s.waiting hashPrev ↔ (hashPrev, b) ∈ s.mapOrphanBlocksByPrev := by
  unfold waiting
  rw [List.mem_map]
  constructor
  · rintro ⟨entry, hmem, rfl⟩
    obtain ⟨hmem, hkey⟩ := List.mem_filter.mp hmem
    rw [← beq_iff_eq.mp hkey]
    exact hmem
  · exact fun hmem => ⟨(hashPrev, b), List.mem_filter.mpr ⟨hmem, beq_self_eq_true hashPrev⟩, rfl⟩

/-- Taking the orphans of one block out of both containers. -/
theorem SameBlocks.removeWaiting (h : SameBlocks s) {hashPrev : uint256}
    (hmap : ∀ hash : uint256, s'.mapOrphanBlocks[hash]? =
      if hash ∈ (s.waiting hashPrev).map (fun b => b.getHash) then none
      else s.mapOrphanBlocks[hash]?)
    (hprev : s'.mapOrphanBlocksByPrev =
      s.mapOrphanBlocksByPrev.filter fun entry => entry.1 != hashPrev) : SameBlocks s' := by
  refine ⟨fun hash b => ?_, ?_, ?_⟩
  · rw [hmap, hprev, List.mem_filter]
    constructor
    · intro hget
      split at hget
      · cases hget
      · rename_i hnot
        obtain ⟨hhash, hmem⟩ := (h.mem_iff hash b).mp hget
        refine ⟨hhash, hmem, bne_iff_ne.mpr fun heq => hnot ?_⟩
        have hheq : b.hashPrevBlock = hashPrev := heq
        rw [hheq] at hmem
        exact List.mem_map.mpr ⟨b, mem_waiting.mpr hmem, hhash⟩
    · rintro ⟨hhash, hmem, hne⟩
      rw [if_neg, h.mem_iff]
      · exact ⟨hhash, hmem⟩
      · intro hwait
        obtain ⟨b', hb', hhash'⟩ := List.mem_map.mp hwait
        have heq := h.eq_of_hash (mem_waiting.mp hb') hmem (hhash'.trans hhash.symm)
        exact bne_iff_ne.mp hne (Prod.mk.inj heq).1.symm
  · intro entry hentry
    rw [hprev] at hentry
    exact h.prev entry (List.mem_of_mem_filter hentry)
  · rw [hprev]
    exact h.nodup.sublist (List.filter_sublist.map _)

theorem SameBlocks.addOrphan (h : SameBlocks s) (hnew : s.mapOrphanBlocks.contains b.getHash = false) :
    SameBlocks (s.addOrphan b) := by
  have hfresh : ∀ entry ∈ s.mapOrphanBlocksByPrev, entry.2.getHash ≠ b.getHash := by
    intro entry hentry heq
    have hget : s.mapOrphanBlocks[b.getHash]? = some entry.2 := by
      rw [h.mem_iff, ← h.prev entry hentry]
      exact ⟨heq, hentry⟩
    rw [TreeMap.contains_eq_isSome_getElem?, hget] at hnew
    cases hnew
  refine ⟨fun hash b' => ?_, ?_, ?_⟩
  · unfold ProcessState.addOrphan
    dsimp only
    rw [TreeMap.getElem?_insert, List.mem_append, List.mem_singleton]
    simp only [Std.compare_eq_iff_eq]
    split
    · rename_i heq
      constructor
      · rintro ⟨⟩
        exact ⟨heq, .inr rfl⟩
      · rintro ⟨hhash, hmem | hmem⟩
        · exact absurd (hhash.trans heq.symm) (hfresh _ hmem)
        · rw [(Prod.mk.inj hmem).2]
    · rename_i hne
      rw [h.mem_iff]
      refine and_congr_right fun hhash => ⟨.inl, ?_⟩
      rintro (hmem | hmem)
      · exact hmem
      · rw [(Prod.mk.inj hmem).2] at hhash
        exact absurd hhash hne
  · intro entry hentry
    rcases List.mem_append.mp hentry with hentry | hentry
    · exact h.prev entry hentry
    · rw [List.mem_singleton.mp hentry]
  · show ((s.mapOrphanBlocksByPrev ++ [(b.hashPrevBlock, b)]).map fun entry => entry.2.getHash).Nodup
    rw [List.map_append, List.nodup_append]
    refine ⟨h.nodup, List.nodup_singleton _, ?_⟩
    intro hash hhash hash' hhash' heq
    obtain ⟨entry, hentry, rfl⟩ := List.mem_map.mp hhash
    obtain rfl := List.mem_singleton.mp hhash'
    exact hfresh entry hentry heq

end

/-! ## The queue -/

section

omit [Hashing] [ScriptEngine] [NodeConfig] [BlockFiles] [FloatArithmetic]

theorem mem_accepted [Hashing] {hash : uint256} : hash ∈ accepted calls ↔
    ∃ call ∈ calls, call.result.isOk = true ∧ call.block.getHash = hash := by
  unfold accepted
  simp only [List.mem_map, List.mem_filter, and_assoc]

theorem accepted_append [Hashing] {calls' : List AcceptCall} :
    accepted (calls ++ calls') = accepted calls ++ accepted calls' := by
  unfold accepted
  rw [List.filter_append, List.map_append]

end

/-- What the loop over the queue leaves in the containers: the orphans of blocks that were neither in
the queue nor have been accepted. The others have been tried. -/
structure QueueDone (s s' : ProcessState) (queue : List uint256) (calls : List AcceptCall) : Prop where
  grows : IndexGrows s.node s'.node calls
  same : SameBlocks s'
  mem_iff : ∀ entry, entry ∈ s'.mapOrphanBlocksByPrev ↔ entry ∈ s.mapOrphanBlocksByPrev ∧
    entry.1 ∉ queue ∧ entry.1 ∉ accepted calls
  tried : ∀ call ∈ calls, ∃ entry ∈ s.mapOrphanBlocksByPrev, entry.2 = call.block ∧
    entry ∉ s'.mapOrphanBlocksByPrev

theorem acceptQueue_spec {queue : List uint256} (hs : NodeState.MainChain s.node)
    (hsame : SameBlocks s) (h : s.acceptQueue env fuel queue = .ok (s', calls)) :
    QueueDone s s' queue calls := by
  induction fuel generalizing s queue calls with
  | zero =>
    cases queue with
    | nil =>
      obtain ⟨rfl, rfl⟩ := Prod.mk.inj (Except.ok.inj h)
      exact ⟨.nil hs, hsame, fun entry => by simp [accepted], by simp⟩
    | cons hashPrev queue => cases h
  | succ fuel ih =>
    cases queue with
    | nil =>
      obtain ⟨rfl, rfl⟩ := Prod.mk.inj (Except.ok.inj h)
      exact ⟨.nil hs, hsame, fun entry => by simp [accepted], by simp⟩
    | cons hashPrev queue =>
      obtain ⟨⟨s1, calls1⟩, h1, h⟩ := bind_ok.mp h
      obtain ⟨⟨s2, calls2⟩, h2, h⟩ := bind_ok.mp h
      obtain ⟨rfl, rfl⟩ := Prod.mk.inj (pure_ok.mp h)
      obtain ⟨hgrows, hblocks, hprev, hmap⟩ := acceptOrphans_spec hs h1
      have hsame1 : SameBlocks { s1 with mapOrphanBlocksByPrev :=
          s1.mapOrphanBlocksByPrev.filter fun entry => entry.1 != hashPrev } := by
        refine hsame.removeWaiting hmap ?_
        rw [hprev]
      have hrest := ih (by exact hgrows.mainChain) hsame1 h2
      have hmem : ∀ entry, entry ∈ s2.mapOrphanBlocksByPrev ↔ entry ∈ s.mapOrphanBlocksByPrev ∧
          entry.1 ∉ hashPrev :: queue ∧ entry.1 ∉ accepted (calls1 ++ calls2) := by
        intro entry
        rw [hrest.mem_iff, accepted_append]
        simp only [hprev, List.mem_filter, List.mem_append, List.mem_cons, bne_iff_ne, not_or]
        tauto
      refine ⟨hgrows.append hrest.grows, hrest.same, hmem, fun call hcall => ?_⟩
      rcases List.mem_append.mp hcall with hcall | hcall
      · have hwait : call.block ∈ s.waiting hashPrev := by
          rw [← hblocks]
          exact List.mem_map_of_mem hcall
        refine ⟨_, mem_waiting.mp hwait, rfl, fun hleft => ?_⟩
        exact ((hmem _).mp hleft).2.1 List.mem_cons_self
      · obtain ⟨entry, hentry, hblock, hleft⟩ := hrest.tried call hcall
        dsimp only at hentry
        rw [hprev] at hentry
        exact ⟨entry, List.mem_of_mem_filter hentry, hblock, hleft⟩

/-! ## One call of `ProcessBlock` -/

def Unknown (s : ProcessState) : Prop :=
  ∀ hash : uint256, s.mapOrphanBlocks.contains hash = true → s.node.findIndex hash = none

/-- The predecessor of no orphan is in the index. -/
def ParentsUnknown (s : ProcessState) : Prop :=
  ∀ entry ∈ s.mapOrphanBlocksByPrev, s.node.findIndex entry.1 = none

/-- What holds whatever blocks arrive. -/
structure Consistent (s : ProcessState) : Prop where
  mainChain : NodeState.MainChain s.node
  same : SameBlocks s
  unknown : Unknown s

/-- What a call of `ProcessBlock` does that does not store the block as an orphan. -/
structure Resolved (s s' : ProcessState) (b : CBlock) (calls : List AcceptCall) : Prop where
  grows : IndexGrows s.node s'.node calls
  same : SameBlocks s'
  mem_iff : ∀ entry, entry ∈ s'.mapOrphanBlocksByPrev ↔ entry ∈ s.mapOrphanBlocksByPrev ∧
    entry.1 ∉ accepted calls
  tried : ∀ call ∈ calls, call.block = b ∧ s.mapOrphanBlocks.contains b.getHash = false ∨
    ∃ entry ∈ s.mapOrphanBlocksByPrev, entry.2 = call.block ∧ entry ∉ s'.mapOrphanBlocksByPrev

section

omit [ScriptEngine] [BlockFiles] [FloatArithmetic]

omit [NodeConfig] in
theorem SameBlocks.of_frame {node : NodeState} (h : SameBlocks s) :
    SameBlocks { s with node := node } := ⟨h.mem_iff, h.prev, h.nodup⟩

omit [NodeConfig] in
theorem SameBlocks.contains (h : SameBlocks s) {entry : uint256 × CBlock}
    (hmem : entry ∈ s.mapOrphanBlocksByPrev) : s.mapOrphanBlocks.contains entry.2.getHash = true := by
  have hget : s.mapOrphanBlocks[entry.2.getHash]? = some entry.2 := by
    rw [h.mem_iff, ← h.prev entry hmem]
    exact ⟨rfl, hmem⟩
  rw [TreeMap.contains_eq_isSome_getElem?, hget]
  rfl

theorem IndexGrows.of_map_eq {node node' : NodeState} (hs : NodeState.MainChain node')
    (h : node'.mapBlockIndex = node.mapBlockIndex) : IndexGrows node node' [] where
  mainChain := hs
  isSome_iff hash := by simp [NodeState.findIndex, h]
  inserted := by simp
  fresh := by simp
  distinct := .nil

end

section

omit [ScriptEngine] [BlockFiles] [FloatArithmetic]

theorem checkProcess_ok {u : Unit} (h : s.checkProcess env b = .ok u) :
    s.node.findIndex b.getHash = none ∧ s.mapOrphanBlocks.contains b.getHash = false := by
  obtain ⟨_, hnew, h⟩ := bind_ok.mp h
  obtain ⟨_, horphan, -⟩ := bind_ok.mp h
  rw [require_ok] at hnew horphan
  exact ⟨Option.isNone_iff_eq_none.mp hnew, by simpa using horphan⟩

end

/-- The accepting part of `ProcessBlock`. -/
theorem processAccept_spec (hs : Consistent s) (hnew : s.mapOrphanBlocks.contains b.getHash = false)
    {out : Processed} (h : s.processAccept env b = .ok out) :
    Resolved s out.state b out.calls := by
  obtain ⟨⟨s1, call⟩, h1, h⟩ := bind_ok.mp h
  obtain ⟨hgrows, rfl, hframe⟩ := acceptBlock_spec hs.mainChain h1
  have hprev : s1.mapOrphanBlocksByPrev = s.mapOrphanBlocksByPrev := by rw [hframe]
  have hsame1 : SameBlocks s1 := by
    rw [hframe]
    exact hs.same.of_frame
  dsimp only at h
  split at h
  · rename_i e herror
    obtain rfl := Except.ok.inj h
    refine ⟨hgrows, hsame1, fun entry => ?_, ?_⟩
    · simp [accepted, herror, hprev, Except.isOk, Except.toBool]
    · intro call' hcall'
      rw [List.mem_singleton.mp hcall']
      exact .inl ⟨rfl, hnew⟩
  · rename_i hok
    obtain ⟨⟨s2, calls⟩, h2, h⟩ := bind_ok.mp h
    obtain rfl := Except.ok.inj h
    have hdone := acceptQueue_spec hgrows.mainChain hsame1 h2
    have haccepted : accepted (call :: calls) = call.block.getHash :: accepted calls := by
      simp [accepted, hok, Except.isOk, Except.toBool]
    refine ⟨hgrows.append hdone.grows, hdone.same, fun entry => ?_, ?_⟩
    · rw [hdone.mem_iff, hprev, haccepted]
      simp
    · intro call' hcall'
      rcases List.mem_cons.mp hcall' with rfl | hcall'
      · exact .inl ⟨rfl, hnew⟩
      · obtain ⟨entry, hentry, hblock, hleft⟩ := hdone.tried call' hcall'
        rw [hprev] at hentry
        exact .inr ⟨entry, hentry, hblock, hleft⟩

/-- A call either stores the block as an orphan, which is new and has an unknown predecessor, or
resolves orphans. -/
theorem processBlock_cases (hs : Consistent s) {out : Processed}
    (h : s.processBlock env b = .ok out) :
    (out.state = s.addOrphan b ∧ out.calls = [] ∧ s.node.findIndex b.getHash = none ∧
      s.mapOrphanBlocks.contains b.getHash = false ∧ s.node.findIndex b.hashPrevBlock = none) ∨
    Resolved s out.state b out.calls := by
  have hidle : ∀ node : NodeState, NodeState.MainChain node →
      node.mapBlockIndex = s.node.mapBlockIndex → Resolved s { s with node := node } b [] :=
    fun node hnode hmap => ⟨.of_map_eq hnode hmap, hs.same.of_frame, by simp [accepted], by simp⟩
  unfold processBlock at h
  split at h
  · obtain ⟨⟨node, r⟩, hfail, h⟩ := map_ok.mp h
    obtain ⟨-, rfl, -⟩ := NodeState.fail_ok.mp hfail
    rw [← h]
    exact .inr (hidle _ (hs.mainChain.of_unmoved .abortOn) rfl)
  · rename_i hcheck
    obtain ⟨hnew, horphan⟩ := checkProcess_ok hcheck
    split at h
    · rename_i hprev
      split at h
      · obtain rfl := Except.ok.inj h
        exact .inl ⟨rfl, rfl, hnew, horphan, hprev.2⟩
      · obtain rfl := Except.ok.inj h
        exact .inr (hidle s.node hs.mainChain rfl)
    · exact .inr (processAccept_spec hs horphan h)

section

omit [ScriptEngine] [BlockFiles] [FloatArithmetic]

theorem Resolved.consistent (hs : Consistent s) (h : Resolved s s' b calls) : Consistent s' := by
  refine ⟨h.grows.mainChain, h.same, fun hash hcontains => ?_⟩
  rw [TreeMap.contains_eq_isSome_getElem?] at hcontains
  obtain ⟨b', hget⟩ := Option.isSome_iff_exists.mp hcontains
  obtain ⟨rfl, hmem'⟩ := (h.same.mem_iff hash b').mp hget
  have hmem := ((h.mem_iff _).mp hmem').1
  have hbefore := hs.unknown _ (hs.same.contains hmem)
  -- a call that put the block into the index took it out of the orphans
  by_contra hsome
  rcases (h.grows.isSome_iff _).mp (Option.isSome_iff_ne_none.mpr hsome) with hold | ⟨call, hcall, -, heq⟩
  · rw [hbefore] at hold
    cases hold
  · rcases h.tried call hcall with ⟨hblock, hnew⟩ | ⟨entry, hentry, hblock, hleft⟩
    · rw [← hblock, heq, hs.same.contains hmem] at hnew
      cases hnew
    · obtain rfl := hs.same.eq_of_hash hentry hmem (by rw [hblock, heq])
      exact hleft hmem'

theorem consistent_addOrphan (hs : Consistent s) (hnew : s.mapOrphanBlocks.contains b.getHash = false)
    (hunknown : s.node.findIndex b.getHash = none) : Consistent (s.addOrphan b) := by
  refine ⟨hs.mainChain, hs.same.addOrphan hnew, fun hash hcontains => ?_⟩
  rw [ProcessState.addOrphan, TreeMap.contains_insert, Bool.or_eq_true] at hcontains
  rcases hcontains with heq | hcontains
  · rw [← Std.compare_eq_iff_eq.mp (beq_iff_eq.mp heq)]
    exact hunknown
  · exact hs.unknown hash hcontains

/-- No call fails after it has put a block into the index that a stored orphan waits for. -/
def NoneLeft (s : ProcessState) (calls : List AcceptCall) : Prop :=
  ∀ call ∈ calls, call.fInserted = true → call.result.isOk = false →
    ∀ entry ∈ s.mapOrphanBlocksByPrev, entry.1 ≠ call.block.getHash

theorem Resolved.parentsUnknown_iff (h : Resolved s s' b calls) (hs : ParentsUnknown s) :
    ParentsUnknown s' ↔ NoneLeft s calls := by
  constructor
  · intro hafter call hcall hins hfail entry hentry heq
    -- the orphan is still there, as no other call has accepted a block with this hash
    have hleft : entry ∈ s'.mapOrphanBlocksByPrev := by
      refine (h.mem_iff entry).mpr ⟨hentry, fun hacc => ?_⟩
      obtain ⟨call', hcall', hok, hhash⟩ := mem_accepted.mp hacc
      have hne : call ≠ call' := fun heq' => by
        rw [heq', hok] at hfail
        cases hfail
      have hsymm : Std.Symm fun call call' : AcceptCall => call.fInserted = true →
          call'.fInserted = true → call.block.getHash ≠ call'.block.getHash :=
        ⟨fun _ _ h h1 h2 => (h h2 h1).symm⟩
      exact h.grows.distinct.forall hcall hcall' hne hins (h.grows.inserted call' hcall' hok)
        (heq.symm.trans hhash.symm)
    have hnone := hafter entry hleft
    have hsome := (h.grows.isSome_iff entry.1).mpr (.inr ⟨call, hcall, hins, heq.symm⟩)
    rw [hnone] at hsome
    cases hsome
  · intro hleft entry hentry
    obtain ⟨hmem, hacc⟩ := (h.mem_iff entry).mp hentry
    by_contra hsome
    rcases (h.grows.isSome_iff _).mp (Option.isSome_iff_ne_none.mpr hsome) with hold |
      ⟨call, hcall, hins, heq⟩
    · rw [hs entry hmem] at hold
      cases hold
    · cases hok : call.result.isOk with
      | true => exact hacc (mem_accepted.mpr ⟨call, hcall, hok, heq⟩)
      | false => exact hleft call hcall hins hok entry hmem heq.symm

end

/-! ## Runs -/

end ProcessState

/-- The operations: a block arrives, or another part of the node works. -/
inductive ProcessOp where
  | processBlock (env : ProcessEnv) (b : CBlock)
  | node (op : NodeOp)

namespace ProcessState

variable [Hashing] [ScriptEngine] [NodeConfig] [BlockFiles] [FloatArithmetic]

/-- The state after an operation, if it returns. The other parts of a running node do not add to the
block index. -/
def step (s : ProcessState) : ProcessOp → Option ProcessState
  | .processBlock env b => (s.processBlock env b).toOption.map fun out => out.state
  | .node op =>
    (s.node.step op).bind fun node =>
      if node.mapBlockIndex = s.node.mapBlockIndex then some { s with node := node } else none

/-- No call of `AcceptBlock` in the step fails after it has put a block into the index that a stored
orphan waits for. -/
def LeavesNone (s : ProcessState) : ProcessOp → Prop
  | .processBlock env b => ∀ out, s.processBlock env b = .ok out → NoneLeft s out.calls
  | .node _ => True

/-- The state of a node without orphan blocks. -/
def start (node : NodeState) : ProcessState := ⟨node, ∅, []⟩

/-- The two containers hold the same blocks, none of them is in the block index, and neither is the
predecessor of one. -/
structure OrphansWait (s : ProcessState) : Prop where
  same : SameBlocks s
  unknown : Unknown s
  parents : ParentsUnknown s

variable {s s' : ProcessState} {o : ProcessOp}

omit [ScriptEngine] [BlockFiles] [FloatArithmetic] in
theorem consistent_start {node : NodeState} (h : NodeState.MainChain node) :
    Consistent (start node) := by
  refine ⟨h, ⟨fun hash b => ?_, ?_, List.nodup_nil⟩, fun hash hcontains => ?_⟩
  · rw [start, TreeMap.getElem?_emptyc]
    simp
  · rintro entry ⟨⟩
  · rw [start, TreeMap.contains_emptyc] at hcontains
    cases hcontains

theorem step_spec (hs : Consistent s) (h : s.step o = some s') :
    Consistent s' ∧ (ParentsUnknown s → (ParentsUnknown s' ↔ LeavesNone s o)) := by
  cases o with
  | processBlock env b =>
    obtain ⟨out, hout, rfl⟩ := Option.map_eq_some_iff.mp h
    rw [toOption_eq_some] at hout
    have hleaves : LeavesNone s (.processBlock env b) ↔ NoneLeft s out.calls := by
      constructor
      · exact fun hall => hall out hout
      · intro hleft out' hout'
        obtain rfl := Except.ok.inj (hout.symm.trans hout')
        exact hleft
    rw [hleaves]
    rcases processBlock_cases hs hout with ⟨hstate, hcalls, hunknown, hnew, hprev⟩ | hres
    · rw [hstate, hcalls]
      refine ⟨consistent_addOrphan hs hnew hunknown, fun hparents => iff_of_true ?_ ?_⟩
      · intro entry hentry
        rcases List.mem_append.mp hentry with hentry | hentry
        · exact hparents entry hentry
        · rw [List.mem_singleton.mp hentry]
          exact hprev
      · rintro call ⟨⟩
    · exact ⟨hres.consistent hs, hres.parentsUnknown_iff⟩
  | node op =>
    obtain ⟨node, hnode, h⟩ := Option.bind_eq_some_iff.mp h
    split at h
    · rename_i hmap
      obtain rfl := Option.some.inj h
      have hfind : ∀ hash, node.findIndex hash = s.node.findIndex hash := fun hash => by
        unfold NodeState.findIndex
        rw [hmap]
      refine ⟨⟨NodeState.step_mainChain hs.mainChain hnode, hs.same.of_frame, ?_⟩, fun hparents =>
        iff_of_true ?_ trivial⟩
      · exact fun hash hcontains => (hfind hash).trans (hs.unknown hash hcontains)
      · exact fun entry hentry => (hfind entry.1).trans (hparents entry hentry)
    · cases h

/-- In every run of a node that starts without orphan blocks, the two containers hold the same blocks
and none of them is in the block index; and no orphan has its predecessor in the index exactly if no
call of `AcceptBlock` fails after it has put a block into the index that an orphan waits for. -/
theorem orphanBlocks_spec {node : NodeState} {nodeOps : List NodeOp} {ops : List ProcessOp}
    (hnode : Run.run NodeState.step .init nodeOps = some node)
    (h : Run.run step (start node) ops = some s) :
    Run.Throughout (fun s => SameBlocks s ∧ Unknown s) step (start node) ops ∧
      (Run.Throughout OrphansWait step (start node) ops ↔
        Run.Meets LeavesNone step (start node) ops) := by
  have hstart := consistent_start (NodeState.mainChain_of_run hnode)
  constructor
  · exact Run.throughout_of_invariant (fun s o s' hs h => (step_spec hs h).1)
      (fun s hs => ⟨hs.same, hs.unknown⟩) hstart
  · refine Run.throughout_iff_meets (I := Consistent) (fun s o s' hs h => (step_spec hs h).1) ?_ hstart
      ⟨hstart.same, hstart.unknown, by rintro entry ⟨⟩⟩ h
    intro s o s' hs hwait hstep
    obtain ⟨hs', hiff⟩ := step_spec hs hstep
    rw [← hiff hwait.parents]
    exact ⟨fun h => h.parents, fun h => ⟨hs'.same, hs'.unknown, h⟩⟩

end ProcessState

/-! ## An orphan of an invalid block -/

namespace OrphanSample

open ProcessState

scoped instance floats : FloatArithmetic := MainnetSample.floats
scoped instance hashing : Hashing := Sample.hashing
scoped instance config : NodeConfig := Sample.config
scoped instance scripts : ScriptEngine := Sample.scripts

/-- The coinbase of the block with nonce 3 claims more than the reward. -/
def coinbase (nNonce : UInt32) : CTransaction :=
  ⟨1, [⟨COutPoint.null, [0, 0], 0xFFFFFFFF⟩], [⟨if nNonce = 3 then 100 * coin else coin, []⟩],
    nNonce⟩

scoped instance files : BlockFiles where
  block pindex := ⟨pindex.header, [coinbase pindex.header.nNonce]⟩

/-- A block after the one with the given nonce. -/
def block (nNonce nNoncePrev : UInt32) : CBlock :=
  ⟨⟨1, if nNoncePrev = 0 then Sample.genesis.getBlockHash else BitVec.ofNat 256 nNoncePrev.toNat,
    BitVec.ofNat 256 nNonce.toNat, 1000 + nNonce, 0x1d00ffff, nNonce⟩, [coinbase nNonce]⟩

def addEnv : NodeState.AddEnv := ⟨true, true, Sample.bestEnv⟩

def env : ProcessEnv where
  nAdjustedTime := 2000
  fFrom := true
  accept _ := ⟨false, true, true, true, addEnv⟩
  fuel := 10

def nodeOps : List NodeOp := [.addToBlockIndex addEnv 5 (Sample.header 0 0)]

/-- An orphan arrives, and then its predecessor. -/
def orphanRun (nNonce nNoncePrev : UInt32) : List ProcessOp :=
  [.processBlock env (block nNonce nNoncePrev), .processBlock env (block nNoncePrev 0)]

/-- The predecessor is valid, and the orphan is accepted after it. -/
theorem orphanBlocks_spec_sample : ∃ node s, Run.run NodeState.step .init nodeOps = some node ∧
    Run.run step (start node) (orphanRun 5 2) = some s ∧ s.node.mapBlockIndex.length = 3 ∧
    s.mapOrphanBlocksByPrev = [] ∧
    Run.Throughout (fun s => SameBlocks s ∧ Unknown s) step (start node) (orphanRun 5 2) ∧
    (Run.Throughout OrphansWait step (start node) (orphanRun 5 2) ↔
      Run.Meets LeavesNone step (start node) (orphanRun 5 2)) := by
  have hrun : ((Run.run NodeState.step .init nodeOps).any fun node =>
      (Run.run step (start node) (orphanRun 5 2)).any fun s =>
        s.node.mapBlockIndex.length == 3 && s.mapOrphanBlocksByPrev == []) = true := by
    decide +kernel
  obtain ⟨node, hnode, hrun⟩ := (Option.any_eq_true _ _).mp hrun
  obtain ⟨s, hs, hstate⟩ := (Option.any_eq_true _ _).mp hrun
  rw [Bool.and_eq_true, beq_iff_eq, beq_iff_eq] at hstate
  exact ⟨node, s, hnode, hs, hstate.1, hstate.2, orphanBlocks_spec hnode hs⟩

/-- The predecessor claims too much: it stays in the index as a failed block, and the orphan waits for
it for good. -/
theorem not_orphanBlocks_spec : ∃ node s, Run.run NodeState.step .init nodeOps = some node ∧
    Run.run step (start node) (orphanRun 4 3) = some s ∧ s.node.fRequestShutdown = false ∧
    s.mapOrphanBlocksByPrev = [(3, block 4 3)] ∧ ¬ OrphansWait s := by
  have hrun : ((Run.run NodeState.step .init nodeOps).any fun node =>
      (Run.run step (start node) (orphanRun 4 3)).any fun s =>
        !s.node.fRequestShutdown && (s.mapOrphanBlocksByPrev == [(3, block 4 3)] &&
          (s.node.findIndex 3).isSome)) = true := by
    decide +kernel
  obtain ⟨node, hnode, hrun⟩ := (Option.any_eq_true _ _).mp hrun
  obtain ⟨s, hs, hstate⟩ := (Option.any_eq_true _ _).mp hrun
  rw [Bool.and_eq_true, Bool.and_eq_true, Bool.not_eq_true', beq_iff_eq] at hstate
  obtain ⟨hshutdown, hprev, hfind⟩ := hstate
  refine ⟨node, s, hnode, hs, hshutdown, hprev, fun hwait => ?_⟩
  have hnone := hwait.parents (3, block 4 3) (by rw [hprev]; exact List.mem_cons_self)
  rw [show s.node.findIndex (3, block 4 3).1 = s.node.findIndex 3 from rfl] at hnone
  rw [hnone] at hfind
  cases hfind

end OrphanSample

end Terracoin
