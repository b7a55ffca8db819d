import Terracoin.Chain.Ancestry
import Terracoin.Mempool.Pool
import Terracoin.Validation.DisconnectBlock

/-!
# The state of the node

The globals of `main.cpp` that hold the block index, the active chain, the coins at its tip and the
memory pool; `setBlockIndexValid` as an ordered set; and `FindBlockByHeight`.

The links `pprev` are part of an entry. All the other fields of an entry change and are functions
here: `data` and `pnext`. An entry that is not in `mapBlockIndex` has no meaning in these functions.
-/

namespace Terracoin

open CBlockIndex

structure NodeState where
  /-- The entries of the map, each under its hash. -/
  mapBlockIndex : List CBlockIndex
  data : CBlockIndex → BlockData
  pnext : CBlockIndex → Option CBlockIndex
  setBlockIndexValid : List CBlockIndex
  pindexGenesisBlock : Option CBlockIndex
  pindexBest : Option CBlockIndex
  hashBestChain : uint256
  nBestHeight : Int
  bnBestChainWork : Int
  bnBestInvalidWork : Int
  pblockindexFBBHLast : Option CBlockIndex
  /-- `*pcoinsTip`, with what it reads from the database below it. -/
  coinsTip : CoinsView
  mempool : CTxMemPool
  fRequestShutdown : Bool

/-- A call that leaves no state behind: the process dies on a failed `assert`, on a use of `NULL`,
on an overflow or on a recursion too deep for its stack, or the fuel of a loop is used up. -/
inductive Halt where
  | crash
  | outOfFuel
deriving DecidableEq, Repr

/-- The failures on which the process dies. -/
def Failure.isCrash : Failure → Bool
  | .assertion | .overflow | .shift => true
  | _ => false

/-- The failures that end in `AbortNode`: those of `Abort`, and an exception, which the callers of
validation turn into one. -/
def Failure.isAbort : Failure → Bool
  | .abort _ | .runtimeError _ => true
  | _ => false

def BlockStatus.failed (nStatus : BlockStatus) : Bool := nStatus.failedValid || nStatus.failedChild

namespace NodeState

def init : NodeState where
  mapBlockIndex := []
  data _ := .unconnected
  pnext _ := none
  setBlockIndexValid := []
  pindexGenesisBlock := none
  pindexBest := none
  hashBestChain := 0
  nBestHeight := -1
  bnBestChainWork := 0
  bnBestInvalidWork := 0
  pblockindexFBBHLast := none
  coinsTip := .empty
  mempool := .empty
  fRequestShutdown := false

/-- An index entry has one of the flags of `BLOCK_FAILED_MASK`. -/
def failed (s : NodeState) (pindex : CBlockIndex) : Bool := (s.data pindex).nStatus.failed

/-- The effect of a failure on the shutdown request. -/
def abortOn (s : NodeState) (e : Failure) : NodeState :=
  { s with fRequestShutdown := s.fRequestShutdown || e.isAbort }

/-- Return `false` with the failure. -/
def fail (s : NodeState) (e : Failure) : Except Halt (NodeState × Check Unit) :=
  if e.isCrash then .error .crash else .ok (s.abortOn e, .error e)

theorem fail_ok {s s' : NodeState} {e : Failure} {r : Check Unit} :
    s.fail e = .ok (s', r) ↔ e.isCrash = false ∧ s' = s.abortOn e ∧ r = .error e := by
  unfold fail
  cases e.isCrash with
  | true => simp
  | false => simp [eq_comm]

def isInMainChain (s : NodeState) (pindex : CBlockIndex) : Bool :=
  (s.pnext pindex).isSome || s.pindexBest == some pindex

/-- What connecting blocks changes outside the view: the undo data and the validity of index
entries, and the genesis block. -/
structure Recorded (s s' : NodeState) : Prop where
  frame : s' = { s with data := s'.data, pindexGenesisBlock := s'.pindexGenesisBlock }
  failed : ∀ pindex, s'.failed pindex = s.failed pindex

theorem Recorded.refl (s : NodeState) : Recorded s s := ⟨rfl, fun _ => rfl⟩

theorem Recorded.trans {s1 s2 s3 : NodeState} (h : Recorded s1 s2) (h' : Recorded s2 s3) :
    Recorded s1 s3 := by
  refine ⟨?_, fun p => (h'.failed p).trans (h.failed p)⟩
  rw [h'.frame, h.frame]

/-- The memory pool is all that the last loops change, apart from a request to shut down. -/
structure PoolOnly (s s' : NodeState) : Prop where
  frame : s' = { s with mempool := s'.mempool, fRequestShutdown := s'.fRequestShutdown }
  shutdown : s'.fRequestShutdown = false → s.fRequestShutdown = false

theorem PoolOnly.refl (s : NodeState) : PoolOnly s s := ⟨rfl, id⟩

theorem PoolOnly.trans {s1 s2 s3 : NodeState} (h : PoolOnly s1 s2) (h' : PoolOnly s2 s3) :
    PoolOnly s1 s3 := by
  refine ⟨?_, fun hs => h.shutdown (h'.shutdown hs)⟩
  rw [h'.frame, h.frame]

theorem foldlM_poolOnly {s s' : NodeState} {f : NodeState → CTransaction → Except Halt NodeState}
    (hf : ∀ s tx s', f s tx = .ok s' → PoolOnly s s') {txs : List CTransaction}
    (h : txs.foldlM f s = .ok s') : PoolOnly s s' := by
  induction txs generalizing s with
  | nil =>
    obtain rfl := Except.ok.inj h
    exact .refl s
  | cons tx txs ih =>
    rw [List.foldlM_cons, Checked.bind_ok] at h
    obtain ⟨s1, h1, h2⟩ := h
    exact (hf s tx s1 h1).trans (ih h2)

/-- `while (p->nHeight < nHeight) p = p->pnext;`, with `none` for a use of `NULL`. -/
def raiseTo (s : NodeState) (nHeight : Int) : Nat → CBlockIndex → Option CBlockIndex
  | 0, p => if p.nHeight < nHeight then none else some p
  | n + 1, p => if p.nHeight < nHeight then (s.pnext p).bind (raiseTo s nHeight n) else some p

/-- The entry `FindBlockByHeight` starts from. -/
def searchStart (s : NodeState) (nHeight : Int) : Option CBlockIndex :=
  (if nHeight < s.nBestHeight.tdiv 2 then s.pindexGenesisBlock else s.pindexBest).map
    fun pblockindex =>
      match s.pblockindexFBBHLast with
      | none => pblockindex
      | some last =>
        if |nHeight - pblockindex.nHeight| > |nHeight - last.nHeight| then last else pblockindex

/-- `FindBlockByHeight`, with the state after it; `none` is a use of `NULL`. The loop up a chain takes
as many steps as there are heights to go. -/
def findBlockByHeight (s : NodeState) (nHeight : Int) : Option (CBlockIndex × NodeState) := do
  let pblockindex ← s.searchStart nHeight
  let pblockindex ← pblockindex.lowerTo nHeight
  let pblockindex ← s.raiseTo nHeight (nHeight - pblockindex.nHeight).toNat pblockindex
  pure (pblockindex, { s with pblockindexFBBHLast := some pblockindex })

end NodeState

/-! ## `setBlockIndexValid` -/

section

variable [Hashing]

/-- `CBlockIndexWorkComparator`. -/
def workLess (pa pb : CBlockIndex) : Bool :=
  if pa.bnChainWork > pb.bnChainWork then false
  else if pa.bnChainWork < pb.bnChainWork then true
  else if pa.getBlockHash < pb.getBlockHash then false
  else decide (pa.getBlockHash > pb.getBlockHash)

/-- Entries that the comparator does not tell apart. -/
def workEquiv (pa pb : CBlockIndex) : Bool := !workLess pa pb && !workLess pb pa

namespace NodeState

/-- `setBlockIndexValid.insert(pindex)`. -/
def insertValid (s : NodeState) (pindex : CBlockIndex) : NodeState :=
  if s.setBlockIndexValid.any (workEquiv pindex) then s
  else { s with setBlockIndexValid := pindex :: s.setBlockIndexValid }

/-- `setBlockIndexValid.erase(pindex)`. -/
def eraseValid (s : NodeState) (pindex : CBlockIndex) : NodeState :=
  { s with setBlockIndexValid := s.setBlockIndexValid.filter fun p => !workEquiv pindex p }

end NodeState

/-- The greatest entry, `*setBlockIndexValid.rbegin()`. -/
def rbegin : List CBlockIndex → Option CBlockIndex
  | [] => none
  | p :: ps =>
    match rbegin ps with
    | none => some p
    | some q => some (if workLess p q then q else p)

theorem workEquiv_iff {pa pb : CBlockIndex} :
    workEquiv pa pb = true ↔ pa.bnChainWork = pb.bnChainWork ∧ pa.getBlockHash = pb.getBlockHash := by
  unfold workEquiv workLess
  constructor
  · intro h
    have hwork : pa.bnChainWork = pb.bnChainWork := by
      by_contra hne
      rcases lt_or_gt_of_ne hne with hlt | hgt
      · simp [hlt, not_lt_of_gt hlt] at h
      · simp [hgt, not_lt_of_gt hgt] at h
    refine ⟨hwork, ?_⟩
    by_contra hne
    rcases lt_or_gt_of_ne fun heq => hne (BitVec.eq_of_toNat_eq heq) with hlt | hgt
    · simp [hwork, BitVec.lt_def, hlt, not_lt_of_gt hlt] at h
    · simp [hwork, BitVec.lt_def, hgt, not_lt_of_gt hgt] at h
  · rintro ⟨hwork, hhash⟩
    simp [hwork, hhash]

theorem rbegin_mem {l : List CBlockIndex} {p : CBlockIndex} (h : rbegin l = some p) : p ∈ l := by
  induction l generalizing p with
  | nil => cases h
  | cons q l ih =>
    rw [rbegin] at h
    cases hl : rbegin l with
    | none =>
      rw [hl] at h
      cases h
      exact List.mem_cons_self
    | some q' =>
      rw [hl] at h
      obtain rfl := Option.some.inj h
      split
      · exact List.mem_cons_of_mem _ (ih hl)
      · exact List.mem_cons_self

theorem rbegin_isSome {l : List CBlockIndex} (h : rbegin l = none) : l = [] := by
  cases l with
  | nil => rfl
  | cons q l =>
    rw [rbegin] at h
    split at h <;> cases h

theorem work_le_of_workLess {p q : CBlockIndex} (h : workLess p q = true) :
    p.bnChainWork ≤ q.bnChainWork := by
  unfold workLess at h
  split at h
  · cases h
  · omega

theorem work_le_of_not_workLess {p q : CBlockIndex} (h : ¬workLess p q = true) :
    q.bnChainWork ≤ p.bnChainWork := by
  unfold workLess at h
  split at h
  · omega
  · split at h
    · exact absurd rfl h
    · omega

/-- No entry of the set has more work than the greatest one. -/
theorem work_le_rbegin {l : List CBlockIndex} {p q : CBlockIndex} (h : rbegin l = some p)
    (hq : q ∈ l) : q.bnChainWork ≤ p.bnChainWork := by
  induction l generalizing p with
  | nil => cases hq
  | cons r l ih =>
    rw [rbegin] at h
    cases hl : rbegin l with
    | none =>
      rw [hl] at h
      cases h
      rw [rbegin_isSome hl, List.mem_singleton] at hq
      rw [hq]
    | some r' =>
      rw [hl] at h
      obtain rfl := Option.some.inj h
      rcases List.mem_cons.mp hq with rfl | hq
      · split
        · exact work_le_of_workLess ‹_›
        · exact le_refl _
      · have hle := ih hl hq
        split
        · exact hle
        · exact hle.trans (work_le_of_not_workLess ‹_›)

end

end Terracoin
