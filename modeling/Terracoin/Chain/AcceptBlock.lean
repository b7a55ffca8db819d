import Terracoin.Chain.ActiveChain
import Terracoin.Chain.Checkpoints
import Terracoin.Chain.Retarget

/-!
# `CBlock::AcceptBlock`

The checks of a block against its predecessor, and its way into the block index. `AcceptBlock`
returns `false` in two ways: before the block has entered the index, and after it, when the index
cannot be written or `ConnectBestBlock` fails (`acceptBlock_cases`).
-/

namespace Terracoin

open Checked

/-- The bytes of a number, lowest first, without leading zeros. -/
def lowestFirst : Nat → Nat → List UInt8
  | 0, _ => []
  | fuel + 1, n => if n = 0 then [] else UInt8.ofNat (n % 2 ^ 8) :: lowestFirst fuel (n / 2 ^ 8)

/-- `CBigNum(n).getvch()` for an `int64` that is not negative: a zero byte follows a highest byte
that has the sign bit set. -/
def getvch (n : Nat) : List UInt8 :=
  let vch := lowestFirst 8 n
  if vch.getLast?.any fun c => 0x80 ≤ c then vch ++ [0] else vch

/-- `CScript() << n` for an integer that is not negative. -/
def CScript.ofNat (n : Nat) : CScript :=
  if 1 ≤ n ∧ n ≤ 16 then [UInt8.ofNat (0x50 + n)]
  else UInt8.ofNat (getvch n).length :: getvch n

/-- `std::equal` with the two iterators of `expect` and the first one of the other range, which is
read as far as they agree: `none` if that is past its end. -/
def equalRange : List UInt8 → List UInt8 → Option Bool
  | [], _ => some true
  | _ :: _, [] => none
  | c :: expect, c' :: s => if c = c' then equalRange expect s else some false

/-- `vtx[0].vin[0].scriptSig`. -/
def CBlock.coinbaseScriptSig (b : CBlock) : Option CScript :=
  (b.vtx.head?.bind fun tx => tx.vin.head?).map CTxIn.scriptSig

/-- The comparison of the coinbase with the height. -/
def CBlock.startsWithHeight (b : CBlock) (nHeight : Nat) : Option Bool :=
  b.coinbaseScriptSig.bind (equalRange (CScript.ofNat nHeight))

/-! ## Block versions -/

/-- The blocks of at least the version `minVersion` among `nToCheck` blocks down from `pstart`. -/
def countVersions (minVersion : Int32) : Nat → CBlockIndex → Nat
  | 0, _ => 0
  | _ + 1, .root h => if minVersion ≤ h.nVersion then 1 else 0
  | n + 1, .child p h => (if minVersion ≤ h.nVersion then 1 else 0) + countVersions minVersion n p

/-- `CBlockIndex::IsSuperMajority`. -/
def isSuperMajority (minVersion : Int32) (pstart : CBlockIndex) (nRequired nToCheck : Nat) : Bool :=
  decide (nRequired ≤ countVersions minVersion nToCheck pstart)

/-- The coinbase of the block has to start with the height: 750 of the last 1000 blocks have version
2 or greater (51 of 100 if testnet). -/
def CBlock.heightRequired [NodeConfig] (b : CBlock) (pindexPrev : CBlockIndex) : Bool :=
  2 ≤ b.nVersion &&
    if NodeConfig.fTestNet then isSuperMajority 2 pindexPrev 51 100
    else isSuperMajority 2 pindexPrev 750 1000

section

variable [Hashing] [NodeConfig] [FloatArithmetic]

/-- The checks of `AcceptBlock` on a block with the predecessor `pindexPrev`. The coinbase is not
accepted by a comparison that reads past its end. -/
def CBlock.checkContext (b : CBlock) (pindexPrev : CBlockIndex) : Check Unit := do
  let nHeight := pindexPrev.nHeight + 1
  require (getNextWorkRequired pindexPrev b.toCBlockHeader == some b.nBits)
    (.DoS 100 "AcceptBlock() : incorrect proof of work")
  require (pindexPrev.getMedianTimePast < b.getBlockTime)
    (.DoS 0 "AcceptBlock() : block's timestamp is too early")
  require (b.vtx.all fun tx => tx.isFinalAt nHeight b.getBlockTime)
    (.DoS 10 "AcceptBlock() : contains a non-final transaction")
  require (Checkpoints.checkBlock nHeight b.getHash)
    (.DoS 100 "AcceptBlock() : rejected by checkpoint lock-in at %d")
  require (!(b.nVersion < 2 &&
      if NodeConfig.fTestNet then isSuperMajority 2 pindexPrev 75 100
      else isSuperMajority 2 pindexPrev 950 1000))
    (.DoS 0 "AcceptBlock() : rejected nVersion=1 block")
  require (!b.heightRequired pindexPrev || b.startsWithHeight nHeight == some true)
    (.DoS 100 "AcceptBlock() : block height mismatch in coinbase")

end

/-- Which disk operations of `AcceptBlock` succeed, and whether the block is on disk already. -/
structure AcceptBlockEnv where
  fKnown : Bool
  fDiskSpace : Bool
  fWriteFileInfo : Bool
  fWriteToDisk : Bool
  add : NodeState.AddEnv

def AcceptBlockEnv.findBlockPos (env : AcceptBlockEnv) : Check Unit := do
  require (env.fKnown || env.fDiskSpace) (.error "AcceptBlock() : FindBlockPos failed")
  require env.fWriteFileInfo (.abort "Failed to write file info")

/-- The writing of the block to its file. -/
def AcceptBlockEnv.store (env : AcceptBlockEnv) : Check Unit := do
  env.findBlockPos
  require (env.fKnown || env.fWriteToDisk) (.abort "Failed to write block")

namespace NodeState

variable [Hashing] [ScriptEngine] [NodeConfig] [BlockFiles] [FloatArithmetic]

/-- What `AcceptBlock` checks before it writes the block. -/
def checkAccept (s : NodeState) (b : CBlock) : Check Unit := do
  require (s.findIndex b.getHash).isNone (.DoS 0 "AcceptBlock() : block already in mapBlockIndex")
  if b.getHash == hashGenesisBlock then pure ()
  else do
    let pindexPrev ← get (s.findIndex b.hashPrevBlock)
      (.DoS 10 "AcceptBlock() : prev block not found")
    b.checkContext pindexPrev

def acceptBlock (env : AcceptBlockEnv) (fuel : Nat) (s : NodeState) (b : CBlock) :
    Except Halt (NodeState × Check Unit) :=
  match s.checkAccept b with
  | .error e => s.fail e
  | .ok () =>
    match env.store with
    | .error e => s.fail e
    | .ok () => s.addToBlockIndex env.add fuel b.toCBlockHeader

variable {s s' : NodeState} {b : CBlock} {r : Check Unit}

omit [ScriptEngine] [BlockFiles] in
theorem checkAccept_ok {u : Unit} (h : s.checkAccept b = .ok u) :
    s.findIndex b.getHash = none ∧
      ((s.findIndex b.hashPrevBlock).isSome ∨ b.getHash = hashGenesisBlock) := by
  obtain ⟨_, hnew, h⟩ := bind_ok.mp h
  refine ⟨Option.isNone_iff_eq_none.mp (require_ok.mp hnew), ?_⟩
  split at h
  · rename_i hgen
    exact .inr (beq_iff_eq.mp hgen)
  · obtain ⟨pindexPrev, hprev, -⟩ := bind_ok.mp h
    rw [get_ok] at hprev
    exact .inl (by rw [hprev]; rfl)

omit [FloatArithmetic] in
theorem addToBlockIndex_mapBlockIndex {env : AddEnv} {fuel : Nat} {header : CBlockHeader}
    (hs : MainChain s) (hnew : s.findIndex header.getHash = none)
    (hprev : (s.findIndex header.hashPrevBlock).isSome ∨ header.getHash = hashGenesisBlock)
    (h : s.addToBlockIndex env fuel header = .ok (s', r)) :
    s'.mapBlockIndex = s.newIndex header :: s.mapBlockIndex := by
  have hmap : (s.insertIndex (s.newIndex header)).mapBlockIndex =
      s.newIndex header :: s.mapBlockIndex := by
    unfold insertIndex
    rw [insertValid_eq]
  unfold addToBlockIndex at h
  rw [hnew, if_neg (by simp)] at h
  dsimp only at h
  split at h
  · obtain ⟨-, rfl, -⟩ := fail_ok.mp h
    exact hmap
  · obtain ⟨⟨s1, r1⟩, h1, h⟩ := bind_ok.mp h
    have hmap1 := (connectBestBlock_mainChain (hs.insertIndex_newIndex hprev hnew) h1).2.trans hmap
    cases r1 with
    | error e =>
      obtain ⟨rfl, -⟩ := Prod.mk.inj (Except.ok.inj h)
      exact hmap1
    | ok u =>
      dsimp only at h
      split at h
      · obtain ⟨-, rfl, -⟩ := fail_ok.mp h
        exact hmap1
      · obtain ⟨rfl, -⟩ := Prod.mk.inj (Except.ok.inj h)
        exact hmap1

/-- A call of `AcceptBlock` fails and leaves the index alone, or puts the new block into the index and
then succeeds or fails. -/
theorem acceptBlock_cases {env : AcceptBlockEnv} {fuel : Nat} (hs : MainChain s)
    (h : s.acceptBlock env fuel b = .ok (s', r)) : MainChain s' ∧
      ((s'.mapBlockIndex = s.mapBlockIndex ∧ r.isOk = false) ∨
        s.findIndex b.getHash = none ∧
          s'.mapBlockIndex = s.newIndex b.toCBlockHeader :: s.mapBlockIndex) := by
  unfold acceptBlock at h
  split at h
  · obtain ⟨-, rfl, rfl⟩ := fail_ok.mp h
    exact ⟨hs.of_unmoved .abortOn, .inl ⟨rfl, rfl⟩⟩
  · rename_i hcheck
    obtain ⟨hnew, hprev⟩ := checkAccept_ok hcheck
    split at h
    · obtain ⟨-, rfl, rfl⟩ := fail_ok.mp h
      exact ⟨hs.of_unmoved .abortOn, .inl ⟨rfl, rfl⟩⟩
    · exact ⟨addToBlockIndex_mainChain hs hprev h,
        .inr ⟨hnew, addToBlockIndex_mapBlockIndex hs hnew hprev h⟩⟩

end NodeState

end Terracoin
