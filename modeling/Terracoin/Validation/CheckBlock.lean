import Terracoin.Primitives.Block

/-!
# `CBlock::CheckBlock`

The checks of a block that need no context. `CBlock.Checked` collects what a block that passes
them satisfies.
-/

namespace Terracoin

open Checked

/-- The settings of the process: the network and the command line. -/
class NodeConfig where
  fTestNet : Bool
  /-- `Checkpoints::GetTotalBlocksEstimate()`. -/
  nTotalBlocksEstimate : Nat
  /-- `nScriptCheckThreads` is not zero. -/
  fScriptCheckThreads : Bool
  fTxIndex : Bool

def maxBlockSigOps : Nat := maxBlockSize / 50

namespace CBlock

/-- `setTxIn` of `CheckBlock`: the transaction ids of the block and those its inputs refer to,
apart from the input of the first transaction. -/
def referencedTxids [Hashing] (b : CBlock) : List uint256 :=
  (b.vtx.map CTransaction.getHash ++
    b.vtx.tail.flatMap fun tx => tx.vin.map fun txin => txin.prevout.hash).dedup

def checkTransactions : List CTransaction → Check Unit
  | [] => .ok ()
  | tx :: vtx => do
    tx.checkTransaction
    checkTransactions vtx

def checkBlock [Hashing] (b : CBlock) (nAdjustedTime : Int) (fCheckPOW fCheckMerkleRoot : Bool) :
    Check Unit := do
  require (!b.vtx.isEmpty && b.vtx.length ≤ maxBlockSize && b.getSerializeSize ≤ maxBlockSize)
    (.DoS 100 "CheckBlock() : size limits failed")
  -- the limit of 4500 transaction ids, in force from 21 March to 15 May 2013
  require (!(1363867200 ≤ b.getBlockTime && b.getBlockTime < 1368576000 &&
      4500 < b.referencedTxids.length))
    (.error "CheckBlock() : 15 May maxlocks violation")
  require (!fCheckPOW || (checkProofOfWork b.getHash b.nBits).isOk)
    (.DoS 50 "CheckBlock() : proof of work failed")
  require (b.getBlockTime ≤ nAdjustedTime + 15 * 60)
    (.DoS 0 "CheckBlock() : block timestamp too far in the future")
  require (b.vtx.head?.any CTransaction.isCoinBase)
    (.DoS 100 "CheckBlock() : first tx is not coinbase")
  require (b.vtx.tail.all fun tx => !tx.isCoinBase)
    (.DoS 100 "CheckBlock() : more than one coinbase")
  checkTransactions b.vtx
  require (b.vtx.map CTransaction.getHash).Nodup
    (.DoS 100 "CheckBlock() : duplicate transaction")
  require ((b.vtx.map CTransaction.getLegacySigOpCount).sum ≤ maxBlockSigOps)
    (.DoS 100 "CheckBlock() : out-of-bounds SigOpCount")
  require (!fCheckMerkleRoot || b.hashMerkleRoot == b.buildMerkleTree)
    (.DoS 100 "CheckBlock() : hashMerkleRoot mismatch")

theorem checkTransactions_ok {vtx : List CTransaction} {u : Unit} :
    checkTransactions vtx = .ok u ↔ ∀ tx ∈ vtx, tx.checkTransaction = .ok () := by
  induction vtx with
  | nil => simp [checkTransactions]
  | cons tx vtx ih =>
    simp only [checkTransactions, bind_ok, ih, List.forall_mem_cons]
    constructor
    · rintro ⟨_, h1, h2⟩
      exact ⟨h1, h2⟩
    · rintro ⟨h1, h2⟩
      exact ⟨(), h1, h2⟩

/-- What `CheckBlock` establishes about the transactions of a block. -/
structure Checked [Hashing] (b : CBlock) : Prop where
  /-- The first transaction is the only coinbase. -/
  coinbase : ∃ cb rest, b.vtx = cb :: rest ∧ cb.isCoinBase = true ∧
    ∀ tx ∈ rest, tx.isCoinBase = false
  checked : ∀ tx ∈ b.vtx, tx.Checked
  nodup : (b.vtx.map CTransaction.getHash).Nodup
  length_le : b.vtx.length ≤ maxBlockSize

theorem checked_of_checkBlock [Hashing] {b : CBlock} {t : Int} {fPOW fMerkle : Bool} {u : Unit}
    (h : b.checkBlock t fPOW fMerkle = .ok u) : b.Checked := by
  simp only [checkBlock, bind_ok, require_ok] at h
  obtain ⟨_, hsize, _, -, _, -, _, -, _, hfirst, _, hrest, _, htxs, _, hnodup, -⟩ := h
  simp only [Bool.and_eq_true, decide_eq_true_eq] at hsize
  refine ⟨?_, ?_, by simpa using hnodup, hsize.1.2⟩
  · cases hvtx : b.vtx with
    | nil => simp [hvtx] at hfirst
    | cons cb rest =>
      rw [hvtx] at hfirst hrest
      refine ⟨cb, rest, rfl, by simpa using hfirst, ?_⟩
      intro tx htx
      simpa using List.all_eq_true.mp hrest tx htx
  · intro tx htx
    exact CTransaction.checked_of_checkTransaction (checkTransactions_ok.mp htxs tx htx)

theorem hashMerkleRoot_of_checkBlock [Hashing] {b : CBlock} {t : Int} {fPOW : Bool} {u : Unit}
    (h : b.checkBlock t fPOW true = .ok u) : b.hashMerkleRoot = b.buildMerkleTree := by
  simp only [checkBlock, bind_ok, require_ok] at h
  obtain ⟨_, -, _, -, _, -, _, -, _, -, _, -, _, -, _, -, _, -, hroot⟩ := h
  simpa using hroot

end CBlock

end Terracoin
