import Terracoin.Primitives.Script

/-!
# Blocks and the block index

`CBlockHeader`, `CBlock` and `CBlockIndex`, the merkle root, the compact form of a target and
the proof-of-work test.

An entry of the block index never changes its predecessor, so the linked structure of
`CBlockIndex` is an inductive type: an entry without `pprev`, or one on top of another. Its
height and its chain work are computed along `pprev` exactly as `AddToBlockIndex` and
`LoadBlockIndexDB` fill them in. The fields of an entry that do change (`pnext`, `nStatus`)
belong to the state of the node.
-/

namespace Terracoin

/-- `CBigNum::SetCompact`. -/
def setCompact (nCompact : UInt32) : Int :=
  let n := nCompact.toNat
  let nSize := n / 2 ^ 24
  let nWord := n % 2 ^ 23
  let bn : Nat := if nSize ≤ 3 then nWord / 2 ^ (8 * (3 - nSize)) else nWord * 2 ^ (8 * (nSize - 3))
  if n / 2 ^ 23 % 2 = 1 then -(bn : Int) else bn

def proofOfWorkLimit : Int := 2 ^ 224 - 1

def checkProofOfWork (hash : uint256) (nBits : UInt32) : Check Unit := do
  let bnTarget := setCompact nBits
  Checked.require (0 < bnTarget && bnTarget ≤ proofOfWorkLimit)
    (.error "CheckProofOfWork() : nBits below minimum work")
  Checked.require (hash.toNat ≤ bnTarget)
    (.error "CheckProofOfWork() : hash doesn't match nBits")

def CBlockHeader.getHash [Hashing] (b : CBlockHeader) : uint256 := Hashing.hashHeader b

def CBlockHeader.getBlockTime (b : CBlockHeader) : Int := b.nTime.toNat

/-- `GetBlockWork`: the expected number of hashes for the target. -/
def CBlockHeader.getBlockWork (b : CBlockHeader) : Int :=
  let bnTarget := setCompact b.nBits
  if bnTarget ≤ 0 then 0 else 2 ^ 256 / (bnTarget + 1)

theorem CBlockHeader.getBlockWork_nonneg (b : CBlockHeader) : 0 ≤ b.getBlockWork := by
  unfold getBlockWork
  dsimp only
  split
  · exact le_refl 0
  · exact Int.ediv_nonneg (by norm_num) (by omega)

/-- One level of `BuildMerkleTree`: neighbours are combined, and an odd last node is combined
with itself. -/
def merkleLevel {α : Type} (hash2 : α → α → α) : List α → List α
  | [] => []
  | [a] => [hash2 a a]
  | a :: b :: rest => hash2 a b :: merkleLevel hash2 rest

/-- The levels above `nodes`, up to the root. Every level is shorter than the one below, so the
length of the lowest one is enough fuel. -/
def merkleRoot {α : Type} (hash2 : α → α → α) : Nat → List α → Option α
  | _, [] => none
  | _, [a] => some a
  | 0, _ => none
  | fuel + 1, nodes => merkleRoot hash2 fuel (merkleLevel hash2 nodes)

structure CBlock extends CBlockHeader where
  vtx : List CTransaction
deriving DecidableEq, Repr

namespace CBlock

def getSerializeSize (b : CBlock) : Nat := 80 + vectorSize CTransaction.getSerializeSize b.vtx

def buildMerkleTree [Hashing] (b : CBlock) : uint256 :=
  (merkleRoot Hashing.hash2 b.vtx.length (b.vtx.map CTransaction.getHash)).getD 0

end CBlock

/-! ## The block index -/

/-- An entry of the block index: a header and its predecessor `pprev`, if any. -/
inductive CBlockIndex where
  | root (header : CBlockHeader)
  | child (prev : CBlockIndex) (header : CBlockHeader)
deriving DecidableEq, Repr

namespace CBlockIndex

def header : CBlockIndex → CBlockHeader
  | root h => h
  | child _ h => h

def pprev : CBlockIndex → Option CBlockIndex
  | root _ => none
  | child p _ => some p

def nHeight : CBlockIndex → Nat
  | root _ => 0
  | child p _ => p.nHeight + 1

def bnChainWork : CBlockIndex → Int
  | root h => h.getBlockWork
  | child p h => p.bnChainWork + h.getBlockWork

def getBlockHash [Hashing] (p : CBlockIndex) : uint256 := p.header.getHash

def getBlockTime (p : CBlockIndex) : Int := p.header.getBlockTime

theorem pprev_eq_some {p q : CBlockIndex} (h : p.pprev = some q) : p = child q p.header := by
  cases p with
  | root => cases h
  | child p h' => cases h; rfl

theorem nHeight_of_pprev {p q : CBlockIndex} (h : p.pprev = some q) : p.nHeight = q.nHeight + 1 := by
  rw [pprev_eq_some h]
  rfl

theorem pprev_eq_none {p : CBlockIndex} : p.pprev = none ↔ p.nHeight = 0 := by
  cases p <;> simp [pprev, nHeight]

theorem bnChainWork_le_of_pprev {p q : CBlockIndex} (h : p.pprev = some q) :
    q.bnChainWork ≤ p.bnChainWork := by
  rw [pprev_eq_some h]
  have := p.header.getBlockWork_nonneg
  simp only [bnChainWork]
  omega

end CBlockIndex

namespace Sample

/-- Hashes that tell the objects of the samples apart: by lock time and by nonce. -/
scoped instance hashing : Hashing where
  hashTx tx := BitVec.ofNat 256 tx.nLockTime.toNat
  hashHeader header :=
    if header.nNonce = 0 then 0x00000000d64b490e447fb522682bfa6bcb27886ed1a94d7a4856fb92ab130875
    else BitVec.ofNat 256 header.nNonce.toNat
  hash2 a b := a + b

def header (nNonce : UInt32) (hashMerkleRoot : uint256) : CBlockHeader :=
  ⟨1, 0, hashMerkleRoot, 1000, 0x1d00ffff, nNonce⟩

def genesis : CBlockIndex := .root (header 0 0)

end Sample

end Terracoin
