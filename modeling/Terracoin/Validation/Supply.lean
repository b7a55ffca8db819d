import Terracoin.Validation.Overflow
import Mathlib.Tactic.Ring

/-!
# The money supply

Runs of `ConnectBlock` and `DisconnectBlock` from the empty view at the genesis block, every
index entry standing for one block and keeping the undo data that `ConnectBlock` wrote for it the
first time. In every state of such a run the available outputs are worth no more than the
subsidies of the chain (`supply_le`), and so no more than `maxMoney`.

The view of a node that has reorganised need not be the one it would have had on the way up:
two blocks are exempt from BIP30, and what they overwrite is gone for good. It is compared with
`ledger`, the view that the chain of an entry yields from scratch, and stays `Below` it. The value
of `ledger` grows from block to block by no more than the subsidy.
-/

namespace Terracoin

open Checked CoinsView CTransaction

structure CoinsState where
  view : CoinsView
  data : CBlockIndex → BlockData

inductive CoinsOp where
  | connect (env : ConnectEnv) (pindex : CBlockIndex)
  | disconnect (pindex : CBlockIndex) (fReadUndo : Bool)

/-- The empty view at a genesis block with the given header. -/
def CoinsState.init (header : CBlockHeader) : CoinsState :=
  ⟨⟨fun _ => none, some (.root header)⟩, fun _ => .unconnected⟩

section

variable [Hashing] [ScriptEngine] [NodeConfig]

/-- One call of `ConnectBlock` or `DisconnectBlock`; `block` reads the block of an index entry. A
view on which the call failed is discarded. -/
def CoinsState.step (block : CBlockIndex → CBlock) (s : CoinsState) : CoinsOp → CoinsState
  | .connect env pindex =>
    let r := connectBlock env (block pindex) pindex (some pindex.getBlockHash) (s.data pindex)
      s.view false
    { view := r.2.toOption.getD s.view, data := Function.update s.data pindex r.1 }
  | .disconnect pindex fReadUndo =>
    match disconnectBlock (block pindex) pindex (s.data pindex) fReadUndo s.view with
    | .ok (view, _) => { s with view := view }
    | .error _ => s

def CoinsState.run (block : CBlockIndex → CBlock) : CoinsState → List CoinsOp → CoinsState :=
  List.foldl (CoinsState.step block)

/-- The coins after a block, if its transactions can be applied. -/
def applyBlock (b : CBlock) (nHeight : Nat) (view : CoinsView) : CoinsView :=
  if b.getHash = hashGenesisBlock then view
  else
    match applyTransactions nHeight view b.vtx with
    | .ok (view, _) => view
    | .error _ => view

/-- The coins of the chain that ends in an entry, computed from the genesis block on. -/
def ledger (block : CBlockIndex → CBlock) : CBlockIndex → CoinsView
  | .root _ => ⟨fun _ => none, none⟩
  | .child prev header =>
    applyBlock (block (.child prev header)) (prev.nHeight + 1) (ledger block prev)

end

/-! ## Subsidies -/

/-- The subsidies of the blocks up to a height, the genesis block not counted. -/
def subsidies (nHeight : Nat) : Int := ∑ h ∈ Finset.Icc 1 nHeight, getBlockSubsidy h

theorem subsidies_succ (nHeight : Nat) :
    subsidies (nHeight + 1) = subsidies nHeight + getBlockSubsidy (nHeight + 1) :=
  Finset.sum_Icc_succ_top (by omega) _

/-- The subsidy of the blocks between two halvings. -/
def epochSubsidy (k : Nat) : Int := (20 * coin) / 2 ^ k

theorem epochSubsidy_succ (k : Nat) : 2 * epochSubsidy (k + 1) ≤ epochSubsidy k := by
  have hhalf : epochSubsidy (k + 1) = epochSubsidy k / 2 := by
    rw [epochSubsidy, epochSubsidy, pow_succ, Int.ediv_ediv_of_nonneg (by positivity)]
  omega

/-- What has been paid out, what the current epoch still pays and twice the whole next epoch add
up to no more than twice the first epoch. -/
theorem subsidies_potential (nHeight : Nat) :
    subsidies nHeight +
        (1050000 - 1 - (nHeight % 1050000 : Nat)) * epochSubsidy (nHeight / 1050000) +
        2 * 1050000 * epochSubsidy (nHeight / 1050000 + 1) ≤ 2 * 1050000 * epochSubsidy 0 := by
  induction nHeight with
  | zero =>
    have hnext : 2 * epochSubsidy 1 ≤ epochSubsidy 0 := epochSubsidy_succ 0
    have h0 : epochSubsidy 0 = 20 * coin := rfl
    have hcoin : coin = 100000000 := rfl
    simp [subsidies]
    omega
  | succ h ih =>
    rw [subsidies_succ]
    by_cases hlast : (h + 1) % 1050000 = 0
    · have hk : (h + 1) / 1050000 = h / 1050000 + 1 := by omega
      have hr : h % 1050000 = 1050000 - 1 := by omega
      have hsub : getBlockSubsidy (h + 1) = epochSubsidy (h / 1050000 + 1) := by
        rw [getBlockSubsidy, hk, epochSubsidy]
      have hnext := epochSubsidy_succ (h / 1050000 + 1)
      rw [hr] at ih
      rw [hk, hlast, hsub]
      push_cast at ih ⊢
      omega
    · have hk : (h + 1) / 1050000 = h / 1050000 := by omega
      have hr : (h + 1) % 1050000 = h % 1050000 + 1 := by omega
      have hsub : getBlockSubsidy (h + 1) = epochSubsidy (h / 1050000) := by
        rw [getBlockSubsidy, hk, epochSubsidy]
      rw [hk, hr, hsub]
      refine le_trans (le_of_eq ?_) ih
      push_cast
      ring

theorem subsidies_le (nHeight : Nat) : subsidies nHeight ≤ maxMoney := by
  have h := subsidies_potential nHeight
  have h0 : epochSubsidy 0 = 20 * coin := rfl
  have hcoin : coin = 100000000 := rfl
  have hmm := maxMoney_eq
  have hk : 0 ≤ epochSubsidy (nHeight / 1050000) := Int.ediv_nonneg (by decide) (by positivity)
  have hk' : 0 ≤ epochSubsidy (nHeight / 1050000 + 1) := Int.ediv_nonneg (by decide) (by positivity)
  have hr : 0 ≤ (1050000 - 1 - (nHeight % 1050000 : Nat) : Int) := by omega
  have hprod := mul_nonneg hr hk
  omega

/-- What the subsidies of all blocks up to a height have to be like: `GetBlockValue` is defined with
any fees, the subsidy does not rise, and all subsidies together are an amount of money. -/
structure SubsidyLaw (nHeight : Nat) : Prop where
  defined : ∀ h ≤ nHeight, ∀ nFees, 0 ≤ nFees → nFees ≤ maxMoney →
    getBlockValue h nFees = .ok (getBlockSubsidy h + nFees)
  antitone : ∀ h ≤ nHeight, getBlockSubsidy nHeight ≤ getBlockSubsidy h
  total_le : subsidies nHeight ≤ maxMoney

theorem getBlockSubsidy_antitone {h nHeight : Nat} (hle : h ≤ nHeight) :
    getBlockSubsidy nHeight ≤ getBlockSubsidy h := by
  have hepoch : Antitone epochSubsidy := antitone_nat_of_succ_le fun k => by
    have hnext := epochSubsidy_succ k
    have hnonneg : 0 ≤ epochSubsidy (k + 1) := Int.ediv_nonneg (by decide) (by positivity)
    omega
  exact hepoch (Nat.div_le_div_right hle)

theorem getBlockValue_eq {nHeight : Nat} {nFees : Int} (h : nHeight < 64 * 1050000) (h0 : 0 ≤ nFees)
    (hle : nFees ≤ maxMoney) : getBlockValue nHeight nFees = .ok (getBlockSubsidy nHeight + nFees) := by
  have hsubsidy := getBlockSubsidy_nonneg nHeight
  have hsubsidy' := getBlockSubsidy_le nHeight
  have hcoin : coin = 100000000 := rfl
  have hmm := maxMoney_eq
  have hshift : nHeight / 1050000 < 64 := by omega
  have hrange : Int64Range (getBlockSubsidy nHeight + nFees) := ⟨by omega, by omega⟩
  rw [getBlockValue, add64_of_range hrange]
  simp [require, hshift, bind, Except.bind]

/-- The shift is defined as long as there are fewer than 64 halvings. -/
theorem subsidyLaw_iff (nHeight : Nat) : SubsidyLaw nHeight ↔ nHeight < 64 * 1050000 := by
  constructor
  · intro hlaw
    have hok := hlaw.defined nHeight le_rfl 0 le_rfl (by decide)
    simp only [getBlockValue, bind_ok, require_ok, decide_eq_true_eq] at hok
    obtain ⟨_, hshift, -⟩ := hok
    omega
  · intro hlt
    exact ⟨fun h hle nFees h0 hfees => getBlockValue_eq (by omega) h0 hfees,
      fun h hle => getBlockSubsidy_antitone hle, subsidies_le nHeight⟩

/-- A height of the block index with a shift by 64. -/
theorem getBlockValue_shift : (67200000 : Nat) < 2 ^ 31 ∧ getBlockValue 67200000 0 = .error .shift :=
  ⟨by decide, by decide⟩

/-! ## The invariant -/

section

variable [Hashing] [NodeConfig] {block : CBlockIndex → CBlock}

/-- The ledger of an entry is worth no more than the subsidies of its chain. -/
structure LedgerBounded (block : CBlockIndex → CBlock) (pindex : CBlockIndex) : Prop where
  nonNeg : (ledger block pindex).NonNeg
  total_le : (ledger block pindex).total ≤ subsidies pindex.nHeight

/-- So it is for an entry and all its ancestors. -/
def ChainBounded (block : CBlockIndex → CBlock) : CBlockIndex → Prop
  | .root header => LedgerBounded block (.root header)
  | .child prev header => ChainBounded block prev ∧ LedgerBounded block (.child prev header)

theorem ChainBounded.ledgerBounded {pindex : CBlockIndex} (h : ChainBounded block pindex) :
    LedgerBounded block pindex := by
  cases pindex with
  | root => exact h
  | child => exact h.2

/-- The undo data of an entry puts back the outputs that its block takes from the ledger. -/
def UndoMatches (block : CBlockIndex → CBlock) (pindex : CBlockIndex)
    (undo : Option CBlockUndo) : Prop :=
  ∃ prev blockundo undos, pindex.pprev = some prev ∧ undo = some blockundo ∧
    applyTransactions pindex.nHeight (ledger block prev) (block pindex).vtx =
      .ok (ledger block pindex, undos) ∧
    List.Forall₂ SameTxTxouts (none :: blockundo.vtxundo.map some) undos

structure SupplyInv (block : CBlockIndex → CBlock) (s : CoinsState) (tip : CBlockIndex) : Prop where
  tip_eq : s.view.pindexTip = some tip
  below : Below s.view (ledger block tip)
  bounded : ChainBounded block tip
  undo : ∀ pindex, (s.data pindex).nStatus.haveUndo = true →
    UndoMatches block pindex (s.data pindex).undo

theorem supplyInv_init (header : CBlockHeader) :
    SupplyInv block (CoinsState.init header) (.root header) where
  tip_eq := rfl
  below := Below.refl _
  bounded := ⟨fun _ _ _ h => (by cases h), le_of_eq (Finset.sum_eq_zero fun _ _ => rfl)⟩
  undo := fun _ h => by cases h

/-! ## Steps -/

/-- A block connected to a view below the ledger of its predecessor: the ledger of the entry has
the same block applied. -/
theorem ledger_of_connected {pindex prev : CBlockIndex} {phashBlock : Option uint256}
    {view coins : CoinsView} {undos : List (Option CTxUndo)} (hprev : pindex.pprev = some prev)
    (hgenesis : (block pindex).getHash ≠ hashGenesisBlock)
    (hconn : Connected (block pindex) pindex phashBlock view coins undos)
    (hbelow : Below view (ledger block prev)) :
    ∃ undos', applyTransactions pindex.nHeight (ledger block prev) (block pindex).vtx =
        .ok (ledger block pindex, undos') ∧ Below coins (ledger block pindex) ∧
      List.Forall₂ SameTxTxouts undos undos' := by
  obtain ⟨v, undos', happly, hb, hq⟩ := applyTransactions_below hbelow hconn.apply
  have hledger : ledger block pindex = v := by
    have hp := CBlockIndex.pprev_eq_some hprev
    have hh := CBlockIndex.nHeight_of_pprev hprev
    rw [hh] at happly
    rw [hp] at happly hgenesis ⊢
    rw [ledger, applyBlock, if_neg hgenesis, happly]
  rw [hledger]
  exact ⟨undos', happly, hb, hq⟩

theorem ledgerBounded_of_connected {pindex prev : CBlockIndex} {phashBlock : Option uint256}
    {view coins : CoinsView} {undos : List (Option CTxUndo)} (hprev : pindex.pprev = some prev)
    (hgenesis : (block pindex).getHash ≠ hashGenesisBlock) (hb : (block pindex).Checked)
    (hconn : Connected (block pindex) pindex phashBlock view coins undos)
    (hbelow : Below view (ledger block prev)) (hbounded : LedgerBounded block prev) :
    LedgerBounded block pindex := by
  obtain ⟨undos', happly, -, hq⟩ := ledger_of_connected hprev hgenesis hconn hbelow
  obtain ⟨hnonneg, htotal⟩ := total_applyTransactions hbounded.nonNeg hb.checked happly
  refine ⟨hnonneg, ?_⟩
  obtain ⟨cb, rest, hvtx, hcb, hrest⟩ := hb.coinbase
  have hpay := hconn.coinbase_le cb (by rw [hvtx]; rfl)
  have hvalue : ((block pindex).vtx.map coinbaseValue).sum = cb.valueOut := by
    rw [hvtx, coinbaseValue_sum hcb hrest]
  rw [hvalue, ← feesOf_congr hq] at htotal
  have hprevTotal := hbounded.total_le
  rw [CBlockIndex.nHeight_of_pprev hprev, subsidies_succ]
  rw [CBlockIndex.nHeight_of_pprev hprev] at hpay
  omega

theorem ledgerBounded_of_genesis {pindex prev : CBlockIndex} (hprev : pindex.pprev = some prev)
    (hgenesis : (block pindex).getHash = hashGenesisBlock) (hbounded : LedgerBounded block prev) :
    ledger block pindex = ledger block prev ∧ LedgerBounded block pindex := by
  have hledger : ledger block pindex = ledger block prev := by
    have hp := CBlockIndex.pprev_eq_some hprev
    rw [hp] at hgenesis ⊢
    rw [ledger, applyBlock, if_pos hgenesis]
  refine ⟨hledger, by rw [hledger]; exact hbounded.nonNeg, ?_⟩
  rw [hledger, CBlockIndex.nHeight_of_pprev hprev, subsidies_succ]
  have h0 := getBlockSubsidy_nonneg (prev.nHeight + 1)
  have h1 := hbounded.total_le
  omega

theorem chainBounded_child {pindex prev : CBlockIndex} (hprev : pindex.pprev = some prev)
    (hchain : ChainBounded block prev) (h : LedgerBounded block pindex) :
    ChainBounded block pindex := by
  rw [CBlockIndex.pprev_eq_some hprev] at h ⊢
  exact ⟨hchain, h⟩

theorem ChainBounded.prev {pindex prev : CBlockIndex} (h : ChainBounded block pindex)
    (hprev : pindex.pprev = some prev) : ChainBounded block prev := by
  rw [CBlockIndex.pprev_eq_some hprev] at h
  exact h.1

variable [ScriptEngine] {s : CoinsState} {tip : CBlockIndex}

theorem undoMatches_connect {env : ConnectEnv} {pindex : CBlockIndex}
    (hs : SupplyInv block s tip)
    (hundo : (connectBlock env (block pindex) pindex (some pindex.getBlockHash) (s.data pindex)
      s.view false).1.nStatus.haveUndo = true) :
    UndoMatches block pindex (connectBlock env (block pindex) pindex (some pindex.getBlockHash)
      (s.data pindex) s.view false).1.undo := by
  rcases connectBlock_data hundo with ⟨hold, heq⟩ | ⟨hgenesis, hb, htip, coins, blockundo, hcoins, heq⟩
  · rw [heq]
    exact hs.undo pindex hold
  · rw [heq]
    have hprev : pindex.pprev = some tip := htip.trans hs.tip_eq
    obtain ⟨undos, hconn, rfl⟩ := connected_of_connectCoins hb.checked hcoins
    obtain ⟨undos', happly, -, hq⟩ := ledger_of_connected hprev hgenesis hconn hs.below
    refine ⟨tip, _, undos', hprev, rfl, happly, ?_⟩
    rw [← applyTransactions_blockUndo hb hconn.apply]
    exact hq

theorem supplyInv_connect {env : ConnectEnv} {pindex : CBlockIndex} (hs : SupplyInv block s tip) :
    ∃ tip', SupplyInv block (s.step block (.connect env pindex)) tip' := by
  have hundo : ∀ q, (Function.update s.data pindex (connectBlock env (block pindex) pindex
      (some pindex.getBlockHash) (s.data pindex) s.view false).1 q).nStatus.haveUndo = true →
      UndoMatches block q (Function.update s.data pindex (connectBlock env (block pindex) pindex
        (some pindex.getBlockHash) (s.data pindex) s.view false).1 q).undo := by
    intro q
    by_cases hq : q = pindex
    · subst hq
      rw [Function.update_self]
      exact undoMatches_connect hs
    · rw [Function.update_of_ne hq]
      exact hs.undo q
  unfold CoinsState.step
  dsimp only
  generalize hr : connectBlock env (block pindex) pindex (some pindex.getBlockHash)
    (s.data pindex) s.view false = r at hundo ⊢
  obtain ⟨data', e | view'⟩ := r
  · exact ⟨tip, hs.tip_eq, hs.below, hs.bounded, hundo⟩
  · by_cases hgenesis : (block pindex).getHash = hashGenesisBlock
    · obtain ⟨hprev, rfl⟩ := connectBlock_ok_genesis hgenesis hr
      rw [getBestBlock, hs.tip_eq] at hprev
      obtain ⟨hledger, hb⟩ := ledgerBounded_of_genesis hprev hgenesis hs.bounded.ledgerBounded
      refine ⟨pindex, rfl, ?_, chainBounded_child hprev hs.bounded hb, hundo⟩
      rw [hledger]
      exact hs.below
    · obtain ⟨hb, hprev, coins, blockundo, hcoins, rfl, -, -⟩ := connectBlock_ok hgenesis hr
      rw [getBestBlock, hs.tip_eq] at hprev
      obtain ⟨undos, hconn, -⟩ := connected_of_connectCoins hb.checked hcoins
      obtain ⟨undos', -, hbelow, -⟩ := ledger_of_connected hprev hgenesis hconn hs.below
      have hbound := ledgerBounded_of_connected hprev hgenesis hb hconn hs.below
        hs.bounded.ledgerBounded
      exact ⟨pindex, rfl, hbelow, chainBounded_child hprev hs.bounded hbound, hundo⟩

theorem supplyInv_disconnect {pindex : CBlockIndex} {fReadUndo : Bool}
    (hs : SupplyInv block s tip) :
    ∃ tip', SupplyInv block (s.step block (.disconnect pindex fReadUndo)) tip' := by
  unfold CoinsState.step
  dsimp only
  split
  · rename_i view' fClean hdis
    obtain ⟨htip, hhave, prev, blockundo, coins, hprev, -, hundo, -, hrev, rfl⟩ :=
      disconnectBlock_ok.mp hdis
    have hpindex : tip = pindex := by
      rw [getBestBlock, hs.tip_eq] at htip
      exact Option.some.inj htip
    subst hpindex
    obtain ⟨prev', blockundo', undos, hprev', hundo', happly, hq⟩ := hs.undo tip hhave
    obtain rfl : prev = prev' := Option.some.inj (hprev.symm.trans hprev')
    obtain rfl : blockundo = blockundo' := Option.some.inj (hundo.symm.trans hundo')
    have hbelow := disconnectTransactions_below happly hq hs.below hrev
    exact ⟨prev, rfl, hbelow, hs.bounded.prev hprev, hs.undo⟩
  · exact ⟨tip, hs⟩

theorem supplyInv_run (block : CBlockIndex → CBlock) (header : CBlockHeader)
    (ops : List CoinsOp) :
    ∃ tip, SupplyInv block ((CoinsState.init header).run block ops) tip := by
  refine List.foldlRecOn (motive := fun s => ∃ tip, SupplyInv block s tip) ops _
    ⟨_, supplyInv_init header⟩ ?_
  rintro s ⟨tip, hs⟩ op -
  cases op with
  | connect env pindex => exact supplyInv_connect hs
  | disconnect pindex fReadUndo => exact supplyInv_disconnect hs

end

/-- **The money supply.** After any run of `ConnectBlock` and `DisconnectBlock` from the empty view
at a genesis block, the available outputs are worth at most the subsidies of the chain, which are
at most `maxMoney`, and none of the sums of `ConnectBlock` overflows on any next block. -/
theorem supply_le [Hashing] [ScriptEngine] [NodeConfig] (block : CBlockIndex → CBlock)
    (header : CBlockHeader) (ops : List CoinsOp) :
    let s := (CoinsState.init header).run block ops
    ∃ tip, s.view.getBestBlock = some tip ∧ s.view.total ≤ subsidies tip.nHeight ∧
      subsidies tip.nHeight ≤ maxMoney ∧
      ∀ env b pindex phashBlock data fJustCheck,
        (connectBlock env b pindex phashBlock data s.view fJustCheck).2 ≠ .error .overflow := by
  intro s
  obtain ⟨tip, hs⟩ := supplyInv_run block header ops
  have hbounded := hs.bounded.ledgerBounded
  have htotal : s.view.total ≤ subsidies tip.nHeight :=
    (hs.below.total_le hbounded.nonNeg).trans hbounded.total_le
  refine ⟨tip, hs.tip_eq, htotal, subsidies_le _, ?_⟩
  intro env b pindex phashBlock data fJustCheck
  exact connectBlock_avoids_overflow (hbounded.nonNeg.of_below hs.below)
    (htotal.trans (subsidies_le _))

end Terracoin
