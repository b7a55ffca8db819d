import Terracoin.Validation.CheckBlock
import Terracoin.Validation.Inputs
import Mathlib.Data.List.ReduceOption

/-!
# `CBlock::ConnectBlock`

Connecting a block to a coins view. `connectTransactions` is the loop over the transactions,
`connectCoins` everything up to the point where only the disk is left, and `connectBlock` the
whole function.

The loop does many checks and one thing to the view: `applyTransactions` is that one thing, and
`connectCoins_spec` says that a successful `connectCoins` is a run of it on a checked block whose
coinbase pays no more than the subsidy and the fees.
-/

namespace Terracoin

open Checked

def hashGenesisBlock [NodeConfig] : uint256 :=
  if NodeConfig.fTestNet then 0x00000000d64b490e447fb522682bfa6bcb27886ed1a94d7a4856fb92ab130875
  else 0x00000000804bbc6a621a9dbb564ce469f492e1ccf2d70f8a6b241e26a277afa2

/-- `nSubsidy` of `GetBlockValue`: 20 coins, halved every 1050000 blocks. -/
def getBlockSubsidy (nHeight : Nat) : Int := (20 * coin) / 2 ^ (nHeight / 1050000)

/-- `GetBlockValue`. Shifting a 64-bit integer by 64 or more is undefined. -/
def getBlockValue (nHeight : Nat) (nFees : Int) : Check Int := do
  require (nHeight / 1050000 < 64) .shift
  add64 .overflow (getBlockSubsidy nHeight) nFees

theorem getBlockValue_ok {nHeight : Nat} {nFees v : Int} (h : getBlockValue nHeight nFees = .ok v) :
    v = getBlockSubsidy nHeight + nFees := by
  simp only [getBlockValue, bind_ok, add64_ok] at h
  exact h.choose_spec.2.1

/-- `fEnforceBIP30` for an entry with the given `phashBlock` and height. -/
def enforceBIP30 (phashBlock : Option uint256) (nHeight : Nat) : Bool :=
  match phashBlock with
  | none => true
  | some hash =>
    !((nHeight == 91842 &&
        hash == 0x00000000000a4d0a398161ffc163c503763b1f4360639393e0e4c8e300e0caec) ||
      (nHeight == 91880 &&
        hash == 0x00000000000743f190a18c5577a3c2d2a1f610ae9601ac046a38084ccb7cd721))

/-- `UpdateCoins` for a transaction of a block, with the record `ConnectBlock` keeps of it: none
for a coinbase. -/
def applyTransaction [Hashing] (nHeight : Int) (view : CoinsView) (tx : CTransaction) :
    Check (CoinsView × Option CTxUndo) := do
  let (view, txundo) ← tx.updateCoins view nHeight tx.getHash
  pure (view, if tx.isCoinBase then none else some txundo)

/-- `UpdateCoins` for all transactions of a block. -/
def applyTransactions [Hashing] (nHeight : Int) :
    CoinsView → List CTransaction → Check (CoinsView × List (Option CTxUndo)) :=
  UndoLog.applyAll (applyTransaction nHeight)

/-! ## The loop over the transactions -/

/-- The variables of `ConnectBlock` that its loop changes. `vChecks` are the script checks
handed to the queue. -/
structure ConnectState where
  view : CoinsView
  nFees : Int
  nSigOps : Nat
  vChecks : List CScriptCheck

/-- The variables of `ConnectBlock` that are set before the loop. -/
structure ConnectParams where
  /-- Script checks go to the queue: `nScriptCheckThreads` is not zero. -/
  fQueue : Bool
  fScriptChecks : Bool
  flags : Nat
  fStrictPayToScriptHash : Bool
  nHeight : Int

/-- The part of the loop body for transactions other than the coinbase. -/
def connectInputs [ScriptEngine] (params : ConnectParams) (st : ConnectState)
    (tx : CTransaction) : Check ConnectState := do
  require (tx.haveInputs st.view) (.DoS 100 "ConnectBlock() : inputs missing/spent")
  let nP2SHSigOps ← cond params.fStrictPayToScriptHash (tx.getP2SHSigOpCount st.view) (.ok 0)
  require (st.nSigOps + nP2SHSigOps ≤ maxBlockSigOps)
    (.DoS 100 "ConnectBlock() : too many sigops")
  let nValueIn ← tx.getValueIn st.view
  let nValueOut ← tx.getValueOut
  let nFee ← add64 .overflow nValueIn (-nValueOut)
  let nFees ← add64 .overflow st.nFees nFee
  let vChecks ← tx.checkInputs st.view params.fScriptChecks params.flags params.fQueue
  pure { st with
    nFees := nFees, nSigOps := st.nSigOps + nP2SHSigOps, vChecks := st.vChecks ++ vChecks }

/-- The checks of the loop body, before the view is updated. -/
def checkConnect [ScriptEngine] (params : ConnectParams) (st : ConnectState)
    (tx : CTransaction) : Check ConnectState := do
  require (st.nSigOps + tx.getLegacySigOpCount ≤ maxBlockSigOps)
    (.DoS 100 "ConnectBlock() : too many sigops")
  let st := { st with nSigOps := st.nSigOps + tx.getLegacySigOpCount }
  if tx.isCoinBase then .ok st
  else connectInputs params st tx

def connectTransaction [Hashing] [ScriptEngine] (params : ConnectParams) (st : ConnectState)
    (tx : CTransaction) : Check (ConnectState × Option CTxUndo) := do
  let st ← checkConnect params st tx
  let (view, txundo) ← applyTransaction params.nHeight st.view tx
  pure ({ st with view := view }, txundo)

def connectTransactions [Hashing] [ScriptEngine] (params : ConnectParams) :
    ConnectState → List CTransaction → Check (ConnectState × List (Option CTxUndo)) :=
  UndoLog.applyAll (connectTransaction params)

/-- `ConnectBlock` for a block other than the genesis block, up to `control.Wait()`. -/
def connectCoins [Hashing] [ScriptEngine] [NodeConfig] (b : CBlock) (pindex : CBlockIndex)
    (phashBlock : Option uint256) (view : CoinsView) : Check (CoinsView × CBlockUndo) := do
  let fScriptChecks := decide (NodeConfig.nTotalBlocksEstimate ≤ pindex.nHeight)
  require (!enforceBIP30 phashBlock pindex.nHeight ||
      b.vtx.all fun tx => (view.coinsAt tx.getHash).isPruned)
    (.DoS 100 "ConnectBlock() : tried to overwrite transaction")
  let fStrictPayToScriptHash := decide (1333238400 ≤ pindex.getBlockTime)
  let flags := SCRIPT_VERIFY_NOCACHE +
    if fStrictPayToScriptHash then SCRIPT_VERIFY_P2SH else SCRIPT_VERIFY_NONE
  let (st, vtxundo) ← connectTransactions
    ⟨NodeConfig.fScriptCheckThreads, fScriptChecks, flags, fStrictPayToScriptHash, pindex.nHeight⟩
    ⟨view, 0, 0, []⟩ b.vtx
  let coinbase ← get b.vtx.head? .assertion
  let nValueOut ← coinbase.getValueOut
  let nBlockValue ← getBlockValue pindex.nHeight st.nFees
  require (nValueOut ≤ nBlockValue)
    (.DoS 100 "ConnectBlock() : coinbase pays too much (actual=%d vs limit=%d)")
  require (st.vChecks.all CScriptCheck.run) (.DoS 100 "")
  pure (st.view, ⟨vtxundo.reduceOption⟩)

/-! ## What a successful run has done -/

section Spec

variable {params : ConnectParams} {nHeight : Int}

/-- The fee of a transaction with the given undo record. -/
def feeOf (tx : CTransaction) : Option CTxUndo → Int
  | none => 0
  | some txundo => CTransaction.undoValue txundo.vprevout - tx.valueOut

/-- The fees of transactions with their undo records. -/
def feesOf (vtx : List CTransaction) (undos : List (Option CTxUndo)) : Int :=
  (List.zipWith feeOf vtx undos).sum

theorem applyTransaction_ok [Hashing] {view view' : CoinsView} {tx : CTransaction}
    {txundo : Option CTxUndo} :
    applyTransaction nHeight view tx = .ok (view', txundo) ↔
      ∃ undo, tx.updateCoins view nHeight tx.getHash = .ok (view', undo) ∧
        txundo = if tx.isCoinBase then none else some undo := by
  simp only [applyTransaction, bind_ok, pure_ok, Prod.exists, Prod.mk.injEq]
  constructor
  · rintro ⟨v, undo, h, rfl, rfl⟩
    exact ⟨undo, h, rfl⟩
  · rintro ⟨undo, h, rfl⟩
    exact ⟨view', undo, h, rfl, rfl⟩

theorem applyTransaction_undo [Hashing] {s s' : CoinsView} {tx : CTransaction} {txundo : Option CTxUndo}
    (h : applyTransaction nHeight s tx = .ok (s', txundo)) :
    txundo.isSome = !tx.isCoinBase := by
  obtain ⟨undo, -, rfl⟩ := applyTransaction_ok.mp h
  cases tx.isCoinBase <;> rfl

theorem applyTransactions_undos [Hashing] {s s' : CoinsView} {vtx : List CTransaction}
    {undos : List (Option CTxUndo)} (hcb : ∀ tx ∈ vtx, tx.isCoinBase = false)
    (h : applyTransactions nHeight s vtx = .ok (s', undos)) :
    undos.reduceOption.map some = undos := by
  induction vtx generalizing s undos with
  | nil =>
    obtain ⟨-, rfl⟩ := Prod.mk.inj (UndoLog.applyAll_nil.mp h)
    rfl
  | cons tx vtx ih =>
    obtain ⟨s1, txundo, undos', h1, h2, rfl⟩ := UndoLog.applyAll_cons.mp h
    have hsome := applyTransaction_undo h1
    rw [hcb tx List.mem_cons_self, Bool.not_false, Option.isSome_iff_exists] at hsome
    obtain ⟨undo, rfl⟩ := hsome
    rw [List.reduceOption_cons_of_some, List.map_cons,
      ih (fun t ht => hcb t (List.mem_cons_of_mem _ ht)) h2]

theorem applyTransactions_blockUndo [Hashing] {s s' : CoinsView} {b : CBlock}
    {undos : List (Option CTxUndo)} (hb : b.Checked)
    (h : applyTransactions nHeight s b.vtx = .ok (s', undos)) :
    undos = none :: undos.reduceOption.map some := by
  obtain ⟨cb, rest, hvtx, hcb, hrest⟩ := hb.coinbase
  rw [hvtx] at h
  obtain ⟨s1, txundo, undos', h1, h2, rfl⟩ := UndoLog.applyAll_cons.mp h
  have hnone := applyTransaction_undo h1
  rw [hcb, Bool.not_true, Option.isSome_eq_false_iff, Option.isNone_iff_eq_none] at hnone
  subst hnone
  rw [List.reduceOption_cons_of_none, applyTransactions_undos hrest h2]

theorem reduceOption_length [Hashing] {s s' : CoinsView} {b : CBlock}
    {undos : List (Option CTxUndo)} (hb : b.Checked)
    (h : applyTransactions nHeight s b.vtx = .ok (s', undos)) :
    undos.reduceOption.length + 1 = b.vtx.length := by
  have hlen := UndoLog.applyAll_length h
  rw [applyTransactions_blockUndo hb h] at hlen
  simpa using hlen

theorem connectInputs_ok [ScriptEngine] {st st' : ConnectState} {tx : CTransaction}
    (h : connectInputs params st tx = .ok st') :
    st'.view = st.view ∧ tx.haveInputs st.view = true ∧
      ∃ nValueIn nValueOut, tx.getValueIn st.view = .ok nValueIn ∧
        tx.getValueOut = .ok nValueOut ∧ st'.nFees = st.nFees + (nValueIn + -nValueOut) := by
  simp only [connectInputs, bind_ok, require_ok, add64_ok, pure_ok] at h
  obtain ⟨_, hhave, _, -, _, -, vin, hvin, vout, hvout, _, ⟨rfl, -⟩, _, ⟨rfl, -⟩, _, -, rfl⟩ := h
  exact ⟨rfl, hhave, vin, vout, hvin, hvout, rfl⟩

variable [Hashing] [ScriptEngine]

/-- One round of the loop applies the transaction to the view and adds its fee. -/
theorem connectTransaction_ok {st st' : ConnectState} {tx : CTransaction}
    {txundo : Option CTxUndo} (hchecked : tx.Checked)
    (h : connectTransaction params st tx = .ok (st', txundo)) :
    applyTransaction params.nHeight st.view tx = .ok (st'.view, txundo) ∧
      st'.nFees = st.nFees + feeOf tx txundo := by
  simp only [connectTransaction, bind_ok, pure_ok, Prod.exists, Prod.mk.injEq] at h
  obtain ⟨st1, hcheck, view, undo, happly, rfl, rfl⟩ := h
  simp only [checkConnect, bind_ok, require_ok] at hcheck
  obtain ⟨_, -, hcheck⟩ := hcheck
  split at hcheck
  · rename_i hcb
    cases hcheck
    obtain ⟨u, -, rfl⟩ := applyTransaction_ok.mp happly
    refine ⟨happly, ?_⟩
    simp [hcb, feeOf]
  · rename_i hcb
    obtain ⟨hview, -, vin, vout, hvin, hvout, hfees⟩ := connectInputs_ok hcheck
    obtain ⟨u, hu, rfl⟩ := applyTransaction_ok.mp happly
    refine ⟨by rw [← hview]; exact happly, ?_⟩
    obtain ⟨view1, hspend, -⟩ := CTransaction.updateCoins_ok.mp hu
    rw [CTransaction.spendInputs, if_neg hcb, hview] at hspend
    rw [CTransaction.getValueIn, if_neg hcb] at hvin
    have hv := CTransaction.valueInFrom_eq (CoinsView.Below.refl _) hvin hspend
    rw [hchecked.getValueOut_eq, Except.ok.injEq] at hvout
    simp only [hfees, if_neg hcb, feeOf, hv, ← hvout]
    omega

theorem connectTransactions_ok {st st' : ConnectState} {vtx : List CTransaction}
    {undos : List (Option CTxUndo)} (hchecked : ∀ tx ∈ vtx, tx.Checked)
    (h : connectTransactions params st vtx = .ok (st', undos)) :
    applyTransactions params.nHeight st.view vtx = .ok (st'.view, undos) ∧
      st'.nFees = st.nFees + feesOf vtx undos := by
  induction vtx generalizing st undos with
  | nil =>
    obtain ⟨rfl, rfl⟩ := Prod.mk.inj (UndoLog.applyAll_nil.mp h)
    exact ⟨rfl, by simp [feesOf]⟩
  | cons tx vtx ih =>
    obtain ⟨st1, txundo, undos', h1, h2, rfl⟩ := UndoLog.applyAll_cons.mp h
    obtain ⟨happly, hfee⟩ := connectTransaction_ok (hchecked tx List.mem_cons_self) h1
    obtain ⟨hrest, hfees⟩ := ih (fun t ht => hchecked t (List.mem_cons_of_mem _ ht)) h2
    refine ⟨UndoLog.applyAll_cons.mpr ⟨_, _, _, happly, hrest, rfl⟩, ?_⟩
    rw [hfees, hfee]
    simp only [feesOf, List.zipWith_cons_cons, List.sum_cons]
    omega

/-- What a successful `ConnectBlock` has done to the coins. -/
structure Connected (b : CBlock) (pindex : CBlockIndex) (phashBlock : Option uint256)
    (view view' : CoinsView) (undos : List (Option CTxUndo)) : Prop where
  /-- BIP30: no transaction takes the place of one with available outputs. -/
  noOverwrite : enforceBIP30 phashBlock pindex.nHeight = true →
    ∀ tx ∈ b.vtx, (view.coinsAt tx.getHash).isPruned = true
  apply : applyTransactions pindex.nHeight view b.vtx = .ok (view', undos)
  /-- The coinbase pays at most the subsidy and the fees. -/
  coinbase_le : ∀ cb ∈ b.vtx.head?,
    cb.valueOut ≤ getBlockSubsidy pindex.nHeight + feesOf b.vtx undos

theorem connected_of_connectCoins [NodeConfig] {b : CBlock} {pindex : CBlockIndex}
    {phashBlock : Option uint256} {view view' : CoinsView} {blockundo : CBlockUndo}
    (hchecked : ∀ tx ∈ b.vtx, tx.Checked)
    (h : connectCoins b pindex phashBlock view = .ok (view', blockundo)) :
    ∃ undos, Connected b pindex phashBlock view view' undos ∧
      blockundo = ⟨undos.reduceOption⟩ := by
  simp only [connectCoins, bind_ok, require_ok, get_ok, pure_ok, Prod.exists, Prod.mk.injEq] at h
  obtain ⟨_, hbip, st, undos, hconn, cb, hcb, vout, hvout, limit, hlimit, _, hpay, _, -, rfl, rfl⟩ :=
    h
  obtain ⟨happly, hfees⟩ := connectTransactions_ok hchecked hconn
  refine ⟨undos, ⟨?_, happly, ?_⟩, rfl⟩
  · intro henf tx htx
    rw [henf] at hbip
    simpa using List.all_eq_true.mp (by simpa using hbip) tx htx
  · intro cb' hcb'
    rw [Option.mem_def, hcb, Option.some.injEq] at hcb'
    subst hcb'
    have hmem : cb ∈ b.vtx := List.mem_of_mem_head? hcb
    rw [(hchecked cb hmem).getValueOut_eq, Except.ok.injEq] at hvout
    rw [hvout]
    simpa [getBlockValue_ok hlimit, hfees] using hpay

end Spec

/-! ## Writing to disk -/

def BLOCK_VALID_TRANSACTIONS : Nat := 3
def BLOCK_VALID_SCRIPTS : Nat := 5

/-- `nStatus` of an index entry: the level under `BLOCK_VALID_MASK` and the flags. -/
structure BlockStatus where
  validity : Nat
  haveData : Bool
  haveUndo : Bool
  failedValid : Bool
  failedChild : Bool
deriving DecidableEq, Repr

/-- What an index entry records about its block besides the header: `nStatus`, and the undo
record that `nUndoPos` points to. -/
structure BlockData where
  nStatus : BlockStatus
  undo : Option CBlockUndo
deriving DecidableEq, Repr

/-- What the index knows of a block that was never connected. -/
def BlockData.unconnected : BlockData :=
  ⟨⟨BLOCK_VALID_TRANSACTIONS, true, false, false, false⟩, none⟩

/-- Which disk operations succeed, and the clock. -/
structure ConnectEnv where
  nAdjustedTime : Int
  findUndoPos : Bool
  writeUndo : Bool
  writeBlockIndex : Bool
  writeTxIndex : Bool
deriving DecidableEq, Repr

/-- Write the undo data, unless that has been done before, and the index entry. -/
def writeUndoData (env : ConnectEnv) (data : BlockData) (blockundo : CBlockUndo) :
    BlockData × Check Unit :=
  if data.nStatus.haveUndo && decide (BLOCK_VALID_SCRIPTS ≤ data.nStatus.validity) then
    (data, .ok ())
  else if !data.nStatus.haveUndo && !env.findUndoPos then
    (data, .error (.abort "ConnectBlock() : FindUndoPos failed"))
  else if !data.nStatus.haveUndo && !env.writeUndo then
    (data, .error (.abort "Failed to write undo data"))
  else
    let data : BlockData :=
      if data.nStatus.haveUndo then data
      else { nStatus := { data.nStatus with haveUndo := true }, undo := some blockundo }
    let data := { data with nStatus := { data.nStatus with validity := BLOCK_VALID_SCRIPTS } }
    (data, if env.writeBlockIndex then .ok () else .error (.abort "Failed to write block index"))

/-- What `ConnectBlock` does to the coins, given `view`: `none` for undo data when the block is
the genesis block. -/
def connectView [Hashing] [ScriptEngine] [NodeConfig] (env : ConnectEnv) (b : CBlock)
    (pindex : CBlockIndex) (phashBlock : Option uint256) (view : CoinsView) (fJustCheck : Bool) :
    Check (CoinsView × Option CBlockUndo) := do
  b.checkBlock env.nAdjustedTime (!fJustCheck) (!fJustCheck)
  require (pindex.pprev == view.getBestBlock) .assertion
  if b.getHash == hashGenesisBlock then
    -- the coinbase of the genesis block is unspendable
    pure (view.setBestBlock (some pindex), none)
  else do
    let (view, blockundo) ← connectCoins b pindex phashBlock view
    pure (view, some blockundo)

def connectBlock [Hashing] [ScriptEngine] [NodeConfig] (env : ConnectEnv) (b : CBlock)
    (pindex : CBlockIndex) (phashBlock : Option uint256) (data : BlockData) (view : CoinsView)
    (fJustCheck : Bool) : BlockData × Check CoinsView :=
  match connectView env b pindex phashBlock view fJustCheck with
  | .error e => (data, .error e)
  | .ok (view, none) => (data, .ok view)
  | .ok (view, some blockundo) =>
    if fJustCheck then (data, .ok view)
    else
      match writeUndoData env data blockundo with
      | (data, .error e) => (data, .error e)
      | (data, .ok ()) =>
        if NodeConfig.fTxIndex && !env.writeTxIndex then
          (data, .error (.abort "Failed to write transaction index"))
        else (data, .ok (view.setBestBlock (some pindex)))

/-- The undo record an entry has after the write: the first one it was ever given. -/
theorem writeUndoData_ok {env : ConnectEnv} {data data' : BlockData} {blockundo : CBlockUndo}
    {u : Unit} (h : writeUndoData env data blockundo = (data', .ok u)) :
    data'.nStatus.haveUndo = true ∧
      data'.undo = if data.nStatus.haveUndo then data.undo else some blockundo := by
  unfold writeUndoData at h
  split at h
  · rename_i hdone
    obtain ⟨rfl, -⟩ := Prod.mk.inj h
    rw [Bool.and_eq_true] at hdone
    simp [hdone.1]
  · split at h
    · cases (Prod.mk.inj h).2
    · split at h
      · cases (Prod.mk.inj h).2
      · obtain ⟨rfl, -⟩ := Prod.mk.inj h
        cases hu : data.nStatus.haveUndo <;> simp [hu]

/-- A successful `ConnectBlock` of a block other than the genesis block. -/
theorem connectBlock_ok [Hashing] [ScriptEngine] [NodeConfig] {env : ConnectEnv} {b : CBlock}
    {pindex : CBlockIndex} {phashBlock : Option uint256} {data data' : BlockData}
    {view view' : CoinsView} (hgenesis : b.getHash ≠ hashGenesisBlock)
    (h : connectBlock env b pindex phashBlock data view false = (data', .ok view')) :
    b.Checked ∧ pindex.pprev = view.getBestBlock ∧
      ∃ coins blockundo, connectCoins b pindex phashBlock view = .ok (coins, blockundo) ∧
        view' = coins.setBestBlock (some pindex) ∧ data'.nStatus.haveUndo = true ∧
        data'.undo = if data.nStatus.haveUndo then data.undo else some blockundo := by
  unfold connectBlock at h
  cases hview : connectView env b pindex phashBlock view false with
  | error e =>
    rw [hview] at h
    cases (Prod.mk.inj h).2
  | ok r =>
    obtain ⟨coins, undo⟩ := r
    have hv := hview
    simp only [connectView, bind_ok, require_ok] at hv
    obtain ⟨_, hcheck, _, htip, hv⟩ := hv
    rw [if_neg (by simpa using hgenesis)] at hv
    simp only [bind_ok, pure_ok, Prod.exists, Prod.mk.injEq] at hv
    obtain ⟨coins, blockundo, hcoins, rfl, rfl⟩ := hv
    rw [hview] at h
    dsimp only at h
    rw [if_neg Bool.false_ne_true] at h
    refine ⟨CBlock.checked_of_checkBlock hcheck, by simpa using htip, coins, blockundo, hcoins, ?_⟩
    split at h
    · cases (Prod.mk.inj h).2
    · rename_i data1 hwrite
      have hundo := writeUndoData_ok hwrite
      split at h
      · cases (Prod.mk.inj h).2
      · obtain ⟨rfl, h2⟩ := Prod.mk.inj h
        exact ⟨(Except.ok.inj h2).symm, hundo⟩

theorem connectBlock_ok_genesis [Hashing] [ScriptEngine] [NodeConfig] {env : ConnectEnv}
    {b : CBlock} {pindex : CBlockIndex} {phashBlock : Option uint256} {data data' : BlockData}
    {view view' : CoinsView} {fJustCheck : Bool} (hgenesis : b.getHash = hashGenesisBlock)
    (h : connectBlock env b pindex phashBlock data view fJustCheck = (data', .ok view')) :
    pindex.pprev = view.getBestBlock ∧ view' = view.setBestBlock (some pindex) := by
  unfold connectBlock at h
  cases hview : connectView env b pindex phashBlock view fJustCheck with
  | error e =>
    rw [hview] at h
    cases (Prod.mk.inj h).2
  | ok r =>
    have hv := hview
    simp only [connectView, bind_ok, require_ok] at hv
    obtain ⟨_, -, _, htip, hv⟩ := hv
    rw [if_pos (by simpa using hgenesis), pure_ok] at hv
    subst hv
    rw [hview] at h
    exact ⟨by simpa using htip, (Except.ok.inj (Prod.mk.inj h).2).symm⟩

theorem connectBlock_tip [Hashing] [ScriptEngine] [NodeConfig] {env : ConnectEnv} {b : CBlock}
    {pindex : CBlockIndex} {phashBlock : Option uint256} {data data' : BlockData}
    {view view' : CoinsView}
    (h : connectBlock env b pindex phashBlock data view false = (data', .ok view')) :
    pindex.pprev = view.getBestBlock ∧ view'.getBestBlock = some pindex := by
  by_cases hgenesis : b.getHash = hashGenesisBlock
  · obtain ⟨hprev, rfl⟩ := connectBlock_ok_genesis hgenesis h
    exact ⟨hprev, rfl⟩
  · obtain ⟨-, hprev, coins, -, -, rfl, -⟩ := connectBlock_ok hgenesis h
    exact ⟨hprev, rfl⟩

theorem writeUndoData_failed (env : ConnectEnv) (data : BlockData) (blockundo : CBlockUndo) :
    (writeUndoData env data blockundo).1.nStatus.failedValid = data.nStatus.failedValid ∧
      (writeUndoData env data blockundo).1.nStatus.failedChild = data.nStatus.failedChild := by
  unfold writeUndoData
  split
  · exact ⟨rfl, rfl⟩
  · split
    · exact ⟨rfl, rfl⟩
    · split
      · exact ⟨rfl, rfl⟩
      · cases data.nStatus.haveUndo <;> exact ⟨rfl, rfl⟩

/-- `ConnectBlock` never marks its own entry as failed. -/
theorem connectBlock_failed [Hashing] [ScriptEngine] [NodeConfig] (env : ConnectEnv) (b : CBlock)
    (pindex : CBlockIndex) (phashBlock : Option uint256) (data : BlockData) (view : CoinsView)
    (fJustCheck : Bool) :
    let data' := (connectBlock env b pindex phashBlock data view fJustCheck).1
    data'.nStatus.failedValid = data.nStatus.failedValid ∧
      data'.nStatus.failedChild = data.nStatus.failedChild := by
  dsimp only
  unfold connectBlock
  split
  · exact ⟨rfl, rfl⟩
  · exact ⟨rfl, rfl⟩
  · rename_i blockundo _
    have hwrite := writeUndoData_failed env data blockundo
    split
    · exact ⟨rfl, rfl⟩
    · split
      · rename_i heq
        rwa [heq] at hwrite
      · rename_i heq
        rw [heq] at hwrite
        split <;> exact hwrite

/-- The undo record of an entry after `ConnectBlock`, successful or not: the one it had before, or
the one of a run that got as far as writing it. -/
theorem connectBlock_data [Hashing] [ScriptEngine] [NodeConfig] {env : ConnectEnv} {b : CBlock}
    {pindex : CBlockIndex} {phashBlock : Option uint256} {data : BlockData} {view : CoinsView}
    (hundo : (connectBlock env b pindex phashBlock data view false).1.nStatus.haveUndo = true) :
    (data.nStatus.haveUndo = true ∧
      (connectBlock env b pindex phashBlock data view false).1.undo = data.undo) ∨
    (b.getHash ≠ hashGenesisBlock ∧ b.Checked ∧ pindex.pprev = view.getBestBlock ∧
      ∃ coins blockundo, connectCoins b pindex phashBlock view = .ok (coins, blockundo) ∧
        (connectBlock env b pindex phashBlock data view false).1.undo = some blockundo) := by
  unfold connectBlock at hundo ⊢
  cases hview : connectView env b pindex phashBlock view false with
  | error e =>
    rw [hview] at hundo
    exact .inl ⟨hundo, rfl⟩
  | ok r =>
    obtain ⟨coins, undo⟩ := r
    rw [hview] at hundo
    cases undo with
    | none => exact .inl ⟨hundo, rfl⟩
    | some blockundo =>
      have hrun : b.getHash ≠ hashGenesisBlock ∧ b.Checked ∧ pindex.pprev = view.getBestBlock ∧
          connectCoins b pindex phashBlock view = .ok (coins, blockundo) := by
        simp only [connectView, bind_ok, require_ok] at hview
        obtain ⟨_, hcheck, _, htip, hv⟩ := hview
        split at hv
        · cases hv
        · rename_i hgenesis
          simp only [bind_ok, pure_ok, Prod.exists, Prod.mk.injEq, Option.some.injEq] at hv
          obtain ⟨coins, blockundo, hcoins, rfl, rfl⟩ := hv
          exact ⟨by simpa using hgenesis, CBlock.checked_of_checkBlock hcheck, by simpa using htip,
            hcoins⟩
      obtain ⟨hgenesis, hb, htip, hcoins⟩ := hrun
      have hwrite : (writeUndoData env data blockundo).1.nStatus.haveUndo = true →
          (data.nStatus.haveUndo = true ∧ (writeUndoData env data blockundo).1.undo = data.undo) ∨
            (writeUndoData env data blockundo).1.undo = some blockundo := by
        unfold writeUndoData
        split
        · rename_i hdone
          rw [Bool.and_eq_true] at hdone
          exact fun _ => .inl ⟨hdone.1, rfl⟩
        · split
          · exact fun h => .inl ⟨h, rfl⟩
          · split
            · exact fun h => .inl ⟨h, rfl⟩
            · cases hu : data.nStatus.haveUndo with
              | true => exact fun _ => .inl ⟨rfl, by simp⟩
              | false => exact fun _ => .inr (by simp)
      have hfirst : ∀ r, writeUndoData env data blockundo = r →
          (match r with
            | (data, .error e) => (data, .error e)
            | (data, .ok ()) =>
              if NodeConfig.fTxIndex && !env.writeTxIndex then
                (data, .error (.abort "Failed to write transaction index"))
              else (data, .ok (coins.setBestBlock (some pindex))) : BlockData × Check CoinsView).1 =
            r.1 := by
        rintro ⟨data1, e | u⟩ -
        · rfl
        · dsimp only
          split <;> rfl
      dsimp only at hundo ⊢
      rw [if_neg Bool.false_ne_true, hfirst _ rfl] at hundo
      rw [if_neg Bool.false_ne_true, hfirst _ rfl]
      rcases hwrite hundo with h | h
      · exact .inl h
      · exact .inr ⟨hgenesis, hb, htip, coins, blockundo, hcoins, h⟩

namespace Sample

scoped instance scripts : ScriptEngine where
  verifyScript _ _ _ _ _ _ := true
  isStandardScript _ := true
  isStandardInput _ _ _ := true

scoped instance config : NodeConfig where
  fTestNet := true
  nTotalBlocksEstimate := 0
  fScriptCheckThreads := false
  fTxIndex := false

def coinbase (nId : UInt32) (nValue : Int) : CTransaction :=
  ⟨1, [⟨COutPoint.null, [0, 0], 0⟩], [⟨nValue, []⟩], nId⟩

/-- A transaction spending the given outputs. -/
def spending (nId : UInt32) (prevouts : List (uint256 × UInt32)) (values : List Int) :
    CTransaction :=
  ⟨1, prevouts.map fun o => ⟨⟨o.1, o.2⟩, [], 0⟩, values.map fun v => ⟨v, []⟩, nId⟩

def block (nNonce : UInt32) (hashMerkleRoot : uint256) (vtx : List CTransaction) : CBlock :=
  ⟨header nNonce hashMerkleRoot, vtx⟩

def env : ConnectEnv := ⟨1000, true, true, true, true⟩

end Sample

end Terracoin
