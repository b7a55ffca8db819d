import Terracoin.Mempool.FlushedCoins
import Terracoin.Mining.BlockAssembly
import Terracoin.Script.Execution
import Terracoin.Script.Flags
import Terracoin.Validation.SigOps
import Terracoin.Validation.Supply

/-!
# The test of a template

`CreateNewBlock` ends with `ConnectBlock` of its own template. The loop of `ConnectBlock` follows the
selection: it starts with the coinbase, whose outputs no selected transaction refers to (`AgreeOff`),
and repeats the checks of the selection with its own flags. So the test can only fail in
`CheckBlock`, and there only for what the selection does not look at (`createNewBlock_spec`). What is
in a template is said by `createNewBlock_ok`.
-/

namespace Terracoin

open Checked

/-! ## Script flags -/

/-- What passes with the flags of the pool passes with those of a block, before and after the start
of pay-to-script-hash. -/
def BlockFlagsPass [ScriptEngine] : Prop :=
  ∀ (scriptSig scriptPubKey : CScript) (txTo : CTransaction) (nIn nHashType : Nat),
    ScriptEngine.verifyScript scriptSig scriptPubKey txTo nIn SCRIPT_VERIFY_P2SH nHashType = true →
    ∀ fStrictPayToScriptHash : Bool, ScriptEngine.verifyScript scriptSig scriptPubKey txTo nIn
      (SCRIPT_VERIFY_NOCACHE +
        if fStrictPayToScriptHash then SCRIPT_VERIFY_P2SH else SCRIPT_VERIFY_NONE) nHashType = true

namespace CTransaction

variable {tx : CTransaction} {view : CoinsView} {nIn flags : Nat} {vin : List CTxIn}
  {checks : List CScriptCheck}

theorem scriptChecks_flags (flags' : Nat) (h : scriptChecks tx view flags nIn vin = .ok checks) :
    scriptChecks tx view flags' nIn vin =
      .ok (checks.map fun check => { check with nFlags := flags' }) := by
  induction vin generalizing nIn checks with
  | nil =>
    obtain rfl := Except.ok.inj h
    rfl
  | cons txin vin ih =>
    simp only [scriptChecks, bind_ok, pure_ok] at h ⊢
    obtain ⟨coins, hcoins, txout, hout, rest, hrest, rfl⟩ := h
    exact ⟨coins, hcoins, txout, hout, _, ih hrest, rfl⟩

theorem nFlags_of_scriptChecks (h : scriptChecks tx view flags nIn vin = .ok checks) :
    ∀ check ∈ checks, check.nFlags = flags := by
  induction vin generalizing nIn checks with
  | nil =>
    obtain rfl := Except.ok.inj h
    exact fun _ hmem => absurd hmem List.not_mem_nil
  | cons txin vin ih =>
    simp only [scriptChecks, bind_ok, pure_ok] at h
    obtain ⟨coins, -, txout, -, rest, hrest, rfl⟩ := h
    exact List.forall_mem_cons.mpr ⟨rfl, ih hrest⟩

variable [ScriptEngine]

theorem run_blockFlags (hflags : BlockFlagsPass) {check : CScriptCheck}
    (hcheck : check.nFlags = SCRIPT_VERIFY_P2SH) (h : check.run = true) (fStrict : Bool) :
    CScriptCheck.run { check with nFlags := SCRIPT_VERIFY_NOCACHE +
      if fStrict then SCRIPT_VERIFY_P2SH else SCRIPT_VERIFY_NONE } = true := by
  unfold CScriptCheck.run at h ⊢
  dsimp only
  cases htxin : check.txTo.vin[check.nIn]? with
  | none =>
    rw [htxin] at h
    cases h
  | some txin =>
    rw [htxin, hcheck] at h
    exact hflags _ _ _ _ _ h fStrict

/-- Inputs that pass the selection pass `ConnectBlock`, whether it makes the script checks itself,
leaves them to the queue, or leaves them out. -/
theorem checkInputs_blockFlags (hflags : BlockFlagsPass)
    (h : tx.checkInputs view true SCRIPT_VERIFY_P2SH false = .ok checks)
    (fScriptChecks fStrict fQueue : Bool) :
    ∃ checks', tx.checkInputs view fScriptChecks (SCRIPT_VERIFY_NOCACHE +
        if fStrict then SCRIPT_VERIFY_P2SH else SCRIPT_VERIFY_NONE) fQueue = .ok checks' ∧
      checks'.all CScriptCheck.run = true := by
  unfold checkInputs at h ⊢
  by_cases hcb : tx.isCoinBase = true
  · rw [if_pos hcb]
    exact ⟨[], rfl, rfl⟩
  · rw [if_neg hcb] at h ⊢
    simp only [bind_ok, if_true, require_ok] at h
    obtain ⟨_, h1, _, h2, _, h3, _, h4, _, h5, _, h6, _, h7, _, h8, all, hall, h⟩ := h
    simp only [Bool.false_eq_true, if_false, bind_ok, require_ok] at h
    obtain ⟨_, hrun, -⟩ := h
    rw [List.all_eq_true] at hrun
    have hall' := scriptChecks_flags (SCRIPT_VERIFY_NOCACHE +
      if fStrict then SCRIPT_VERIFY_P2SH else SCRIPT_VERIFY_NONE) hall
    have hrun' : (all.map fun check => { check with nFlags := SCRIPT_VERIFY_NOCACHE +
        if fStrict then SCRIPT_VERIFY_P2SH else SCRIPT_VERIFY_NONE }).all CScriptCheck.run =
        true := by
      rw [List.all_eq_true]
      intro check hmem
      obtain ⟨check0, hmem0, rfl⟩ := List.mem_map.mp hmem
      exact run_blockFlags hflags (nFlags_of_scriptChecks hall check0 hmem0) (hrun check0 hmem0)
        fStrict
    simp only [bind_ok, require_ok]
    cases fScriptChecks with
    | false => exact ⟨[], ⟨(), h1, _, h2, _, h3, _, h4, (), h5, _, h6, (), h7, (), h8, rfl⟩, rfl⟩
    | true =>
      cases fQueue with
      | true => exact ⟨_, ⟨(), h1, _, h2, _, h3, _, h4, (), h5, _, h6, (), h7, (), h8, by
          rw [if_pos rfl, hall']
          rfl⟩, hrun'⟩
      | false => exact ⟨[], ⟨(), h1, _, h2, _, h3, _, h4, (), h5, _, h6, (), h7, (), h8, by
          rw [if_pos rfl, hall']
          simp only [bind_ok, Bool.false_eq_true, if_false, require_ok]
          exact ⟨_, rfl, (), hrun', rfl⟩⟩, rfl⟩

end CTransaction

/-- The interpreter is one of these, for a `CheckSig` that takes no notice of the flags of the pool
and of a block: their only bits are for pay-to-script-hash and the cache. -/
theorem blockFlagsPass_interpreter [ScriptHashing] [ByteHashing] [ByteHashing160]
    (checkSig : CTransaction → Nat → Nat → valtype → valtype → CScript → Bool)
    (isStandardScript : CScript → Bool) (isStandardInput : CTransaction → Nat → CTxOut → Bool) :
    @BlockFlagsPass (interpreter (fun tx nIn nHashType _ => checkSig tx nIn nHashType)
      isStandardScript isStandardInput) := by
  intro scriptSig scriptPubKey txTo nIn nHashType h fStrict
  refine verifyScript_isOk_mono ?_ (fun _ => rfl) h
  cases fStrict with
  | false => rfl
  | true => rfl

/-! ## The coinbase comes first -/

/-- Views with the same entries, apart from that of one transaction. -/
structure CoinsView.AgreeOff (c : uint256) (v w : CoinsView) : Prop where
  coins : ∀ txid, txid ≠ c → v.coins txid = w.coins txid
  pindexTip : v.pindexTip = w.pindexTip

/-- The transaction has another hash, and so have those that it spends outputs of. -/
structure CTransaction.Apart [Hashing] (c : uint256) (tx : CTransaction) : Prop where
  hash : tx.getHash ≠ c
  prevouts : ∀ txin ∈ tx.vin, txin.prevout.hash ≠ c

namespace CoinsView.AgreeOff

variable {c : uint256} {v w v' : CoinsView} {vin : List CTxIn} {tx : CTransaction}

theorem sameInputs (h : AgreeOff c v w) (hvin : ∀ txin ∈ vin, txin.prevout.hash ≠ c) :
    CTransaction.SameInputs v w vin where
  coins txin hmem := h.coins _ (hvin txin hmem)
  pindexTip := h.pindexTip

theorem setCoins (h : AgreeOff c v w) (txid : uint256) (coins : CCoins) :
    AgreeOff c (v.setCoins txid coins) (w.setCoins txid coins) where
  coins txid' hne := by
    show Function.update v.coins txid _ txid' = Function.update w.coins txid _ txid'
    by_cases heq : txid' = txid
    · rw [heq, Function.update_self, Function.update_self]
    · rw [Function.update_of_ne heq, Function.update_of_ne heq]
      exact h.coins txid' hne
  pindexTip := h.pindexTip

theorem setCoins_right (v : CoinsView) (c : uint256) (coins : CCoins) :
    AgreeOff c v (v.setCoins c coins) where
  coins _ hne := (Function.update_of_ne hne _ _).symm
  pindexTip := rfl

theorem applyAll_spendInput {undos : List CTxInUndo} (h : AgreeOff c v w)
    (hvin : ∀ txin ∈ vin, txin.prevout.hash ≠ c)
    (hspend : UndoLog.applyAll CTransaction.spendInput v vin = .ok (v', undos)) :
    ∃ w', UndoLog.applyAll CTransaction.spendInput w vin = .ok (w', undos) ∧ AgreeOff c v' w' := by
  induction vin generalizing v w undos with
  | nil =>
    obtain ⟨rfl, rfl⟩ := Prod.mk.inj (UndoLog.applyAll_nil.mp hspend)
    exact ⟨w, rfl, h⟩
  | cons txin vin ih =>
    obtain ⟨v1, undo, undos', h1, h2, rfl⟩ := UndoLog.applyAll_cons.mp hspend
    obtain ⟨coins, hcoins, rfl⟩ := CTransaction.spendInput_ok.mp h1
    have hsame : v.coinsAt txin.prevout.hash = w.coinsAt txin.prevout.hash := by
      rw [CoinsView.coinsAt, CoinsView.coinsAt, h.coins _ (hvin txin List.mem_cons_self)]
    obtain ⟨w', hw', hagree⟩ := ih (h.setCoins txin.prevout.hash coins)
      (fun t ht => hvin t (List.mem_cons_of_mem _ ht)) h2
    refine ⟨w', UndoLog.applyAll_cons.mpr ⟨_, undo, undos', ?_, hw', rfl⟩, hagree⟩
    exact CTransaction.spendInput_ok.mpr ⟨coins, hsame ▸ hcoins, rfl⟩

theorem updateCoins {nHeight : Int} {txhash : uint256} {undo : CTxUndo} (h : AgreeOff c v w)
    (hvin : ∀ txin ∈ tx.vin, txin.prevout.hash ≠ c)
    (hupdate : tx.updateCoins v nHeight txhash = .ok (v', undo)) :
    ∃ w', tx.updateCoins w nHeight txhash = .ok (w', undo) ∧ AgreeOff c v' w' := by
  obtain ⟨v1, hspend, rfl⟩ := CTransaction.updateCoins_ok.mp hupdate
  have hw : ∃ w1, tx.spendInputs w = .ok (w1, undo.vprevout) ∧ AgreeOff c v1 w1 := by
    unfold CTransaction.spendInputs at hspend ⊢
    split
    · rename_i hcb
      rw [if_pos hcb] at hspend
      obtain ⟨rfl, hundo⟩ := Prod.mk.inj (Except.ok.inj hspend)
      exact ⟨w, by rw [← hundo], h⟩
    · rename_i hcb
      rw [if_neg hcb] at hspend
      exact h.applyAll_spendInput hvin hspend
  obtain ⟨w1, hw1, hagree⟩ := hw
  exact ⟨_, CTransaction.updateCoins_ok.mpr ⟨w1, hw1, rfl⟩, hagree.setCoins _ _⟩

end CoinsView.AgreeOff

theorem CTransaction.SameInputs.p2shSigOps {v w : CoinsView} {vin : List CTxIn}
    (h : CTransaction.SameInputs v w vin) :
    CTransaction.p2shSigOps v vin = CTransaction.p2shSigOps w vin := by
  induction vin with
  | nil => rfl
  | cons txin vin ih =>
    unfold CTransaction.p2shSigOps
    rw [h.getOutputFor, ih h.tail]

section Connect

variable [Hashing] [ScriptEngine] {c : uint256} {nHeight : Int} {view view' : CoinsView} {n : Nat}
  {tx : CTransaction} {nTxFees : Int} {nTxSigOps : Nat} {cst : ConnectState}

/-- The state of the loop next to the selection: the same coins but for the coinbase, the same fees,
no more signature operations, and only script checks that pass. -/
structure ConnectState.Follows (c : uint256) (view : CoinsView) (nFees : Int) (nSigOps : Nat)
    (cst : ConnectState) : Prop where
  view : CoinsView.AgreeOff c view cst.view
  nFees : cst.nFees = nFees
  nSigOps : cst.nSigOps ≤ nSigOps
  vChecks : cst.vChecks.all CScriptCheck.run = true

/-- A selected transaction is connected. -/
theorem ConnectState.Follows.connectTransaction (hflags : BlockFlagsPass)
    {nFees : Int} (h : cst.Follows c view nFees n)
    (hadmitted : Admitted nHeight view n tx view' nTxFees nTxSigOps) (hcb : tx.isCoinBase = false)
    (hrange : Int64Range (nFees + nTxFees)) (hapart : tx.Apart c)
    (fQueue fScriptChecks fStrict : Bool) :
    ∃ cst' txundo, Terracoin.connectTransaction
        (connectParams fQueue fScriptChecks fStrict nHeight) cst tx = .ok (cst', txundo) ∧
      cst'.Follows c view' (nFees + nTxFees) (n + nTxSigOps) := by
  have hsame := h.view.sameInputs hapart.prevouts
  obtain ⟨p, hp, rfl⟩ := hadmitted.sigOps
  obtain ⟨vin, vout, hvin, hvout, rfl, hfee⟩ := hadmitted.fee
  obtain ⟨checks, hchecks⟩ := hadmitted.checkInputs
  obtain ⟨undo, hupdate⟩ := hadmitted.updateCoins
  obtain ⟨checks', hchecks', hrun⟩ :=
    CTransaction.checkInputs_blockFlags hflags hchecks fScriptChecks fStrict fQueue
  obtain ⟨w', hw', hagree⟩ := h.view.updateCoins hapart.prevouts hupdate
  have hlimit := hadmitted.sigOps_lt
  have hsigops := h.nSigOps
  have hp2sh : ∃ q ≤ p, cond fStrict (tx.getP2SHSigOpCount cst.view) (.ok 0) =
      (.ok q : Check Nat) := by
    cases fStrict with
    | false => exact ⟨0, Nat.zero_le _, rfl⟩
    | true =>
      refine ⟨p, Nat.le_refl _, ?_⟩
      rw [CTransaction.getP2SHSigOpCount, ← hsame.p2shSigOps]
      exact hp
  obtain ⟨q, hq, hcond⟩ := hp2sh
  have hvin' : tx.getValueIn cst.view = .ok vin := by
    rw [CTransaction.getValueIn, ← hsame.valueInFrom]
    exact hvin
  have hconnect : checkConnect (connectParams fQueue fScriptChecks fStrict nHeight) cst tx =
      .ok { cst with
        nFees := cst.nFees + (vin + -vout)
        nSigOps := cst.nSigOps + tx.getLegacySigOpCount + q
        vChecks := cst.vChecks ++ checks' } := by
    simp only [checkConnect, hcb, Bool.false_eq_true, if_false, connectInputs, bind_ok, require_ok,
      decide_eq_true_eq, pure_ok, add64_ok]
    refine ⟨(), by omega, (), hsame.haveInputs ▸ hadmitted.haveInputs, q, hcond, (), by omega, vin,
      hvin', vout, hvout, _, ⟨rfl, hfee⟩, _, ⟨rfl, h.nFees ▸ hrange⟩, checks', ?_, rfl⟩
    rw [← hsame.checkInputs]
    exact hchecks'
  refine ⟨{ cst with
    view := w'
    nFees := cst.nFees + (vin + -vout)
    nSigOps := cst.nSigOps + tx.getLegacySigOpCount + q
    vChecks := cst.vChecks ++ checks' }, some undo, ?_, hagree, ?_, ?_, ?_⟩
  · simp only [Terracoin.connectTransaction, bind_ok, pure_ok, Prod.exists]
    refine ⟨_, hconnect, w', some undo, ?_, rfl⟩
    exact applyTransaction_ok.mpr ⟨undo, hw', by simp [hcb]⟩
  · show cst.nFees + (vin + -vout) = _
    rw [h.nFees]
  · show cst.nSigOps + tx.getLegacySigOpCount + q ≤ _
    omega
  · show (cst.vChecks ++ checks').all _ = true
    rw [List.all_append, h.vChecks, hrun]
    rfl

theorem ConnectState.Follows.connectTransactions (hflags : BlockFlagsPass) {vtx : List CTransaction}
    {vTxFees : List Int} {vTxSigOps : List Nat} (h : cst.Follows c view 0 n)
    (hadmitted : AdmittedAll nHeight view n vtx view' vTxFees vTxSigOps)
    (hapart : ∀ tx ∈ vtx, tx.Apart c) (fQueue fScriptChecks fStrict : Bool) :
    ∃ cst' undos, Terracoin.connectTransactions
        (connectParams fQueue fScriptChecks fStrict nHeight) cst vtx = .ok (cst', undos) ∧
      cst'.Follows c view' vTxFees.sum (n + vTxSigOps.sum) := by
  induction hadmitted with
  | nil => exact ⟨cst, [], rfl, h⟩
  | @concat vtx view1 view2 vTxFees vTxSigOps tx nTxFees nTxSigOps init last notCoinBase range ih =>
    obtain ⟨cst1, undos, hconnect, hfollows⟩ :=
      ih fun t ht => hapart t (List.mem_append_left _ ht)
    obtain ⟨cst2, txundo, hstep, hfollows'⟩ := hfollows.connectTransaction hflags last notCoinBase
      range (hapart tx (by simp)) fQueue fScriptChecks fStrict
    refine ⟨cst2, undos ++ [txundo], UndoLog.applyAll_concat hconnect hstep, ?_⟩
    rw [List.sum_append, List.sum_append, List.sum_singleton, List.sum_singleton, ← Nat.add_assoc]
    exact hfollows'

end Connect

/-! ## The coinbase -/

section Coinbase

variable {vchPubKey : List UInt8} {nValue : Int}

theorem getSigOpCount_payToPubKey (h : vchPubKey.length < 2 ^ 32) :
    CScript.getSigOpCount (CScript.push vchPubKey ++ [CScript.OP_CHECKSIG]) false = 1 := by
  have hreads := (CScript.Reads.push h [CScript.OP_CHECKSIG]).append
    (CScript.Reads.single (by decide) [])
  have hle := UInt8.le_iff_toNat_le.mp (CScript.pushOpcode_le vchPubKey)
  rw [CScript.getSigOpCount, hreads.ops_eq]
  have hne : ∀ op : UInt8, CScript.OP_PUSHDATA4.toNat < op.toNat →
      CScript.pushOpcode vchPubKey ≠ op := by
    intro op hlt heq
    rw [heq] at hle
    omega
  simp only [List.cons_append, List.nil_append, CScript.sigOpsFrom]
  rw [if_neg (not_or.mpr ⟨hne _ (by decide), hne _ (by decide)⟩),
    if_neg (not_or.mpr ⟨hne _ (by decide), hne _ (by decide)⟩), if_pos (.inl trivial)]

theorem getLegacySigOpCount_coinbaseTx (h : vchPubKey.length < 2 ^ 32) :
    (coinbaseTx vchPubKey [0, 0] nValue).getLegacySigOpCount = 1 := by
  have hsig : CScript.getSigOpCount [0, 0] false = 0 := by decide
  simp only [CTransaction.getLegacySigOpCount, coinbaseTx, List.map_cons, List.map_nil,
    List.sum_cons, List.sum_nil, hsig, getSigOpCount_payToPubKey h, Nat.zero_add, Nat.add_zero]

theorem getSerializeSize_coinbaseTx (h : vchPubKey.length ≤ 65) :
    (coinbaseTx vchPubKey [0, 0] nValue).getSerializeSize ≤ 133 := by
  have hlen := (CScript.length_push vchPubKey).2
  have hscript : (CScript.push vchPubKey ++ [CScript.OP_CHECKSIG]).length ≤ 71 := by
    rw [List.length_append, List.length_singleton]
    omega
  have hcompact : getSizeOfCompactSize (CScript.push vchPubKey ++ [CScript.OP_CHECKSIG]).length =
      1 := if_pos (by omega)
  simp only [CTransaction.getSerializeSize, coinbaseTx, vectorSize, List.map_cons, List.map_nil,
    List.sum_cons, List.sum_nil, CTxIn.getSerializeSize, CTxOut.getSerializeSize,
    CScript.getSerializeSize, hcompact, List.length_cons, List.length_nil]
  simp only [getSizeOfCompactSize]
  simp
  omega

theorem checkTransaction_coinbaseTx (h : vchPubKey.length ≤ 65)
    (hrange : moneyRange nValue = true) :
    (coinbaseTx vchPubKey [0, 0] nValue).checkTransaction = .ok () := by
  have hsize : (coinbaseTx vchPubKey [0, 0] nValue).getSerializeSize ≤ 133 :=
    getSerializeSize_coinbaseTx h
  have hvalue := moneyRange_iff.mp hrange
  simp only [CTransaction.checkTransaction, bind_ok, require_ok, decide_eq_true_eq]
  refine ⟨(), rfl, (), rfl, (), by unfold maxBlockSize; omega, (), ?_, (), by simp [coinbaseTx], ?_⟩
  · simp only [coinbaseTx, CTransaction.checkOutputs, bind_ok, require_ok, decide_eq_true_eq,
      Int.zero_add]
    exact ⟨(), hvalue.1, (), hvalue.2, (), hrange, trivial⟩
  · rfl

theorem connectTransaction_coinbaseTx [Hashing] [ScriptEngine] (params : ConnectParams)
    (view : CoinsView) (nValue : Int) (h : vchPubKey.length < 2 ^ 32) :
    connectTransaction params ⟨view, 0, 0, []⟩ (coinbaseTx vchPubKey [0, 0] nValue) =
      .ok (⟨view.setCoins (coinbaseTx vchPubKey [0, 0] nValue).getHash
        (CCoins.ofTx (coinbaseTx vchPubKey [0, 0] nValue) params.nHeight), 0, 1, []⟩, none) := by
  have hcheck : checkConnect params ⟨view, 0, 0, []⟩ (coinbaseTx vchPubKey [0, 0] nValue) =
      .ok ⟨view, 0, 1, []⟩ := by
    simp only [checkConnect, getLegacySigOpCount_coinbaseTx h, bind_ok, require_ok]
    exact ⟨(), rfl, rfl⟩
  have happly : applyTransaction params.nHeight view (coinbaseTx vchPubKey [0, 0] nValue) =
      .ok (view.setCoins (coinbaseTx vchPubKey [0, 0] nValue).getHash
        (CCoins.ofTx (coinbaseTx vchPubKey [0, 0] nValue) params.nHeight), none) :=
    applyTransaction_ok.mpr ⟨⟨[]⟩, CTransaction.updateCoins_ok.mpr ⟨view, rfl, rfl⟩, rfl⟩
  simp only [connectTransaction, bind_ok, pure_ok, Prod.exists]
  exact ⟨_, hcheck, _, _, happly, rfl⟩

end Coinbase

/-! ## The test -/

/-- What the node keeps of pool, coins and tip: the pool is indexed by hash, its transactions have
passed `CheckTransaction` and are not among the coins; the coins are those at the tip, and worth no
more than has been mined. -/
structure MinerInput.Fits [Hashing] (input : MinerInput) : Prop where
  indexed : input.pool.Indexed
  checked : ∀ hash tx, input.pool.mapTx hash = some tx → tx.checkTransaction = .ok ()
  unrecorded : ∀ hash tx, input.pool.mapTx hash = some tx →
    (input.coinsTip.coinsAt hash).isPruned = true
  pindexTip : input.coinsTip.getBestBlock = some input.pindexPrev
  nonNeg : input.coinsTip.NonNeg
  total_le : input.coinsTip.total ≤ subsidies input.pindexPrev.nHeight

/-- The hash of the coinbase is new: no transaction of the pool has it or spends from it, and no
coins are left under it. -/
structure MinerInput.NewHash [Hashing] (input : MinerInput) (c : uint256) : Prop where
  apart : ∀ hash tx, input.pool.mapTx hash = some tx → tx.Apart c
  unrecorded : (input.coinsTip.coinsAt c).isPruned = true

theorem connectBlock_justCheck [Hashing] [ScriptEngine] [NodeConfig] (env : ConnectEnv) (b : CBlock)
    (pindex : CBlockIndex) (phashBlock : Option uint256) (data : BlockData) (view : CoinsView) :
    (connectBlock env b pindex phashBlock data view true).2 =
      (connectView env b pindex phashBlock view true).map Prod.fst := by
  unfold connectBlock
  cases connectView env b pindex phashBlock view true with
  | error e => rfl
  | ok r =>
    obtain ⟨view', undo⟩ := r
    cases undo with
    | none => rfl
    | some blockundo => rfl

section Test

variable [Hashing] [ScriptEngine] [NodeConfig] [FloatArithmetic] [PriorityArithmetic] [HeapAlgorithms]
  {input : MinerInput} {clock : MinerClock} {limits : BlockLimits} {hashes : List uint256}
  {st : Assembly} {vchPubKey : List UInt8} {pblocktemplate : CBlockTemplate}

omit [ScriptEngine] [HeapAlgorithms] in
theorem fillTemplate_ok (h : fillTemplate input clock vchPubKey st = .ok pblocktemplate) :
    ∃ nValue header, getBlockValue (input.pindexPrev.nHeight + 1) st.nFees = .ok nValue ∧
      pblocktemplate.block = ⟨header, coinbaseTx vchPubKey [0, 0] nValue :: st.vtx⟩ ∧
      pblocktemplate.vTxFees = -st.nFees :: st.vTxFees ∧
      pblocktemplate.vTxSigOps =
        ((coinbaseTx vchPubKey [0, 0] nValue).getLegacySigOpCount : Int) ::
          st.vTxSigOps.map Nat.cast ∧
      header.nTime = input.pindexPrev.nextTime clock.nUpdate := by
  simp only [fillTemplate, bind_ok, get_ok, pure_ok] at h
  obtain ⟨nValue, hvalue, header, hheader, rfl⟩ := h
  obtain ⟨b, hb, hat⟩ := @CBlockHeader.fillIn_templateAt _ _ input.pindexPrev CBlockHeader.null
    clock.nUpdate _
  obtain rfl := Option.some.inj (hheader.symm.trans hb)
  exact ⟨nValue, header, hvalue, rfl, rfl, rfl, hat.nTime⟩

omit [NodeConfig] [FloatArithmetic] in
/-- The value of the coinbase is in range: no more is paid in fees than there is. -/
theorem Assembly.Selects.moneyRange {nValue : Int} (h : st.Selects input clock limits hashes)
    (hfits : input.Fits)
    (hvalue : getBlockValue (input.pindexPrev.nHeight + 1) st.nFees = .ok nValue) :
    Terracoin.moneyRange nValue = true := by
  have hchecked : ∀ tx ∈ st.vtx, tx.Checked := fun tx hmem =>
    CTransaction.checked_of_checkTransaction (hfits.checked _ _ (h.fromPool tx hmem).1)
  obtain ⟨undos, happlied, hfees⟩ := h.assembled.admitted.applied
  obtain ⟨hnonneg, htotal⟩ := total_applyTransactions hfits.nonNeg hchecked happlied
  have hzero : (st.vtx.map coinbaseValue).sum = 0 := by
    apply List.sum_eq_zero
    intro v hv
    obtain ⟨tx, hmem, rfl⟩ := List.mem_map.mp hv
    rw [coinbaseValue, h.assembled.admitted.notCoinBase tx hmem]
    rfl
  have h0 : 0 ≤ st.nFees := by
    rw [h.assembled.nFees]
    exact List.sum_nonneg fun fee hmem => (h.assembled.admitted.fees fee hmem).1
  have hle : st.nFees ≤ subsidies input.pindexPrev.nHeight := by
    have hsum : st.nFees = feesOf st.vtx undos := by rw [h.assembled.nFees, hfees, feesOf]
    have hpos := hnonneg.total
    have hworth := hfits.total_le
    omega
  have hsub := getBlockSubsidy_nonneg (input.pindexPrev.nHeight + 1)
  have hmax := subsidies_le (input.pindexPrev.nHeight + 1)
  rw [subsidies_succ] at hmax
  rw [moneyRange_iff, getBlockValue_ok hvalue]
  omega

omit [NodeConfig] [FloatArithmetic] in
/-- The 1000 bytes set aside for the header and the coinbase are enough. -/
theorem Assembly.Selects.getSerializeSize_le {header : CBlockHeader} {nValue : Int}
    (h : st.Selects input clock limits hashes) (hlen : vchPubKey.length ≤ 65)
    (hmax : 1000 ≤ limits.nBlockMaxSize) :
    CBlock.getSerializeSize ⟨header, coinbaseTx vchPubKey [0, 0] nValue :: st.vtx⟩ ≤
      limits.nBlockMaxSize := by
  have hcoinbase : (coinbaseTx vchPubKey [0, 0] nValue).getSerializeSize ≤ 133 :=
    getSerializeSize_coinbaseTx hlen
  have hcompact : getSizeOfCompactSize (st.vtx.length + 1) ≤ 9 := by
    unfold getSizeOfCompactSize
    split_ifs <;> omega
  simp only [CBlock.getSerializeSize, vectorSize, List.length_cons, List.map_cons, List.sum_cons]
  by_cases hempty : st.vtx = []
  · rw [hempty] at hcompact ⊢
    simp only [List.map_nil, List.sum_nil]
    omega
  · have hsize := h.assembled.size_lt hempty
    rw [h.assembled.nBlockSize] at hsize
    omega

omit [NodeConfig] [FloatArithmetic] in
theorem Assembly.Selects.sigOps_le (h : st.Selects input clock limits hashes) :
    (st.vtx.map CTransaction.getLegacySigOpCount).sum + 100 < maxBlockSigOps := by
  have hsum : ∀ {vtx : List CTransaction} {sigOps : List Nat},
      List.Forall₂ (fun tx n => CTransaction.getLegacySigOpCount tx ≤ n) vtx sigOps →
      (vtx.map CTransaction.getLegacySigOpCount).sum ≤ sigOps.sum := by
    intro vtx sigOps hall
    induction hall with
    | nil => exact Nat.le_refl _
    | cons hle _ ih =>
      rw [List.map_cons, List.sum_cons, List.sum_cons]
      omega
  have hle := hsum h.assembled.admitted.sigOps
  have hlt := h.assembled.sigOps_lt
  rw [h.assembled.nBlockSigOps] at hlt
  omega

/-- What is left of `CheckBlock` for a template: the number of transactions it refers to, and the
clock. -/
structure CBlock.InTime (b : CBlock) (nAdjustedTime : Int) : Prop where
  maxlocks : ¬(1363867200 ≤ b.getBlockTime ∧ b.getBlockTime < 1368576000 ∧
    4500 < b.referencedTxids.length)
  time : b.getBlockTime ≤ nAdjustedTime + 15 * 60

instance CBlock.decidableInTime (b : CBlock) (nAdjustedTime : Int) :
    Decidable (b.InTime nAdjustedTime) :=
  decidable_of_iff (¬(1363867200 ≤ b.getBlockTime ∧ b.getBlockTime < 1368576000 ∧
    4500 < b.referencedTxids.length) ∧ b.getBlockTime ≤ nAdjustedTime + 15 * 60)
    ⟨fun h => ⟨h.1, h.2⟩, fun h => ⟨h.maxlocks, h.time⟩⟩

omit [ScriptEngine] [NodeConfig] [FloatArithmetic] [PriorityArithmetic] [HeapAlgorithms] in
theorem CBlock.maxlocks_iff (b : CBlock) :
    (!(decide (1363867200 ≤ b.getBlockTime) && decide (b.getBlockTime < 1368576000) &&
      decide (4500 < b.referencedTxids.length))) = true ↔
    ¬(1363867200 ≤ b.getBlockTime ∧ b.getBlockTime < 1368576000 ∧
      4500 < b.referencedTxids.length) := by
  rw [Bool.not_eq_true', ← Bool.not_eq_true, Bool.and_eq_true, Bool.and_eq_true, decide_eq_true_eq,
    decide_eq_true_eq, decide_eq_true_eq, and_assoc]

omit [NodeConfig] [FloatArithmetic] in
theorem Assembly.Selects.sizeLimits {header : CBlockHeader} {nValue : Int}
    (h : st.Selects input clock limits hashes) (hlen : vchPubKey.length ≤ 65)
    (hlimits : 1000 ≤ limits.nBlockMaxSize ∧ limits.nBlockMaxSize ≤ maxBlockSize - 1000) :
    (coinbaseTx vchPubKey [0, 0] nValue :: st.vtx).length ≤ maxBlockSize ∧
      CBlock.getSerializeSize ⟨header, coinbaseTx vchPubKey [0, 0] nValue :: st.vtx⟩ ≤
        maxBlockSize := by
  have hsize : CBlock.getSerializeSize ⟨header, coinbaseTx vchPubKey [0, 0] nValue :: st.vtx⟩ ≤ _ :=
    h.getSerializeSize_le hlen hlimits.1
  have hlength : (coinbaseTx vchPubKey [0, 0] nValue :: st.vtx).length ≤
      CBlock.getSerializeSize ⟨header, coinbaseTx vchPubKey [0, 0] nValue :: st.vtx⟩ := by
    refine Nat.le_trans (length_le_vectorSize CTransaction.getSerializeSize fun tx _ => ?_)
      (Nat.le_add_left _ _)
    unfold CTransaction.getSerializeSize
    omega
  have hbound : maxBlockSize = 1000000 := rfl
  omega

omit [NodeConfig] [FloatArithmetic] in
theorem Assembly.Selects.checkBlock_iff {header : CBlockHeader} {nValue nAdjustedTime : Int}
    (h : st.Selects input clock limits hashes) (hfits : input.Fits) (hlen : vchPubKey.length ≤ 65)
    (hlimits : 1000 ≤ limits.nBlockMaxSize ∧ limits.nBlockMaxSize ≤ maxBlockSize - 1000)
    (hvalue : getBlockValue (input.pindexPrev.nHeight + 1) st.nFees = .ok nValue)
    (hnew : input.NewHash (coinbaseTx vchPubKey [0, 0] nValue).getHash) :
    CBlock.checkBlock ⟨header, coinbaseTx vchPubKey [0, 0] nValue :: st.vtx⟩ nAdjustedTime false
        false = .ok () ↔
      CBlock.InTime ⟨header, coinbaseTx vchPubKey [0, 0] nValue :: st.vtx⟩ nAdjustedTime := by
  obtain ⟨hlength, hsize⟩ : _ ∧
      CBlock.getSerializeSize ⟨header, coinbaseTx vchPubKey [0, 0] nValue :: st.vtx⟩ ≤ _ :=
    h.sizeLimits hlen hlimits
  have hsigops := h.sigOps_le
  have hcoinbase : (coinbaseTx vchPubKey [0, 0] nValue).getLegacySigOpCount = 1 :=
    getLegacySigOpCount_coinbaseTx (by omega)
  simp only [CBlock.checkBlock, bind_ok, require_ok, decide_eq_true_eq]
  constructor
  · rintro ⟨_, -, _, hmaxlocks, _, -, _, htime, -⟩
    exact ⟨(CBlock.maxlocks_iff _).mp hmaxlocks, htime⟩
  · intro hin
    refine ⟨(), ?_, (), (CBlock.maxlocks_iff _).mpr hin.maxlocks, (), rfl, (), hin.time, (), rfl, (), ?_, (), ?_, (), ?_, (), ?_,
      rfl⟩
    · simp only [Bool.and_eq_true, decide_eq_true_eq, List.isEmpty_cons, Bool.not_false, true_and]
      exact ⟨hlength, hsize⟩
    · rw [List.tail_cons, List.all_eq_true]
      intro tx hmem
      rw [h.assembled.admitted.notCoinBase tx hmem]
      rfl
    · refine CBlock.checkTransactions_ok.mpr (List.forall_mem_cons.mpr ⟨?_, fun tx hmem => ?_⟩)
      · exact checkTransaction_coinbaseTx hlen (h.moneyRange hfits hvalue)
      · exact hfits.checked _ _ (h.fromPool tx hmem).1
    · rw [List.map_cons, List.nodup_cons]
      refine ⟨fun hmem => ?_, h.nodup⟩
      obtain ⟨tx, htx, heq⟩ := List.mem_map.mp hmem
      exact (hnew.apart _ _ (h.fromPool tx htx).1).hash heq
    · rw [List.map_cons, List.sum_cons, hcoinbase]
      omega

omit [FloatArithmetic] in
/-- The coins of the template connect: the coinbase, and after it what has been selected. -/
theorem Assembly.Selects.connectCoins_ok {header : CBlockHeader} {nValue : Int}
    (h : st.Selects input clock limits hashes) (hfits : input.Fits) (hflags : BlockFlagsPass)
    (hlen : vchPubKey.length ≤ 65)
    (hvalue : getBlockValue (input.pindexPrev.nHeight + 1) st.nFees = .ok nValue)
    (hnew : input.NewHash (coinbaseTx vchPubKey [0, 0] nValue).getHash) :
    ∃ r, connectCoins ⟨header, coinbaseTx vchPubKey [0, 0] nValue :: st.vtx⟩
      (.child input.pindexPrev header) none input.coinsTip = .ok r := by
  let fStrict := decide (1333238400 ≤ (CBlockIndex.child input.pindexPrev header).getBlockTime)
  let fScriptChecks :=
    decide (NodeConfig.nTotalBlocksEstimate ≤ (CBlockIndex.child input.pindexPrev header).nHeight)
  let params :=
    connectParams NodeConfig.fScriptCheckThreads fScriptChecks fStrict (input.pindexPrev.nHeight + 1)
  have hfirst := connectTransaction_coinbaseTx params input.coinsTip nValue
    (show vchPubKey.length < 2 ^ 32 by omega)
  have hstart : ConnectState.Follows (coinbaseTx vchPubKey [0, 0] nValue).getHash input.coinsTip 0
      100 ⟨input.coinsTip.setCoins (coinbaseTx vchPubKey [0, 0] nValue).getHash
        (CCoins.ofTx (coinbaseTx vchPubKey [0, 0] nValue) params.nHeight), 0, 1, []⟩ :=
    ⟨.setCoins_right _ _ _, rfl, (by decide : 1 ≤ 100), rfl⟩
  obtain ⟨cst, undos, hrest, hfollows⟩ := hstart.connectTransactions hflags h.assembled.admitted
    (fun tx hmem => hnew.apart _ _ (h.fromPool tx hmem).1) NodeConfig.fScriptCheckThreads
    fScriptChecks fStrict
  have hrange := h.moneyRange hfits hvalue
  have hvout : (coinbaseTx vchPubKey [0, 0] nValue).getValueOut = .ok nValue := by
    have hchecked := CTransaction.checked_of_checkTransaction
      (checkTransaction_coinbaseTx hlen hrange)
    rw [hchecked.getValueOut_eq, CTransaction.valueOut]
    simp [coinbaseTx]
  have hfees : cst.nFees = st.nFees := by rw [hfollows.nFees, h.assembled.nFees]
  refine ⟨(cst.view, ⟨(none :: undos).reduceOption⟩), ?_⟩
  simp only [connectCoins, bind_ok, require_ok, get_ok, pure_ok, Prod.exists]
  refine ⟨(), ?_, cst, none :: undos, UndoLog.applyAll_cons.mpr ⟨_, _, _, hfirst, hrest, rfl⟩, _, rfl,
    nValue, hvout, nValue, hfees ▸ hvalue, (), decide_eq_true (Int.le_refl _), (), hfollows.vChecks,
    rfl⟩
  show (false || _) = true
  rw [Bool.false_or, List.all_eq_true]
  exact List.forall_mem_cons.mpr
    ⟨hnew.unrecorded, fun tx hmem => hfits.unrecorded _ _ (h.fromPool tx hmem).1⟩

/-- The test of a template: all but the clock and the number of transactions it refers to has been
taken care of. -/
theorem Assembly.Selects.testTemplate_iff (h : st.Selects input clock limits hashes)
    (hfits : input.Fits) (hflags : BlockFlagsPass) (hlen : vchPubKey.length ≤ 65)
    (hlimits : 1000 ≤ limits.nBlockMaxSize ∧ limits.nBlockMaxSize ≤ maxBlockSize - 1000)
    (hfill : fillTemplate input clock vchPubKey st = .ok pblocktemplate)
    (hnew : ∀ coinbase ∈ pblocktemplate.block.vtx.head?, input.NewHash coinbase.getHash) :
    (∃ view, testTemplate input clock pblocktemplate.block = .ok view) ↔
      pblocktemplate.block.InTime clock.nCheck := by
  obtain ⟨nValue, header, hvalue, hblock, -⟩ := fillTemplate_ok hfill
  rw [hblock] at hnew ⊢
  have hcoinbase := hnew _ rfl
  rw [← h.checkBlock_iff hfits hlen hlimits hvalue hcoinbase]
  obtain ⟨r, hconnect⟩ : ∃ r, connectCoins
      ⟨header, coinbaseTx vchPubKey [0, 0] nValue :: st.vtx⟩ (.child input.pindexPrev header) none
      input.coinsTip = .ok r := h.connectCoins_ok hfits hflags hlen hvalue hcoinbase
  rw [testTemplate, connectBlock_justCheck]
  simp only [connectView, bind_ok, Bool.not_true, map_ok]
  constructor
  · rintro ⟨view, r, ⟨u, hcheck, -⟩, -⟩
    exact hcheck
  · intro hcheck
    have hbest : (CBlockIndex.child input.pindexPrev header).pprev ==
        input.coinsTip.getBestBlock := by
      rw [hfits.pindexTip]
      exact beq_self_eq_true _
    by_cases hgenesis : (CBlock.mk header (coinbaseTx vchPubKey [0, 0] nValue :: st.vtx)).getHash ==
        hashGenesisBlock
    · exact ⟨_, _, ⟨(), hcheck, (), require_ok.mpr hbest, if_pos hgenesis⟩, rfl⟩
    · refine ⟨r.1, (r.1, some r.2), ⟨(), hcheck, (), require_ok.mpr hbest,
        (if_neg hgenesis).trans ?_⟩, rfl⟩
      rw [hconnect]
      rfl

omit [FloatArithmetic] in
/-- Where the clock or the number of transactions is at fault, `ConnectBlock` returns false. -/
theorem Assembly.Selects.testTemplate_late (h : st.Selects input clock limits hashes)
    (hlen : vchPubKey.length ≤ 65)
    (hlimits : 1000 ≤ limits.nBlockMaxSize ∧ limits.nBlockMaxSize ≤ maxBlockSize - 1000)
    {header : CBlockHeader} {nValue : Int}
    (hlate : ¬CBlock.InTime ⟨header, coinbaseTx vchPubKey [0, 0] nValue :: st.vtx⟩ clock.nCheck) :
    returned (testTemplate input clock ⟨header, coinbaseTx vchPubKey [0, 0] nValue :: st.vtx⟩) =
      .ok none := by
  obtain ⟨hlength, hsize⟩ : _ ∧
      CBlock.getSerializeSize ⟨header, coinbaseTx vchPubKey [0, 0] nValue :: st.vtx⟩ ≤ _ :=
    h.sizeLimits hlen hlimits
  have hempty : (coinbaseTx vchPubKey [0, 0] nValue :: st.vtx).isEmpty = false := rfl
  rw [testTemplate, connectBlock_justCheck]
  generalize hb : CBlock.mk header (coinbaseTx vchPubKey [0, 0] nValue :: st.vtx) = b at *
  have hvtx : b.vtx = coinbaseTx vchPubKey [0, 0] nValue :: st.vtx := by rw [← hb]
  rw [← hvtx] at hlength hempty
  have hfirst : (!b.vtx.isEmpty && decide (b.vtx.length ≤ maxBlockSize) &&
      decide (b.getSerializeSize ≤ maxBlockSize)) = true := by
    rw [hempty, decide_eq_true hlength, decide_eq_true hsize]
    rfl
  unfold connectView CBlock.checkBlock
  by_cases hmaxlocks : 1363867200 ≤ b.getBlockTime ∧ b.getBlockTime < 1368576000 ∧
      4500 < b.referencedTxids.length
  · have hfails := mt (CBlock.maxlocks_iff b).mp (not_not.mpr hmaxlocks)
    simp only [require, hfirst, if_true, if_neg hfails, bind, Except.bind, Except.map, returned]
  · have hpasses := (CBlock.maxlocks_iff b).mpr hmaxlocks
    have htime := decide_eq_false fun hle => hlate ⟨hmaxlocks, hle⟩
    simp only [require, hfirst, hpasses, htime, if_true, Bool.false_eq_true, if_false, Bool.not_true,
      Bool.not_false, Bool.true_or, bind, Except.bind, Except.map, returned]

omit [Hashing] [ScriptEngine] [NodeConfig] [FloatArithmetic] [PriorityArithmetic] [HeapAlgorithms] in
theorem BlockArgs.limits_range (args : BlockArgs) (nAdjustedTime : Int) :
    1000 ≤ (args.limits nAdjustedTime).nBlockMaxSize ∧
      (args.limits nAdjustedTime).nBlockMaxSize ≤ maxBlockSize - 1000 := by
  have hgen : maxBlockSizeGen = 500000 := rfl
  have hmax : maxBlockSize = 1000000 := rfl
  simp only [BlockArgs.limits, BlockArgs.nBlockMaxSize]
  split <;> omega

theorem createNewBlock_eq {args : BlockArgs}
    (hselect : selectTransactions input clock (args.limits clock.nStart) hashes = .ok st)
    (hfill : fillTemplate input clock vchPubKey st = .ok pblocktemplate) :
    createNewBlock input args clock hashes vchPubKey =
      (returned (testTemplate input clock pblocktemplate.block) >>= fun view =>
        match view with
        | some _ => pure pblocktemplate
        | none => .error (.runtimeError "CreateNewBlock() : ConnectBlock failed")) := by
  rw [createNewBlock, hselect]
  show (fillTemplate input clock vchPubKey st >>= _) = _
  rw [hfill]
  rfl

/-- A pool that fits the coins: the node's own test accepts the template, unless the clock is behind
the time of the block or the block would go over the limit of May 2013. -/
theorem createNewBlock_spec {args : BlockArgs} (hnodup : hashes.Nodup) (hfits : input.Fits)
    (hflags : BlockFlagsPass) (hlen : vchPubKey.length ≤ 65)
    (hselect : selectTransactions input clock (args.limits clock.nStart) hashes = .ok st)
    (hfill : fillTemplate input clock vchPubKey st = .ok pblocktemplate)
    (hnew : ∀ coinbase ∈ pblocktemplate.block.vtx.head?, input.NewHash coinbase.getHash) :
    createNewBlock input args clock hashes vchPubKey =
      if pblocktemplate.block.InTime clock.nCheck then .ok pblocktemplate
      else .error (.runtimeError "CreateNewBlock() : ConnectBlock failed") := by
  have hselects := selects_of_selectTransactions hnodup hfits.indexed hselect
  have hlimits := args.limits_range clock.nStart
  rw [createNewBlock_eq hselect hfill]
  split
  · rename_i hin
    obtain ⟨view, hview⟩ :=
      (hselects.testTemplate_iff hfits hflags hlen hlimits hfill hnew).mpr hin
    rw [hview]
    rfl
  · rename_i hlate
    obtain ⟨nValue, header, -, hblock, -⟩ := fillTemplate_ok hfill
    rw [hblock] at hlate ⊢
    rw [hselects.testTemplate_late hlen hlimits hlate]
    rfl

/-- The template, for any pool that is indexed by hash, any order of the heap and any fees. The
transactions after the coinbase come from the pool, final and none twice, and each one comes after
those it spends from; they connect one after the other to the coins at the tip, with the fees that
are listed, and the coinbase pays the subsidy and these fees; the block stays within its limits, with
the signature operations of the scripts whose hashes are spent. What could take part and is not in
the block waits for a transaction that is not in it, or was refused in its round. -/
structure CBlockTemplate.Built (input : MinerInput) (clock : MinerClock) (limits : BlockLimits)
    (hashes : List uint256) (coinbase : CTransaction) (vtx : List CTransaction)
    (undos : List (Option CTxUndo)) (pblocktemplate : CBlockTemplate) : Prop where
  block_vtx : pblocktemplate.block.vtx = coinbase :: vtx
  fromPool : ∀ tx ∈ vtx, input.pool.mapTx tx.getHash = some tx ∧
    input.takesPart clock tx.getHash = true
  nodup : (vtx.map CTransaction.getHash).Nodup
  ordered : ∀ before tx after, vtx = before ++ tx :: after → ∀ txin ∈ tx.vin,
    input.coinsTip.haveCoins txin.prevout.hash = true ∨
      ∃ parent ∈ before, parent.getHash = txin.prevout.hash
  connects : ∃ view,
    applyTransactions (input.pindexPrev.nHeight + 1) input.coinsTip vtx = .ok (view, undos)
  vTxFees : pblocktemplate.vTxFees = -feesOf vtx undos :: List.zipWith feeOf vtx undos
  fees : ∀ nTxFees ∈ List.zipWith feeOf vtx undos, 0 ≤ nTxFees ∧ nTxFees ≤ maxMoney
  coinbase_valueOut : coinbase.isCoinBase = true ∧
    coinbase.valueOut = getBlockSubsidy (input.pindexPrev.nHeight + 1) + feesOf vtx undos
  size_le : pblocktemplate.block.getSerializeSize ≤ limits.nBlockMaxSize
  vTxSigOps : ∃ vTxSigOps : List Nat,
    pblocktemplate.vTxSigOps =
        (coinbase.getLegacySigOpCount : Int) :: vTxSigOps.map Nat.cast ∧
      SigOpsOf (input.pindexPrev.nHeight + 1) input.coinsTip vtx vTxSigOps ∧
      100 + vTxSigOps.sum < maxBlockSigOps
  complete : ∀ hash ∈ hashes, input.takesPart clock hash = true →
    hash ∈ vtx.map CTransaction.getHash ∨
    (∃ p ∈ input.dependsOn hash, p ∉ vtx.map CTransaction.getHash) ∨
    Assembly.Refused input clock limits hashes vtx hash

end Test

/-! ## A parent and a child -/

namespace TemplateSample

theorem mapTx_input {hash : uint256} {tx : CTransaction} (h : input.pool.mapTx hash = some tx) :
    (hash = 11 ∧ tx = parent) ∨ (hash = 12 ∧ tx = child) := by
  by_cases h11 : hash = 11
  · subst h11
    exact .inl ⟨rfl, (Option.some.inj h).symm⟩
  · by_cases h12 : hash = 12
    · subst h12
      exact .inr ⟨rfl, (Option.some.inj h).symm⟩
    · rw [input, CTxMemPool.mapTx_addUnchecked_of_ne h11, CTxMemPool.mapTx_addUnchecked_of_ne h12] at h
      cases h

theorem fits : input.Fits where
  indexed := by
    have hchild : (CTxMemPool.empty.addUnchecked child.getHash child).Indexed :=
      CTxMemPool.Indexed.empty.addUnchecked rfl (by decide) (fun _ _ => rfl)
    have hparent : (CTxMemPool.empty.addUnchecked child.getHash child).mapTx parent.getHash = none :=
      rfl
    exact hchild.addUnchecked hparent (by decide) (by decide)
  checked hash tx h := by
    rcases mapTx_input h with ⟨-, rfl⟩ | ⟨-, rfl⟩
    · rfl
    · rfl
  unrecorded hash tx h := by
    rcases mapTx_input h with ⟨rfl, -⟩ | ⟨rfl, -⟩
    · decide +kernel
    · decide +kernel
  pindexTip := rfl
  nonNeg := by
    have hempty : CoinsView.empty.NonNeg := fun txid n out h => by cases h
    exact hempty.setCoins fun n out h => by
      cases n with
      | zero => exact Option.some.inj h ▸ (by decide : 0 ≤ coin)
      | succ n => cases h
  total_le := by
    have hempty : CoinsView.empty.total = 0 := Finset.sum_eq_zero fun _ _ => rfl
    have hsubsidies : subsidies input.pindexPrev.nHeight = getBlockSubsidy 1 :=
      Finset.sum_singleton _ _
    rw [input, CoinsView.total_setBestBlock, CoinsView.total_setCoins, hempty]
    exact hsubsidies ▸ (by decide)

theorem createNewBlock_spec_sample : ∃ pblocktemplate,
    createNewBlock input args clock [12, 11] (List.replicate 33 2) = .ok pblocktemplate ∧
      pblocktemplate.block.vtx.tail = [parent, child] := by
  have hrun : ((selectTransactions input clock (args.limits clock.nStart) [12, 11]).toOption.any
      fun st => st.vtx == [parent, child] && st.nFees == 0) = true := by
    decide +kernel
  obtain ⟨st, hselect, hst⟩ := (Option.any_eq_true _ _).mp hrun
  rw [Bool.and_eq_true, beq_iff_eq, beq_iff_eq] at hst
  rw [toOption_eq_some] at hselect
  obtain ⟨header, hheader, hat⟩ := @CBlockHeader.fillIn_templateAt _ _ input.pindexPrev
    CBlockHeader.null clock.nUpdate _
  have hfill : ∃ pblocktemplate, fillTemplate input clock (List.replicate 33 2) st =
      .ok pblocktemplate := by
    have hvalue : getBlockValue (input.pindexPrev.nHeight + 1) 0 = .ok (20 * coin) := by
      decide +kernel
    simp only [fillTemplate, bind_ok, get_ok, pure_ok, hst.2]
    exact ⟨_, _, hvalue, header, hheader, rfl⟩
  obtain ⟨pblocktemplate, hfill⟩ := hfill
  obtain ⟨nValue, header', -, hblock, -, -, htime⟩ := fillTemplate_ok hfill
  have hnew : ∀ coinbase ∈ pblocktemplate.block.vtx.head?, input.NewHash coinbase.getHash := by
    rw [hblock]
    intro coinbase hmem
    obtain rfl := Option.some.inj hmem
    refine ⟨fun hash tx h => ?_, rfl⟩
    have hzero : (coinbaseTx (List.replicate 33 2) [0, 0] nValue).getHash = 0 := rfl
    rw [hzero]
    rcases mapTx_input h with ⟨-, rfl⟩ | ⟨-, rfl⟩
    · exact ⟨by decide, by decide⟩
    · exact ⟨by decide, by decide⟩
  have hspec := createNewBlock_spec (by decide) fits (fun _ _ _ _ _ _ _ => rfl) (by decide) hselect
    hfill hnew
  have hin : pblocktemplate.block.InTime clock.nCheck := by
    have hnow : pblocktemplate.block.getBlockTime = 2000000000 := by
      rw [hblock]
      show (header'.nTime.toNat : Int) = _
      rw [htime]
      decide +kernel
    constructor
    · rw [hnow]
      exact fun h => absurd h.2.1 (by decide)
    · rw [hnow]
      decide
  refine ⟨pblocktemplate, hspec.trans (if_pos hin), ?_⟩
  rw [hblock]
  exact hst.1

end TemplateSample

end Terracoin
