import Terracoin.Script.Verify
import Terracoin.Validation.ConnectBlock

/-!
# Signature checks of a block

`ConnectBlock` keeps the operations counted for a block within `MAX_BLOCK_SIGOPS`. The count is of
the scripts that the block carries: `scriptSig` and the redeem script of every input, and the
scripts of the outputs, whose checks are made when the outputs are spent. For these it is a bound on
the calls of `CheckSig`. The scripts of the outputs that the block spends are evaluated as well,
but were counted for the blocks that carry them.
-/

namespace Terracoin

open Checked

section

variable [ScriptHashing] [ByteHashing] [ByteHashing160]

/-- Running scripts with the interpreter, for a `CheckSig` that reads the transaction, the number
of the input, the hash type and the flags. -/
abbrev interpreter (checkSig : CTransaction → Nat → Nat → Nat → valtype → valtype → CScript → Bool)
    (isStandardScript : CScript → Bool) (isStandardInput : CTransaction → Nat → CTxOut → Bool) :
    ScriptEngine where
  verifyScript scriptSig scriptPubKey txTo nIn flags nHashType :=
    (verifyScript (checkSig txTo nIn nHashType flags) scriptSig scriptPubKey flags).result.isOk
  isStandardScript := isStandardScript
  isStandardInput := isStandardInput

variable (checkSig : CTransaction → Nat → Nat → Nat → valtype → valtype → CScript → Bool)

namespace CScriptCheck

def evaluations (check : CScriptCheck) : List (Eval ScriptState) :=
  match check.txTo.vin[check.nIn]? with
  | some txin =>
    (verifyScript (checkSig check.txTo check.nIn check.nHashType check.nFlags) txin.scriptSig
      check.scriptPubKey check.nFlags).trace
  | none => []

/-- The calls of `CheckSig` that a script check makes. -/
def calls (check : CScriptCheck) : Nat := ((check.evaluations checkSig).map Eval.calls).sum

/-- Those among them that `scriptSig` and the redeem script make, which the input brings. -/
def inputCalls (check : CScriptCheck) : Nat :=
  (((check.evaluations checkSig).eraseIdx 1).map Eval.calls).sum

variable {checkSig} {check : CScriptCheck} {txin : CTxIn}

/-- The redeem script is evaluated with `SCRIPT_VERIFY_P2SH` only. -/
theorem inputCalls_le (htxin : check.txTo.vin[check.nIn]? = some txin) :
    check.inputCalls checkSig ≤ txin.scriptSig.getSigOpCount false +
      if check.nFlags.testBit 0 && check.scriptPubKey.isPayToScriptHash then
        check.scriptPubKey.getSigOpCountP2SH txin.scriptSig
      else 0 := by
  have hsig := (calls_evalScript_le ⟨txin.scriptSig, check.nFlags,
    checkSig check.txTo check.nIn check.nHashType check.nFlags⟩ []).trans
      (getSigOpCount_true_le txin.scriptSig)
  rw [inputCalls, evaluations, htxin]
  dsimp only
  obtain htrace | ⟨stack, htrace⟩ | ⟨st, vch, rest, -, -, hflag, hp2sh, -, htrace⟩ :=
    trace_verifyScript (checkSig check.txTo check.nIn check.nHashType check.nFlags)
      txin.scriptSig check.scriptPubKey check.nFlags
  · rw [htrace]
    exact Nat.le_add_right_of_le hsig
  · rw [htrace]
    exact Nat.le_add_right_of_le hsig
  · have hredeem := calls_redeem_le (congrArg (fun l => l[2]?) htrace)
    rw [htrace, hflag, hp2sh]
    exact Nat.add_le_add hsig hredeem

end CScriptCheck

namespace CTransaction

variable {checkSig} {tx : CTransaction} {inputs : CoinsView} {flags nIn n : Nat}
  {vin : List CTxIn} {checks : List CScriptCheck}

/-- The checks of the inputs from number `nIn` on, against `GetLegacySigOpCount` and
`GetP2SHSigOpCount`. -/
theorem inputCalls_scriptChecks (hvin : tx.vin.drop nIn = vin)
    (hp2sh : flags.testBit 0 = true → p2shSigOps inputs vin = .ok n)
    (h : scriptChecks tx inputs flags nIn vin = .ok checks) :
    (checks.map (CScriptCheck.inputCalls checkSig)).sum ≤
      (vin.map fun txin => txin.scriptSig.getSigOpCount false).sum + n := by
  induction vin generalizing nIn n checks with
  | nil =>
    obtain rfl := Except.ok.inj h
    exact Nat.zero_le _
  | cons txin vin ih =>
    simp only [scriptChecks, bind_ok, get_ok, pure_ok] at h
    obtain ⟨coins, hcoins, txout, hout, rest, hrest, rfl⟩ := h
    have htxin : tx.vin[nIn]? = some txin := by
      rw [← List.head?_drop, hvin, List.head?_cons]
    have hdrop : tx.vin.drop (nIn + 1) = vin := by
      rw [← List.tail_drop, hvin, List.tail_cons]
    have hcheck : CScriptCheck.inputCalls checkSig ⟨txout.scriptPubKey, tx, nIn, flags, 0⟩ ≤ _ :=
      CScriptCheck.inputCalls_le htxin
    rw [List.map_cons, List.sum_cons, List.map_cons, List.sum_cons]
    cases hflag : flags.testBit 0 with
    | false =>
      have hih := @ih (nIn + 1) n rest hdrop (fun hf => absurd hf (by rw [hflag]; decide)) hrest
      rw [hflag, Bool.false_and, if_neg Bool.false_ne_true] at hcheck
      omega
    | true =>
      have hsum := hp2sh hflag
      simp only [p2shSigOps, bind_ok, pure_ok] at hsum
      obtain ⟨prevout, hprevout, m, hm, rfl⟩ := hsum
      have hsame : prevout = txout := by
        rw [CoinsView.getCoins_ok] at hcoins
        rw [getOutputFor_ok, CoinsView.coinsAt, hcoins, CCoins.output_eq_some] at hprevout
        exact Option.some.inj (hprevout.1.symm.trans hout)
      subst hsame
      have hih := ih hdrop (fun _ => hm) hrest
      rw [hflag, Bool.true_and] at hcheck
      dsimp only at hcheck
      omega

end CTransaction

end

namespace CTransaction

variable [ScriptEngine] {tx : CTransaction} {inputs : CoinsView} {fScriptChecks fQueue : Bool}
  {flags : Nat} {checks : List CScriptCheck}

/-- The checks that go to the queue are those of every input, or none. -/
theorem checkInputs_queue_ok (h : tx.checkInputs inputs fScriptChecks flags true = .ok checks) :
    checks = [] ∨ scriptChecks tx inputs flags 0 tx.vin = .ok checks := by
  unfold checkInputs at h
  split at h
  · exact .inl (Except.ok.inj h).symm
  · simp only [bind_ok] at h
    obtain ⟨_, -, _, -, _, -, _, -, _, -, _, -, _, -, _, -, h⟩ := h
    split at h
    · simp only [bind_ok, if_true] at h
      obtain ⟨checks', hchecks, h⟩ := h
      obtain rfl := Except.ok.inj h
      exact .inr hchecks
    · exact .inl (Except.ok.inj h).symm

theorem checkInputs_queue (h : tx.checkInputs inputs fScriptChecks flags fQueue = .ok checks) :
    ∃ checks', tx.checkInputs inputs fScriptChecks flags true = .ok checks' := by
  unfold checkInputs at h ⊢
  by_cases hcb : tx.isCoinBase = true
  · rw [if_pos hcb]
    exact ⟨[], rfl⟩
  · rw [if_neg hcb] at h ⊢
    simp only [bind_ok] at h ⊢
    obtain ⟨_, h1, _, h2, _, h3, _, h4, _, h5, _, h6, _, h7, _, h8, h⟩ := h
    by_cases hf : fScriptChecks = true
    · rw [if_pos hf] at h ⊢
      obtain ⟨checks', hchecks, -⟩ := bind_ok.mp h
      refine ⟨checks', _, h1, _, h2, _, h3, _, h4, _, h5, _, h6, _, h7, _, h8, ?_⟩
      rw [hchecks]
      rfl
    · rw [if_neg hf]
      exact ⟨[], _, h1, _, h2, _, h3, _, h4, _, h5, _, h6, _, h7, _, h8, rfl⟩

end CTransaction

/-! ## The checks of a block -/

/-- The parameters of the loop as `ConnectBlock` sets them. -/
def connectParams (fQueue fScriptChecks fStrictPayToScriptHash : Bool) (nHeight : Int) :
    ConnectParams :=
  ⟨fQueue, fScriptChecks, SCRIPT_VERIFY_NOCACHE +
    if fStrictPayToScriptHash then SCRIPT_VERIFY_P2SH else SCRIPT_VERIFY_NONE,
    fStrictPayToScriptHash, nHeight⟩

theorem connectParams_flag (fQueue fScriptChecks fStrict : Bool) (nHeight : Int) :
    (connectParams fQueue fScriptChecks fStrict nHeight).flags.testBit 0 = fStrict := by
  cases fStrict with
  | false => exact (by decide : (SCRIPT_VERIFY_NOCACHE + SCRIPT_VERIFY_NONE).testBit 0 = false)
  | true => exact (by decide : (SCRIPT_VERIFY_NOCACHE + SCRIPT_VERIFY_P2SH).testBit 0 = true)

/-- The operations counted for the outputs. -/
def outputSigOps (vtx : List CTransaction) : Nat :=
  (vtx.map fun tx => (tx.vout.map fun txout => txout.scriptPubKey.getSigOpCount false).sum).sum

section

variable [ScriptEngine] {fQueue fScriptChecks fStrict : Bool} {nHeight : Int}
  {st st' : ConnectState} {tx : CTransaction} {vtx : List CTransaction}

/-- Where the checks go makes no difference to the rest of the loop. -/
theorem checkConnect_queue (vChecks : List CScriptCheck)
    (h : checkConnect (connectParams fQueue fScriptChecks fStrict nHeight) st tx = .ok st') :
    ∃ vChecks', checkConnect (connectParams true fScriptChecks fStrict nHeight)
      { st with vChecks := vChecks } tx = .ok { st' with vChecks := vChecks' } := by
  simp only [checkConnect, bind_ok] at h ⊢
  obtain ⟨_, hlegacy, h⟩ := h
  split at h
  · rename_i hcb
    obtain rfl := Except.ok.inj h
    refine ⟨vChecks, (), hlegacy, ?_⟩
    rw [if_pos hcb]
  · rename_i hcb
    simp only [connectInputs, bind_ok, pure_ok] at h
    obtain ⟨_, h1, n, h2, _, h3, vin, h4, vout, h5, fee, h6, fees, h7, checks, h8, rfl⟩ := h
    obtain ⟨checks', hchecks⟩ := CTransaction.checkInputs_queue h8
    refine ⟨vChecks ++ checks', (), hlegacy, ?_⟩
    rw [if_neg hcb]
    simp only [connectInputs, bind_ok, pure_ok]
    exact ⟨_, h1, n, h2, _, h3, vin, h4, vout, h5, fee, h6, fees, h7, checks', hchecks, rfl⟩

theorem connectTransactions_queue [Hashing] {undos : List (Option CTxUndo)}
    (vChecks : List CScriptCheck)
    (h : connectTransactions (connectParams fQueue fScriptChecks fStrict nHeight) st vtx =
      .ok (st', undos)) :
    ∃ vChecks', connectTransactions (connectParams true fScriptChecks fStrict nHeight)
      { st with vChecks := vChecks } vtx = .ok ({ st' with vChecks := vChecks' }, undos) := by
  induction vtx generalizing st undos vChecks with
  | nil =>
    obtain ⟨rfl, rfl⟩ := Prod.mk.inj (UndoLog.applyAll_nil.mp h)
    exact ⟨vChecks, rfl⟩
  | cons tx vtx ih =>
    obtain ⟨st1, txundo, undos', h1, h2, rfl⟩ := UndoLog.applyAll_cons.mp h
    simp only [connectTransaction, bind_ok, pure_ok, Prod.exists, Prod.mk.injEq] at h1
    obtain ⟨st2, hcheck, view, undo, happly, rfl, rfl⟩ := h1
    obtain ⟨vChecks1, hcheck'⟩ := checkConnect_queue vChecks hcheck
    obtain ⟨vChecks', hrest⟩ := ih vChecks1 h2
    refine ⟨vChecks', UndoLog.applyAll_cons.mpr ⟨_, undo, undos', ?_, hrest, rfl⟩⟩
    simp only [connectTransaction, bind_ok, pure_ok, Prod.exists]
    exact ⟨_, hcheck', view, undo, happly, rfl⟩

variable [ScriptHashing] [ByteHashing] [ByteHashing160]
  (checkSig : CTransaction → Nat → Nat → Nat → valtype → valtype → CScript → Bool)

/-- One round counts at least the calls that its inputs bring and the operations of its
outputs. -/
theorem checkConnect_sigOps
    (h : checkConnect (connectParams true fScriptChecks fStrict nHeight) st tx = .ok st') :
    st'.nSigOps ≤ maxBlockSigOps ∧
      st.nSigOps + outputSigOps [tx] + (st'.vChecks.map (CScriptCheck.inputCalls checkSig)).sum ≤
        st'.nSigOps + (st.vChecks.map (CScriptCheck.inputCalls checkSig)).sum := by
  have houtputs : outputSigOps [tx] =
      (tx.vout.map fun txout => txout.scriptPubKey.getSigOpCount false).sum := by
    rw [outputSigOps, List.map_singleton, List.sum_singleton]
  have hlegacy : tx.getLegacySigOpCount =
      (tx.vin.map fun txin => txin.scriptSig.getSigOpCount false).sum + outputSigOps [tx] := by
    rw [houtputs]
    rfl
  simp only [checkConnect, bind_ok, require_ok, decide_eq_true_eq] at h
  obtain ⟨_, hle, h⟩ := h
  split at h
  · obtain rfl := Except.ok.inj h
    exact ⟨hle, by dsimp only; omega⟩
  · rename_i hcb
    simp only [connectInputs, bind_ok, pure_ok, require_ok, decide_eq_true_eq] at h
    obtain ⟨_, -, n, hn, _, hle', _, -, _, -, _, -, _, -, checks, hchecks, rfl⟩ := h
    refine ⟨hle', ?_⟩
    have hcalls : (checks.map (CScriptCheck.inputCalls checkSig)).sum ≤
        (tx.vin.map fun txin => txin.scriptSig.getSigOpCount false).sum + n := by
      obtain rfl | hscripts := CTransaction.checkInputs_queue_ok hchecks
      · exact Nat.zero_le _
      · refine CTransaction.inputCalls_scriptChecks List.drop_zero (fun hflag => ?_) hscripts
        rw [connectParams_flag] at hflag
        subst hflag
        rw [← hn]
        exact (if_neg hcb).symm
    simp only [List.map_append, List.sum_append]
    omega

theorem connectTransactions_sigOps [Hashing] {undos : List (Option CTxUndo)}
    (hle : st.nSigOps ≤ maxBlockSigOps)
    (h : connectTransactions (connectParams true fScriptChecks fStrict nHeight) st vtx =
      .ok (st', undos)) :
    st'.nSigOps ≤ maxBlockSigOps ∧
      st.nSigOps + outputSigOps vtx + (st'.vChecks.map (CScriptCheck.inputCalls checkSig)).sum ≤
        st'.nSigOps + (st.vChecks.map (CScriptCheck.inputCalls checkSig)).sum := by
  induction vtx generalizing st undos with
  | nil =>
    obtain ⟨rfl, rfl⟩ := Prod.mk.inj (UndoLog.applyAll_nil.mp h)
    exact ⟨hle, Nat.le_refl _⟩
  | cons tx vtx ih =>
    obtain ⟨st1, txundo, undos', h1, h2, rfl⟩ := UndoLog.applyAll_cons.mp h
    simp only [connectTransaction, bind_ok, pure_ok, Prod.exists, Prod.mk.injEq] at h1
    obtain ⟨st2, hcheck, view, undo, -, rfl, rfl⟩ := h1
    obtain ⟨hle1, hstep⟩ := checkConnect_sigOps checkSig hcheck
    obtain ⟨hle', hrest⟩ := @ih { st2 with view := view } undos' hle1 h2
    have hcons : outputSigOps (tx :: vtx) = outputSigOps [tx] + outputSigOps vtx := by
      simp [outputSigOps]
    dsimp only at hrest
    exact ⟨hle', by omega⟩

end

/-- For the scripts that the transactions of a block carry, `MAX_BLOCK_SIGOPS` bounds the calls of
`CheckSig`: those of the checks made so far, and those still to come for the outputs. -/
def SigChecksBounded [ScriptHashing] [ByteHashing] [ByteHashing160]
    (checkSig : CTransaction → Nat → Nat → Nat → valtype → valtype → CScript → Bool)
    (vtx : List CTransaction) (vChecks : List CScriptCheck) : Prop :=
  (vChecks.map (CScriptCheck.inputCalls checkSig)).sum + outputSigOps vtx ≤ maxBlockSigOps

/-- An evaluation calls `CheckSig` no more often than `GetSigOpCount(true)` counts, which is no more
than `GetSigOpCount(false)` counts, and the evaluation of a redeem script no more often than
`GetSigOpCount(scriptSig)` counts. While the transactions of a block are connected, the calls that
its inputs bring and the operations of its outputs stay within `MAX_BLOCK_SIGOPS`, for the checks
that go to the queue or would go to it, and also when the last transaction is then rejected. -/
theorem sigOps_bound [Hashing] [ScriptEngine] [ScriptHashing] [ByteHashing] [ByteHashing160] :
    (∀ (ctx : ScriptContext) (stack : List valtype),
      (evalScript ctx stack).calls ≤ ctx.script.getSigOpCount true) ∧
    (∀ s : CScript, s.getSigOpCount true ≤ s.getSigOpCount false) ∧
    (∀ (checkSig : valtype → valtype → CScript → Bool) (scriptSig scriptPubKey : CScript)
      (flags : Nat) (x : Eval ScriptState),
      (verifyScript checkSig scriptSig scriptPubKey flags).trace[2]? = some x →
        x.calls ≤ scriptPubKey.getSigOpCountP2SH scriptSig) ∧
    ∀ (checkSig : CTransaction → Nat → Nat → Nat → valtype → valtype → CScript → Bool)
      (fQueue fScriptChecks fStrict : Bool) (nHeight : Int) (view : CoinsView)
      (vtx : List CTransaction) (st : ConnectState) (undos : List (Option CTxUndo)),
      connectTransactions (connectParams fQueue fScriptChecks fStrict nHeight) ⟨view, 0, 0, []⟩
        vtx = .ok (st, undos) →
      ∃ vChecks, connectTransactions (connectParams true fScriptChecks fStrict nHeight)
          ⟨view, 0, 0, []⟩ vtx = .ok ({ st with vChecks := vChecks }, undos) ∧
        SigChecksBounded checkSig vtx vChecks ∧
        ∀ tx st', checkConnect (connectParams true fScriptChecks fStrict nHeight)
          { st with vChecks := vChecks } tx = .ok st' →
            SigChecksBounded checkSig (vtx ++ [tx]) st'.vChecks := by
  refine ⟨calls_evalScript_le, getSigOpCount_true_le, fun _ _ _ _ _ h => calls_redeem_le h, ?_⟩
  intro checkSig fQueue fScriptChecks fStrict nHeight view vtx st undos h
  obtain ⟨vChecks, hqueue⟩ := connectTransactions_queue [] h
  obtain ⟨hle, hcalls⟩ := connectTransactions_sigOps checkSig (Nat.zero_le _) hqueue
  have hcalls : (vChecks.map (CScriptCheck.inputCalls checkSig)).sum + outputSigOps vtx ≤
      st.nSigOps := by simpa [Nat.add_comm] using hcalls
  refine ⟨vChecks, hqueue, hcalls.trans hle, fun tx st' htx => ?_⟩
  obtain ⟨hle', hstep⟩ := checkConnect_sigOps checkSig htx
  have happend : outputSigOps (vtx ++ [tx]) = outputSigOps vtx + outputSigOps [tx] := by
    simp [outputSigOps]
  unfold SigChecksBounded
  dsimp only at hstep
  omega

/-! ## A block that spends scripts with many signature checks -/

namespace SigOpsSample

open ScriptSample Sample

/-- Nine times `OP_CHECKMULTISIG` with an empty signature and twenty empty keys, then `OP_1`. -/
def scriptPubKey : CScript :=
  (List.replicate 9 ([0x00, 0x00, 0x51] ++ List.replicate 20 0x00 ++
    [0x01, 0x14, CScript.OP_CHECKMULTISIG])).flatten ++ [CScript.OP_1]

def coins : CCoins := ⟨false, List.replicate 56 ⟨1, scriptPubKey⟩, 0, 1⟩

/-- Two transactions with 56 outputs each. -/
def view : CoinsView :=
  ((CoinsView.empty.setCoins 1 coins).setCoins 2 coins).setBestBlock (some genesis)

def prevouts (txid : uint256) : List (uint256 × UInt32) :=
  (List.range 56).map fun n => (txid, UInt32.ofNat n)

/-- The transaction that spends them all. -/
def tx : CTransaction := spending 3 (prevouts 1 ++ prevouts 2) [112]

def checkSig (_ : CTransaction) (_ _ _ : Nat) (_ _ : valtype) (_ : CScript) : Bool := false

scoped instance engine : ScriptEngine :=
  interpreter checkSig (fun _ => true) (fun _ _ _ => true)

def check (nIn : Nat) : CScriptCheck := ⟨scriptPubKey, tx, nIn, 5, 0⟩

theorem calls_scriptPubKey :
    ((verifyScript (fun _ _ _ => false) [] scriptPubKey 5).trace.map Eval.calls).sum = 180 := by
  decide +kernel

theorem isOk_scriptPubKey :
    (verifyScript (fun _ _ _ => false) [] scriptPubKey 5).result.isOk = true := by
  decide +kernel

theorem connectTransactions_tx :
    (connectTransactions (connectParams true true true 1) ⟨view, 0, 0, []⟩ [coinbase 9 0, tx]).map
      (fun r => r.1.vChecks) = .ok ((List.range 112).map check) := by
  decide +kernel

theorem exists_connectTransactions :
    ∃ st undos, connectTransactions (connectParams true true true 1) ⟨view, 0, 0, []⟩
      [coinbase 9 0, tx] = .ok (st, undos) ∧ st.vChecks = (List.range 112).map check := by
  have h := connectTransactions_tx
  cases hrun : connectTransactions (connectParams true true true 1) ⟨view, 0, 0, []⟩
      [coinbase 9 0, tx] with
  | error e =>
    rw [hrun] at h
    cases h
  | ok r =>
    rw [hrun] at h
    exact ⟨r.1, r.2, rfl, Except.ok.inj h⟩

theorem vin_tx {nIn : Nat} (h : nIn < 112) :
    ∃ prevout, tx.vin[nIn]? = some ⟨prevout, [], 0⟩ := by
  have hlength : (prevouts 1 ++ prevouts 2).length = 112 := by simp [prevouts]
  obtain ⟨o, ho⟩ : ∃ o, (prevouts 1 ++ prevouts 2)[nIn]? = some o :=
    ⟨_, List.getElem?_eq_getElem (hlength ▸ h)⟩
  refine ⟨⟨o.1, o.2⟩, ?_⟩
  rw [tx, spending, List.getElem?_map, ho]
  rfl

theorem calls_check {nIn : Nat} (h : nIn < 112) : (check nIn).calls checkSig = 180 := by
  obtain ⟨prevout, hvin⟩ := vin_tx h
  rw [CScriptCheck.calls, CScriptCheck.evaluations, check]
  dsimp only
  rw [hvin]
  exact calls_scriptPubKey

theorem run_check {nIn : Nat} (h : nIn < 112) : (check nIn).run = true := by
  obtain ⟨prevout, hvin⟩ := vin_tx h
  rw [CScriptCheck.run, check]
  dsimp only
  rw [hvin]
  exact isOk_scriptPubKey

/-- The checks of this block all succeed, with 20160 calls of `CheckSig`. -/
theorem maxBlockSigOps_lt_calls :
    ∃ st undos, connectTransactions (connectParams true true true 1) ⟨view, 0, 0, []⟩
        [coinbase 9 0, tx] = .ok (st, undos) ∧
      st.vChecks.all CScriptCheck.run = true ∧
      maxBlockSigOps < (st.vChecks.map (CScriptCheck.calls checkSig)).sum := by
  obtain ⟨st, undos, hrun, hchecks⟩ := exists_connectTransactions
  refine ⟨st, undos, hrun, ?_, ?_⟩
  · rw [hchecks, List.all_eq_true]
    intro check' hmem
    obtain ⟨nIn, hnIn, rfl⟩ := List.mem_map.mp hmem
    exact run_check (List.mem_range.mp hnIn)
  · have hcalls : ((List.range 112).map check).map (CScriptCheck.calls checkSig) =
        List.replicate 112 180 := by
      rw [List.map_map, List.eq_replicate_iff]
      refine ⟨by simp, fun n hn => ?_⟩
      obtain ⟨nIn, hnIn, rfl⟩ := List.mem_map.mp hn
      exact calls_check (List.mem_range.mp hnIn)
    rw [hchecks, hcalls]
    decide

/-- What the block itself carries is within the bound. -/
theorem sigOps_bound_sample :
    ∃ st undos, connectTransactions (connectParams true true true 1) ⟨view, 0, 0, []⟩
        [coinbase 9 0, tx] = .ok (st, undos) ∧
      SigChecksBounded checkSig [coinbase 9 0, tx] st.vChecks := by
  obtain ⟨st, undos, hrun, -⟩ := exists_connectTransactions
  obtain ⟨vChecks, hqueue, hbound, -⟩ :=
    sigOps_bound.2.2.2 checkSig true true true 1 view [coinbase 9 0, tx] st undos hrun
  exact ⟨_, undos, hqueue, hbound⟩

end SigOpsSample

end Terracoin
