import Terracoin.Coins.View
import Terracoin.Lib.UndoLog

/-!
# Transactions against a coins view

The methods of `CTransaction` that read or change a `CCoinsViewCache`: `HaveInputs`,
`GetValueIn`, `GetP2SHSigOpCount`, `CheckInputs` and `UpdateCoins`.

`updateCoins` spends the inputs through `UndoLog.applyAll`; its undo records are the ones
`DisconnectBlock` works with.
-/

namespace Terracoin

open Checked

def coinbaseMaturity : Int := 100

def SCRIPT_VERIFY_NONE : Nat := 0
def SCRIPT_VERIFY_P2SH : Nat := 1
def SCRIPT_VERIFY_STRICTENC : Nat := 2
def SCRIPT_VERIFY_NOCACHE : Nat := 4

/-- A script verification to be run, possibly later. -/
structure CScriptCheck where
  scriptPubKey : CScript
  txTo : CTransaction
  nIn : Nat
  nFlags : Nat
  nHashType : Nat
deriving DecidableEq, Repr

def CScriptCheck.run [ScriptEngine] (check : CScriptCheck) : Bool :=
  match check.txTo.vin[check.nIn]? with
  | some txin =>
    ScriptEngine.verifyScript txin.scriptSig check.scriptPubKey check.txTo check.nIn check.nFlags
      check.nHashType
  | none => false

namespace CTransaction

/-! ## Reading the inputs -/

def getOutputFor (inputs : CoinsView) (txin : CTxIn) : Check CTxOut := do
  let coins ← inputs.getCoins txin.prevout.hash
  require (coins.isAvailable txin.prevout.n.toNat) .assertion
  get coins.vout[txin.prevout.n.toNat]? .assertion

/-- The loop of `GetValueIn` from the running total `nResult`. -/
def valueInFrom (inputs : CoinsView) : Int → List CTxIn → Check Int
  | nResult, [] => .ok nResult
  | nResult, txin :: vin => do
    let txout ← getOutputFor inputs txin
    let nResult ← add64 .overflow nResult txout.nValue
    valueInFrom inputs nResult vin

def getValueIn (tx : CTransaction) (inputs : CoinsView) : Check Int :=
  if tx.isCoinBase then .ok 0 else valueInFrom inputs 0 tx.vin

/-- The loop of `GetP2SHSigOpCount`. -/
def p2shSigOps (inputs : CoinsView) : List CTxIn → Check Nat
  | [] => .ok 0
  | txin :: vin => do
    let prevout ← getOutputFor inputs txin
    let nSigOps :=
      if prevout.scriptPubKey.isPayToScriptHash then
        prevout.scriptPubKey.getSigOpCountP2SH txin.scriptSig
      else 0
    let rest ← p2shSigOps inputs vin
    pure (nSigOps + rest)

def getP2SHSigOpCount (tx : CTransaction) (inputs : CoinsView) : Check Nat :=
  if tx.isCoinBase then .ok 0 else p2shSigOps inputs tx.vin

/-- The previous output is there and not spent. -/
def haveInput (inputs : CoinsView) (txin : CTxIn) : Bool :=
  (inputs.coinsAt txin.prevout.hash).isAvailable txin.prevout.n.toNat

def haveInputs (tx : CTransaction) (inputs : CoinsView) : Bool :=
  tx.isCoinBase ||
    (tx.vin.all (fun txin => inputs.haveCoins txin.prevout.hash) && tx.vin.all (haveInput inputs))

/-- The first loop of `CheckInputs` from the running total `nValueIn`. -/
def checkInputValues (inputs : CoinsView) (nSpendHeight : Int) : Int → List CTxIn → Check Int
  | nValueIn, [] => .ok nValueIn
  | nValueIn, txin :: vin => do
    let coins ← inputs.getCoins txin.prevout.hash
    require (!(coins.fCoinBase && decide (nSpendHeight - coins.nHeight < coinbaseMaturity)))
      (.DoS 0 "CheckInputs() : tried to spend coinbase at depth %d")
    let txout ← get coins.vout[txin.prevout.n.toNat]? .assertion
    let nValueIn ← add64 .overflow nValueIn txout.nValue
    require (moneyRange txout.nValue && moneyRange nValueIn)
      (.DoS 100 "CheckInputs() : txin values out of range")
    checkInputValues inputs nSpendHeight nValueIn vin

/-- The checks of the second loop of `CheckInputs`, for the inputs from number `nIn` on. -/
def scriptChecks (tx : CTransaction) (inputs : CoinsView) (flags : Nat) :
    Nat → List CTxIn → Check (List CScriptCheck)
  | _, [] => .ok []
  | nIn, txin :: vin => do
    let coins ← inputs.getCoins txin.prevout.hash
    let txout ← get coins.vout[txin.prevout.n.toNat]? .assertion
    let rest ← scriptChecks tx inputs flags (nIn + 1) vin
    pure (⟨txout.scriptPubKey, tx, nIn, flags, 0⟩ :: rest)

/-- `CheckInputs`. With `fQueue` the script checks are handed to the caller (`pvChecks`),
otherwise they are run here. -/
def checkInputs [ScriptEngine] (tx : CTransaction) (inputs : CoinsView)
    (fScriptChecks : Bool) (flags : Nat) (fQueue : Bool) : Check (List CScriptCheck) :=
  if tx.isCoinBase then .ok []
  else do
    require (tx.haveInputs inputs) (.DoS 0 "CheckInputs() : %s inputs unavailable")
    let pindex ← get inputs.getBestBlock .assertion
    let nSpendHeight : Int := pindex.nHeight + 1
    let nValueIn ← checkInputValues inputs nSpendHeight 0 tx.vin
    let nValueOut ← tx.getValueOut
    require (nValueOut ≤ nValueIn) (.DoS 100 "CheckInputs() : %s value in < value out")
    let nTxFee ← add64 .overflow nValueIn (-nValueOut)
    require (0 ≤ nTxFee) (.DoS 100 "CheckInputs() : %s nTxFee < 0")
    require (moneyRange nTxFee) (.DoS 100 "CheckInputs() : nFees out of range")
    if fScriptChecks then do
      let checks ← scriptChecks tx inputs flags 0 tx.vin
      if fQueue then .ok checks
      else do
        require (checks.all CScriptCheck.run) (.DoS 100 "")
        pure []
    else .ok []

/-- The body of the loop of `UpdateCoins`. -/
def spendInput (inputs : CoinsView) (txin : CTxIn) : Check (CoinsView × CTxInUndo) := do
  let coins ← inputs.getCoins txin.prevout.hash
  let (coins, undo) ← get (coins.spend txin.prevout.n.toNat) .assertion
  pure (inputs.setCoins txin.prevout.hash coins, undo)

/-- The loop of `UpdateCoins`; a coinbase spends nothing. -/
def spendInputs (tx : CTransaction) (inputs : CoinsView) : Check (CoinsView × List CTxInUndo) :=
  if tx.isCoinBase then .ok (inputs, []) else UndoLog.applyAll spendInput inputs tx.vin

def updateCoins (tx : CTransaction) (inputs : CoinsView) (nHeight : Int) (txhash : uint256) :
    Check (CoinsView × CTxUndo) := do
  let (inputs, vprevout) ← tx.spendInputs inputs
  pure (inputs.setCoins txhash (CCoins.ofTx tx nHeight), ⟨vprevout⟩)

/-! ## What success means -/

theorem getOutputFor_ok {inputs : CoinsView} {txin : CTxIn} {out : CTxOut} :
    getOutputFor inputs txin = .ok out ↔
      (inputs.coinsAt txin.prevout.hash).output txin.prevout.n.toNat = some out := by
  simp only [getOutputFor, bind_ok, require_ok, get_ok]
  constructor
  · rintro ⟨coins, hcoins, _, havail, hout⟩
    rw [CoinsView.coinsAt_of_getCoins hcoins, CCoins.output_eq_some]
    refine ⟨hout, ?_⟩
    simpa [CCoins.isAvailable, hout] using havail
  · intro h
    refine ⟨_, CoinsView.getCoins_of_output h, (), ?_, (CCoins.output_eq_some.mp h).1⟩
    rw [CCoins.isAvailable_eq, h]
    rfl

theorem haveInput_iff {inputs : CoinsView} {txin : CTxIn} : haveInput inputs txin = true ↔
    ∃ out, (inputs.coinsAt txin.prevout.hash).output txin.prevout.n.toNat = some out := by
  rw [haveInput, CCoins.isAvailable_eq, Option.isSome_iff_exists]

theorem haveInputs_iff {tx : CTransaction} {inputs : CoinsView} (hcb : tx.isCoinBase = false) :
    tx.haveInputs inputs = true ↔ ∀ txin ∈ tx.vin, haveInput inputs txin = true := by
  simp only [haveInputs, hcb, Bool.false_or, Bool.and_eq_true, List.all_eq_true]
  refine ⟨fun h => h.2, fun h => ⟨fun txin hmem => ?_, h⟩⟩
  obtain ⟨out, hout⟩ := haveInput_iff.mp (h txin hmem)
  rw [CoinsView.haveCoins, CoinsView.getCoins_ok.mp (CoinsView.getCoins_of_output hout)]
  rfl

theorem spendInput_ok {inputs inputs' : CoinsView} {txin : CTxIn} {undo : CTxInUndo} :
    spendInput inputs txin = .ok (inputs', undo) ↔
      ∃ coins, (inputs.coinsAt txin.prevout.hash).spend txin.prevout.n.toNat = some (coins, undo) ∧
        inputs' = inputs.setCoins txin.prevout.hash coins := by
  simp only [spendInput, bind_ok, get_ok, pure_ok, Prod.exists, Prod.mk.injEq]
  constructor
  · rintro ⟨coins, hcoins, coins', undo', hspend, rfl, rfl⟩
    rw [← CoinsView.coinsAt_of_getCoins hcoins] at hspend
    exact ⟨coins', hspend, rfl⟩
  · rintro ⟨coins, hspend, rfl⟩
    have hout := (CCoins.spent_of_spend hspend).txout
    exact ⟨_, CoinsView.getCoins_of_output hout, coins, undo, hspend, rfl, rfl⟩

theorem spendInput_of_haveInput {inputs : CoinsView} {txin : CTxIn}
    (h : haveInput inputs txin = true) : ∃ inputs' undo, spendInput inputs txin = .ok (inputs', undo) := by
  rw [haveInput, ← CCoins.spend_isSome, Option.isSome_iff_exists] at h
  obtain ⟨⟨coins, undo⟩, hspend⟩ := h
  exact ⟨_, undo, spendInput_ok.mpr ⟨coins, hspend, rfl⟩⟩

theorem updateCoins_ok {tx : CTransaction} {inputs inputs' : CoinsView} {nHeight : Int}
    {txhash : uint256} {txundo : CTxUndo} :
    tx.updateCoins inputs nHeight txhash = .ok (inputs', txundo) ↔
      ∃ view, tx.spendInputs inputs = .ok (view, txundo.vprevout) ∧
        inputs' = view.setCoins txhash (CCoins.ofTx tx nHeight) := by
  simp only [updateCoins, bind_ok, pure_ok, Prod.exists, Prod.mk.injEq]
  constructor
  · rintro ⟨view, vprevout, h, rfl, rfl⟩
    exact ⟨view, h, rfl⟩
  · rintro ⟨view, h, rfl⟩
    exact ⟨view, txundo.vprevout, h, rfl, rfl⟩

theorem spendInput_below {inputs inputs' : CoinsView} {txin : CTxIn} {undo : CTxInUndo}
    (h : spendInput inputs txin = .ok (inputs', undo)) : CoinsView.Below inputs' inputs := by
  obtain ⟨coins, hspend, rfl⟩ := spendInput_ok.mp h
  intro txid n out hout
  by_cases ht : txid = txin.prevout.hash
  · subst ht
    rw [CoinsView.coinsAt_setCoins_self, (CCoins.spent_of_spend hspend).output] at hout
    split at hout
    · cases hout
    · exact hout
  · rwa [CoinsView.coinsAt_setCoins_of_ne ht] at hout

theorem applyAll_spendInput_below {inputs inputs' : CoinsView} {vin : List CTxIn}
    {undos : List CTxInUndo} (h : UndoLog.applyAll spendInput inputs vin = .ok (inputs', undos)) :
    CoinsView.Below inputs' inputs :=
  UndoLog.applyAll_invariant (P := fun v => CoinsView.Below v inputs)
    (fun _ _ _ _ hs ha => (spendInput_below ha).trans hs) (CoinsView.Below.refl inputs) h

theorem spendInputs_below {tx : CTransaction} {inputs inputs' : CoinsView} {undos : List CTxInUndo}
    (h : tx.spendInputs inputs = .ok (inputs', undos)) : CoinsView.Below inputs' inputs := by
  unfold spendInputs at h
  split at h
  · cases h
    exact CoinsView.Below.refl inputs
  · exact applyAll_spendInput_below h

/-- The value of the outputs that undo records put back. -/
def undoValue (undos : List CTxInUndo) : Int := (undos.map fun undo => undo.txout.nValue).sum

/-- `GetValueIn` is the value of the outputs that `UpdateCoins` goes on to spend. -/
theorem valueInFrom_eq {inputs view view' : CoinsView} {n r : Int} {vin : List CTxIn}
    {undos : List CTxInUndo} (hbelow : CoinsView.Below view inputs)
    (hvalue : valueInFrom inputs n vin = .ok r)
    (h : UndoLog.applyAll spendInput view vin = .ok (view', undos)) : r = n + undoValue undos := by
  induction vin generalizing n view undos with
  | nil =>
    obtain ⟨-, rfl⟩ := Prod.mk.inj (UndoLog.applyAll_nil.mp h)
    simp only [valueInFrom, Except.ok.injEq] at hvalue
    simp [undoValue, hvalue]
  | cons txin vin ih =>
    obtain ⟨view1, undo, undos', h1, h2, rfl⟩ := UndoLog.applyAll_cons.mp h
    simp only [valueInFrom, bind_ok, add64_ok] at hvalue
    obtain ⟨txout, hout, nResult, ⟨rfl, -⟩, hrest⟩ := hvalue
    have hr := ih ((spendInput_below h1).trans hbelow) hrest h2
    obtain ⟨coins, hspend, -⟩ := spendInput_ok.mp h1
    have hspent := hbelow _ _ _ (CCoins.spent_of_spend hspend).txout
    rw [getOutputFor_ok.mp hout, Option.some.injEq] at hspent
    rw [hr, hspent]
    simp only [undoValue, List.map_cons, List.sum_cons]
    omega

/-- The sum that `CheckInputs` computes is the same one. -/
theorem checkInputValues_eq {inputs view view' : CoinsView} {nSpendHeight n r : Int}
    {vin : List CTxIn} {undos : List CTxInUndo} (hbelow : CoinsView.Below view inputs)
    (hvalue : checkInputValues inputs nSpendHeight n vin = .ok r)
    (h : UndoLog.applyAll spendInput view vin = .ok (view', undos)) : r = n + undoValue undos := by
  induction vin generalizing n view undos with
  | nil =>
    obtain ⟨-, rfl⟩ := Prod.mk.inj (UndoLog.applyAll_nil.mp h)
    simp only [checkInputValues, Except.ok.injEq] at hvalue
    simp [undoValue, hvalue]
  | cons txin vin ih =>
    obtain ⟨view1, undo, undos', h1, h2, rfl⟩ := UndoLog.applyAll_cons.mp h
    simp only [checkInputValues, bind_ok, get_ok, add64_ok] at hvalue
    obtain ⟨coins, hcoins, _, -, txout, hout, nResult, ⟨rfl, -⟩, _, -, hrest⟩ := hvalue
    have hr := ih ((spendInput_below h1).trans hbelow) hrest h2
    obtain ⟨_, hspend, -⟩ := spendInput_ok.mp h1
    have hspent := hbelow _ _ _ (CCoins.spent_of_spend hspend).txout
    rw [CoinsView.coinsAt_of_getCoins hcoins] at hspent
    rw [(CCoins.output_eq_some.mp hspent).1, Option.some.injEq] at hout
    rw [hr, ← hout]
    simp only [undoValue, List.map_cons, List.sum_cons]
    omega

/-- Inputs that are there and refer to different outputs can all be spent. -/
theorem applyAll_spendInput_of_haveInput {inputs : CoinsView} {vin : List CTxIn}
    (hnodup : (vin.map CTxIn.prevout).Nodup)
    (h : ∀ txin ∈ vin, haveInput inputs txin = true) :
    ∃ inputs' undos, UndoLog.applyAll spendInput inputs vin = .ok (inputs', undos) := by
  induction vin generalizing inputs with
  | nil => exact ⟨inputs, [], rfl⟩
  | cons txin vin ih =>
    rw [List.map_cons, List.nodup_cons] at hnodup
    obtain ⟨view, undo, hspend⟩ := spendInput_of_haveInput (h txin List.mem_cons_self)
    have hrest : ∀ t ∈ vin, haveInput view t = true := by
      intro t ht
      obtain ⟨out, hout⟩ := haveInput_iff.mp (h t (List.mem_cons_of_mem _ ht))
      obtain ⟨coins, hs, rfl⟩ := spendInput_ok.mp hspend
      refine haveInput_iff.mpr ⟨out, ?_⟩
      by_cases hh : t.prevout.hash = txin.prevout.hash
      · have hn : t.prevout.n.toNat ≠ txin.prevout.n.toNat := by
          intro hn
          have : t.prevout = txin.prevout := by
            cases ht' : t.prevout
            cases hx : txin.prevout
            rw [ht', hx] at hh hn
            rw [COutPoint.mk.injEq]
            exact ⟨hh, UInt32.toNat_inj.mp hn⟩
          exact hnodup.1 (this ▸ List.mem_map_of_mem ht)
        rw [hh, CoinsView.coinsAt_setCoins_self, (CCoins.spent_of_spend hs).output, if_neg hn, ← hh]
        exact hout
      · rwa [CoinsView.coinsAt_setCoins_of_ne hh]
    obtain ⟨view', undos, happly⟩ := ih hnodup.2 hrest
    exact ⟨view', undo :: undos, UndoLog.applyAll_cons.mpr ⟨view, undo, undos, hspend, happly, rfl⟩⟩

end CTransaction

end Terracoin
