import Terracoin.Validation.CheckBlock
import Terracoin.Validation.Inputs

/-!
# `CTxMemPool`

The pool of unconfirmed transactions: `addUnchecked`, `remove`, `removeConflicts` and `accept`, with
the standardness tests and `GetMinFee`, and the view `CCoinsViewMemPool` that puts the pool on top
of the coins.

`remove` follows the spenders of the outputs it removes. A pool whose transactions depend on each
other in a circle would send it round for ever, so it takes fuel here, and `none` is a call that
does not return.
-/

namespace Terracoin

open Checked

/-! ## The pool -/

/-- `CInPoint`: an input of a transaction of the pool. The pointer `ptx` into `mapTx` is the key of
the entry it points to. -/
structure CInPoint where
  ptx : uint256
  n : Nat
deriving DecidableEq, Repr

structure CTxMemPool where
  mapTx : uint256 → Option CTransaction
  mapNextTx : COutPoint → Option CInPoint

namespace CTxMemPool

def empty : CTxMemPool := ⟨fun _ => none, fun _ => none⟩

/-- `mapNextTx[vin[i].prevout] = CInPoint(&mapTx[hash], i)` for the inputs from number `n` on. -/
def addInputs (hash : uint256) :
    (COutPoint → Option CInPoint) → Nat → List CTxIn → COutPoint → Option CInPoint
  | mapNextTx, _, [] => mapNextTx
  | mapNextTx, n, txin :: vin =>
    addInputs hash (Function.update mapNextTx txin.prevout (some ⟨hash, n⟩)) (n + 1) vin

def addUnchecked (pool : CTxMemPool) (hash : uint256) (tx : CTransaction) : CTxMemPool where
  mapTx := Function.update pool.mapTx hash (some tx)
  mapNextTx := addInputs hash pool.mapNextTx 0 tx.vin

/-- `mapNextTx.erase(txin.prevout)` for every input. -/
def eraseInputs (mapNextTx : COutPoint → Option CInPoint) (vin : List CTxIn) :
    COutPoint → Option CInPoint :=
  vin.foldl (fun mapNextTx txin => Function.update mapNextTx txin.prevout none) mapNextTx

/-- What `remove` does to the transaction itself. -/
def erase (pool : CTxMemPool) (hash : uint256) (tx : CTransaction) : CTxMemPool where
  mapTx := Function.update pool.mapTx hash none
  mapNextTx := eraseInputs pool.mapNextTx tx.vin

def removeSpender (remove : CTxMemPool → CTransaction → Option CTxMemPool) (pool : CTxMemPool)
    (o : COutPoint) : Option CTxMemPool :=
  match pool.mapNextTx o with
  | none => some pool
  | some it => (pool.mapTx it.ptx).bind (remove pool)

/-- The spenders of the outputs from number `i` on. -/
def removeSpenders (remove : CTxMemPool → CTransaction → Option CTxMemPool) (hash : uint256) :
    CTxMemPool → Nat → Nat → Option CTxMemPool
  | pool, _, 0 => some pool
  | pool, i, n + 1 => do
    let pool ← removeSpender remove pool ⟨hash, UInt32.ofNat i⟩
    removeSpenders remove hash pool (i + 1) n

section

variable [Hashing]

/-- `remove(tx, fRecursive)`. -/
def remove : Nat → CTxMemPool → CTransaction → Bool → Option CTxMemPool
  | 0, _, _, _ => none
  | fuel + 1, pool, tx, fRecursive =>
    if (pool.mapTx tx.getHash).isNone then some pool
    else do
      let pool ← cond fRecursive
        (removeSpenders (fun pool tx => remove fuel pool tx true) tx.getHash pool 0 tx.vout.length)
        (some pool)
      pure (pool.erase tx.getHash tx)

/-- Remove the transaction that spends the output, unless it is `tx`. -/
def removeConflict (fuel : Nat) (tx : CTransaction) (pool : CTxMemPool) (o : COutPoint) :
    Option CTxMemPool :=
  removeSpender (fun pool txConflict =>
    if txConflict = tx then some pool else remove fuel pool txConflict true) pool o

def removeConflicts (fuel : Nat) (pool : CTxMemPool) (tx : CTransaction) : Option CTxMemPool :=
  tx.vin.foldlM (fun pool txin => removeConflict fuel tx pool txin.prevout) pool

end

def memPoolHeight : Int := 0x7FFFFFFF

/-- `CCoinsViewMemPool(base, pool)`, as its `GetCoins` shows it: an entry of `base` comes first,
even a pruned one. -/
def view (pool : CTxMemPool) (base : CoinsView) : CoinsView where
  coins txid := (base.coins txid).or
    ((pool.mapTx txid).map fun tx => CCoins.ofTx tx memPoolHeight)
  pindexTip := base.pindexTip

end CTxMemPool

namespace CTransaction

def lockTimeThreshold : Int := 500000000

/-- `IsFinal(nBlockHeight, nBlockTime)` with both given. -/
def isFinalAt (tx : CTransaction) (nBlockHeight nBlockTime : Int) : Bool :=
  tx.nLockTime == 0 ||
    decide ((tx.nLockTime.toNat : Int) <
      if (tx.nLockTime.toNat : Int) < lockTimeThreshold then nBlockHeight else nBlockTime) ||
    tx.vin.all CTxIn.isFinal

/-- `IsStandard()`, which takes height and time from `nBestHeight` and the clock. -/
def isStandard [ScriptEngine] (tx : CTransaction) (nBestHeight nAdjustedTime : Int) : Bool :=
  decide (tx.nVersion ≤ 1) && tx.isFinalAt nBestHeight nAdjustedTime &&
    decide (tx.getSerializeSize < maxStandardTxSize) &&
    tx.vin.all (fun txin => decide (txin.scriptSig.length ≤ 500) &&
      CScript.isPushOnly txin.scriptSig) &&
    tx.vout.all (fun txout => ScriptEngine.isStandardScript txout.scriptPubKey &&
      decide (txout.nValue ≠ 0))

def areInputsStandardFrom [ScriptEngine] (tx : CTransaction) (mapInputs : CoinsView) :
    Nat → List CTxIn → Check Bool
  | _, [] => .ok true
  | nIn, txin :: vin => do
    let prev ← getOutputFor mapInputs txin
    if ScriptEngine.isStandardInput tx nIn prev then areInputsStandardFrom tx mapInputs (nIn + 1) vin
    else .ok false

def areInputsStandard [ScriptEngine] (tx : CTransaction) (mapInputs : CoinsView) : Check Bool :=
  if tx.isCoinBase then .ok true else areInputsStandardFrom tx mapInputs 0 tx.vin

def minTxFee : Int := 50000
def minRelayTxFee : Int := 10000
def cent : Int := 1000000

/-- `GetMinFee`; `fRelay` for the mode `GMF_RELAY`. -/
def getMinFee (tx : CTransaction) (nBlockSize : Nat) (fAllowFree fRelay : Bool) : Int :=
  let nBaseFee := if fRelay then minRelayTxFee else minTxFee
  let nBytes := tx.getSerializeSize
  let nNewBlockSize := nBlockSize + nBytes
  let nMinFee : Int := (1 + (nBytes / 1000 : Nat)) * nBaseFee
  -- small transactions, and the first ones of a block, are free
  let nMinFee :=
    if fAllowFree && (if nBlockSize = 1 then nBytes < 10000 else nNewBlockSize < 27000) then 0
    else nMinFee
  let nMinFee :=
    if nMinFee < nBaseFee && tx.vout.any (fun txout => decide (txout.nValue < cent)) then nBaseFee
    else nMinFee
  -- the price goes up as the block fills
  if nBlockSize ≠ 1 ∧ maxBlockSizeGen / 2 ≤ nNewBlockSize ∧ maxBlockSizeGen ≤ nNewBlockSize then
    maxMoney
  else
    let nMinFee :=
      if nBlockSize ≠ 1 ∧ maxBlockSizeGen / 2 ≤ nNewBlockSize then
        nMinFee * (maxBlockSizeGen / (maxBlockSizeGen - nNewBlockSize) : Nat)
      else nMinFee
    if moneyRange nMinFee then nMinFee else maxMoney

end CTransaction

/-! ## Accepting a transaction -/

/-- What `accept` takes from outside the pool and the coins: the height of the best block, the
clock, and whether the rate limiter for free transactions refuses this one. -/
structure AcceptEnv where
  nBestHeight : Int
  nAdjustedTime : Int
  fRateLimited : Bool
deriving DecidableEq, Repr

namespace CTxMemPool

variable [Hashing] [ScriptEngine] [NodeConfig]

/-- The checks of `accept` that come with `fCheckInputs`, on the view of pool and coins. -/
def acceptInputs (env : AcceptEnv) (view : CoinsView) (tx : CTransaction) (fLimitFree : Bool) :
    Check Unit := do
  require (!view.haveCoins tx.getHash) (.error "")
  require (tx.vin.all fun txin => view.haveCoins txin.prevout.hash) (.error "")
  require (tx.haveInputs view) (.DoS 0 "CTxMemPool::accept() : inputs already spent")
  let fInputsStandard ← tx.areInputsStandard view
  require (fInputsStandard || NodeConfig.fTestNet)
    (.error "CTxMemPool::accept() : nonstandard transaction input")
  let nValueIn ← tx.getValueIn view
  let nValueOut ← tx.getValueOut
  let nFees ← add64 .overflow nValueIn (-nValueOut)
  require (!(fLimitFree && decide (nFees < tx.getMinFee 1000 true true)))
    (.error "CTxMemPool::accept() : not enough fees %s, %d < %d")
  require (!(fLimitFree && decide (nFees < CTransaction.minRelayTxFee) && env.fRateLimited))
    (.error "CTxMemPool::accept() : free transaction rejected by rate limiter")
  let _ ← tx.checkInputs view true SCRIPT_VERIFY_P2SH false
  pure ()

/-- `accept`. A transaction that is in the pool already, or that spends an output which a
transaction of the pool spends, is refused without a message. -/
def accept (env : AcceptEnv) (pool : CTxMemPool) (coinsTip : CoinsView) (tx : CTransaction)
    (fCheckInputs fLimitFree : Bool) : Check CTxMemPool := do
  tx.checkTransaction
  require (!tx.isCoinBase) (.DoS 100 "CTxMemPool::accept() : coinbase as individual tx")
  require (decide (tx.nLockTime.toNat ≤ 2147483647))
    (.error "CTxMemPool::accept() : not accepting nLockTime beyond 2038 yet")
  require (NodeConfig.fTestNet || tx.isStandard env.nBestHeight env.nAdjustedTime)
    (.error "CTxMemPool::accept() : nonstandard transaction type")
  require (pool.mapTx tx.getHash).isNone (.error "")
  require (tx.vin.all fun txin => (pool.mapNextTx txin.prevout).isNone) (.error "")
  cond fCheckInputs (acceptInputs env (pool.view coinsTip) tx fLimitFree) (.ok ())
  pure (pool.addUnchecked tx.getHash tx)

/-- The tests of `accept` that come before those of the inputs. -/
def preAccept (env : AcceptEnv) (pool : CTxMemPool) (tx : CTransaction) : Check Unit := do
  tx.checkTransaction
  require (!tx.isCoinBase) (.DoS 100 "CTxMemPool::accept() : coinbase as individual tx")
  require (decide (tx.nLockTime.toNat ≤ 2147483647))
    (.error "CTxMemPool::accept() : not accepting nLockTime beyond 2038 yet")
  require (NodeConfig.fTestNet || tx.isStandard env.nBestHeight env.nAdjustedTime)
    (.error "CTxMemPool::accept() : nonstandard transaction type")
  require (pool.mapTx tx.getHash).isNone (.error "")
  require (tx.vin.all fun txin => (pool.mapNextTx txin.prevout).isNone) (.error "")

/-- `*pfMissingInputs` after `accept` with `fCheckInputs`: the call got as far as the inputs, the
transaction itself is not there and one that it spends is not there either. -/
def missingInputs (env : AcceptEnv) (pool : CTxMemPool) (coinsTip : CoinsView)
    (tx : CTransaction) : Bool :=
  (preAccept env pool tx).isOk && !(pool.view coinsTip).haveCoins tx.getHash &&
    !(tx.vin.all fun txin => (pool.view coinsTip).haveCoins txin.prevout.hash)

theorem accept_eq (env : AcceptEnv) (pool : CTxMemPool) (coinsTip : CoinsView) (tx : CTransaction)
    (fCheckInputs fLimitFree : Bool) :
    accept env pool coinsTip tx fCheckInputs fLimitFree = (do
      preAccept env pool tx
      cond fCheckInputs (acceptInputs env (pool.view coinsTip) tx fLimitFree) (.ok ())
      pure (pool.addUnchecked tx.getHash tx)) := by
  simp only [accept, preAccept, bind_assoc]

/-- The facts about pool, coins and transaction that `accept` with `fCheckInputs` establishes and
later results use. -/
structure Acceptable (pool : CTxMemPool) (coinsTip : CoinsView) (tx : CTransaction) : Prop where
  checked : tx.Checked
  notCoinBase : tx.isCoinBase = false
  notInPool : pool.mapTx tx.getHash = none
  noConflict : ∀ txin ∈ tx.vin, pool.mapNextTx txin.prevout = none
  notInCoins : coinsTip.coins tx.getHash = none
  haveInputs : ∀ txin ∈ tx.vin, CTransaction.haveInput (pool.view coinsTip) txin = true

theorem acceptable_of_accept {env : AcceptEnv} {pool pool' : CTxMemPool} {coinsTip : CoinsView}
    {tx : CTransaction} {fLimitFree : Bool}
    (h : accept env pool coinsTip tx true fLimitFree = .ok pool') :
    Acceptable pool coinsTip tx ∧ pool' = pool.addUnchecked tx.getHash tx := by
  simp only [accept, bind_ok, require_ok, pure_ok, cond_true] at h
  obtain ⟨_, hcheck, _, hcb, _, -, _, -, _, hpool, _, hconflict, _, hinputs, rfl⟩ := h
  simp only [acceptInputs, bind_ok, require_ok] at hinputs
  obtain ⟨_, hcoins, _, -, _, hhave, -⟩ := hinputs
  have hcb : tx.isCoinBase = false := by simpa using hcb
  refine ⟨⟨CTransaction.checked_of_checkTransaction hcheck, hcb, by simpa using hpool, ?_, ?_, ?_⟩,
    rfl⟩
  · intro txin htxin
    simpa using List.all_eq_true.mp hconflict txin htxin
  · have hnone : (pool.view coinsTip).coins tx.getHash = none := by
      simpa [CoinsView.haveCoins] using hcoins
    rw [view, Option.or_eq_none_iff] at hnone
    exact hnone.1
  · exact (CTransaction.haveInputs_iff hcb).mp hhave

end CTxMemPool

end Terracoin
