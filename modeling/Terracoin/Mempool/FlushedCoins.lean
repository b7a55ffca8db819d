import Terracoin.Coins.Refinement
import Terracoin.Mempool.Pool
import Terracoin.Validation.ConnectBlock

/-!
# Accepting a transaction before and after a flush

`CTxMemPool::accept` asks `*pcoinsTip` for entries and does not ask whether an entry has an output
left. An entry without one is in the cache until `Flush` hands it to the database, which erases it.
From then on the same call meets no entry, or the transaction of the pool that was hidden behind
it. `FlushHarmless` says when the two calls end alike.

`ConnectBlock` and `DisconnectBlock` compare such an entry with `IsPruned`; this call does not.
-/

namespace Terracoin

open Checked

/-! ## Entries without outputs -/

namespace CoinsView

variable {view : CoinsView} {txid : uint256}

/-- There is an entry, and none of its outputs is left. -/
def havePruned (view : CoinsView) (txid : uint256) : Bool := (view.coins txid).any CCoins.isPruned

theorem havePruned_of_none (h : view.coins txid = none) : view.havePruned txid = false := by
  rw [havePruned, h]
  rfl

theorem coins_dropPruned_of_not (h : view.havePruned txid = false) :
    view.dropPruned.coins txid = view.coins txid := by
  unfold havePruned at h
  unfold dropPruned
  dsimp only
  cases hc : view.coins txid with
  | none => rfl
  | some c =>
    rw [hc, Option.any_some] at h
    rw [Option.filter_some, h]
    rfl

theorem coins_dropPruned_of_havePruned (h : view.havePruned txid = true) :
    view.dropPruned.coins txid = none := by
  obtain ⟨c, hc, hp⟩ := (Option.any_eq_true _ _).mp h
  unfold dropPruned
  dsimp only
  rw [hc, Option.filter_some, hp]
  rfl

end CoinsView

section

variable [Hashing] [BlockIndexMap]

/-- After a flush to the database a view shows the same entries without the pruned ones. -/
theorem CCoinsStack.view_flush (c : CCoinsViewCache) (d : CCoinsViewDB) :
    (flush c (.db d) true).1.view = (cache c (.db d)).view.dropPruned := by
  have hflush : flush c (.db d) true =
      (.cache { c with cacheCoins := fun _ => none } (.db (d.batchWrite c.cacheCoins c.pindexTip)),
        true) := rfl
  rw [hflush]
  unfold view CoinsView.dropPruned
  congr 1
  · funext txid
    dsimp only [view]
    rw [Option.none_or, d.batchWrite_coins]
    cases hc : c.cacheCoins txid with
    | some coins =>
      dsimp only
      rw [Option.some_or, Option.filter_some]
      cases coins.isPruned <;> rfl
    | none =>
      dsimp only
      rw [Option.none_or]
      cases hd : d.coins txid with
      | none => rfl
      | some coins =>
        rw [Option.filter_some, d.unpruned txid coins hd]
        rfl
  · dsimp only [view]
    rw [CCoinsViewDB.getBestBlock, d.batchWrite_hashBestChain]
    cases c.pindexTip with
    | some pindex => rfl
    | none => rfl

end

/-! ## What is read of a view -/

namespace CTransaction

/-- Two views have the same entries for the transactions that `tx` spends. -/
structure SameInputs (v w : CoinsView) (vin : List CTxIn) : Prop where
  coins : ∀ txin ∈ vin, v.coins txin.prevout.hash = w.coins txin.prevout.hash
  pindexTip : v.pindexTip = w.pindexTip

variable {v w : CoinsView} {tx : CTransaction} {txin : CTxIn} {vin : List CTxIn}

theorem SameInputs.head (h : SameInputs v w (txin :: vin)) :
    v.coins txin.prevout.hash = w.coins txin.prevout.hash :=
  h.coins txin List.mem_cons_self

theorem SameInputs.tail (h : SameInputs v w (txin :: vin)) : SameInputs v w vin :=
  ⟨fun txin' hmem => h.coins txin' (List.mem_cons_of_mem _ hmem), h.pindexTip⟩

theorem SameInputs.getOutputFor (h : SameInputs v w (txin :: vin)) :
    getOutputFor v txin = getOutputFor w txin := by
  unfold CTransaction.getOutputFor CoinsView.getCoins
  rw [h.head]

theorem SameInputs.areInputsStandardFrom [ScriptEngine] (h : SameInputs v w vin) (nIn : Nat) :
    areInputsStandardFrom tx v nIn vin = areInputsStandardFrom tx w nIn vin := by
  induction vin generalizing nIn with
  | nil => rfl
  | cons txin vin ih =>
    unfold CTransaction.areInputsStandardFrom
    rw [h.getOutputFor]
    simp only [ih h.tail]

theorem SameInputs.valueInFrom (h : SameInputs v w vin) (nResult : Int) :
    valueInFrom v nResult vin = valueInFrom w nResult vin := by
  induction vin generalizing nResult with
  | nil => rfl
  | cons txin vin ih =>
    unfold CTransaction.valueInFrom
    rw [h.getOutputFor]
    simp only [ih h.tail]

theorem SameInputs.checkInputValues (h : SameInputs v w vin) (nSpendHeight nValueIn : Int) :
    checkInputValues v nSpendHeight nValueIn vin = checkInputValues w nSpendHeight nValueIn vin := by
  induction vin generalizing nValueIn with
  | nil => rfl
  | cons txin vin ih =>
    unfold CTransaction.checkInputValues CoinsView.getCoins
    rw [h.head]
    simp only [ih h.tail]

theorem SameInputs.scriptChecks (h : SameInputs v w vin) (flags nIn : Nat) :
    scriptChecks tx v flags nIn vin = scriptChecks tx w flags nIn vin := by
  induction vin generalizing nIn with
  | nil => rfl
  | cons txin vin ih =>
    unfold CTransaction.scriptChecks CoinsView.getCoins
    rw [h.head]
    simp only [ih h.tail]

theorem SameInputs.all {p q : CTxIn → Bool} (h : SameInputs v w vin)
    (hpq : ∀ txin : CTxIn, v.coins txin.prevout.hash = w.coins txin.prevout.hash →
      p txin = q txin) : vin.all p = vin.all q := by
  induction vin with
  | nil => rfl
  | cons txin vin ih => rw [List.all_cons, List.all_cons, ih h.tail, hpq txin h.head]

theorem SameInputs.allHaveCoins (h : SameInputs v w vin) :
    vin.all (fun txin => v.haveCoins txin.prevout.hash) =
      vin.all fun txin => w.haveCoins txin.prevout.hash :=
  h.all fun txin hcoins => by rw [CoinsView.haveCoins, CoinsView.haveCoins, hcoins]

theorem SameInputs.haveInputs (h : SameInputs v w tx.vin) : tx.haveInputs v = tx.haveInputs w := by
  have hall : tx.vin.all (haveInput v) = tx.vin.all (haveInput w) :=
    h.all fun txin hcoins => by
      rw [haveInput, haveInput, CoinsView.coinsAt, CoinsView.coinsAt, hcoins]
  rw [CTransaction.haveInputs, CTransaction.haveInputs, h.allHaveCoins, hall]

theorem SameInputs.checkInputs [ScriptEngine] (h : SameInputs v w tx.vin)
    (fScriptChecks : Bool) (flags : Nat) (fQueue : Bool) :
    tx.checkInputs v fScriptChecks flags fQueue = tx.checkInputs w fScriptChecks flags fQueue := by
  unfold CTransaction.checkInputs CoinsView.getBestBlock
  rw [h.haveInputs, h.pindexTip]
  simp only [h.checkInputValues, h.scriptChecks]

/-! ## How the tests of the inputs fail -/

variable {inputs : CoinsView} {e : Failure}

theorem getOutputFor_avoids (he : .assertion ≠ e) : Avoids e (getOutputFor inputs txin) :=
  avoids_bind (avoids_get he) fun _ _ => avoids_bind (avoids_require he) fun _ _ => avoids_get he

theorem areInputsStandard_avoids [ScriptEngine] (he : .assertion ≠ e) :
    Avoids e (tx.areInputsStandard inputs) := by
  have hfrom : ∀ nIn vin, Avoids e (areInputsStandardFrom tx inputs nIn vin) := by
    intro nIn vin
    induction vin generalizing nIn with
    | nil => exact avoids_ok
    | cons txin vin ih =>
      exact avoids_bind (getOutputFor_avoids he) fun _ _ =>
        avoids_ite (fun _ => ih _) fun _ => avoids_ok
  exact avoids_ite (fun _ => avoids_ok) fun _ => hfrom 0 tx.vin

theorem getValueIn_avoids (he : .assertion ≠ e) (he' : .overflow ≠ e) :
    Avoids e (tx.getValueIn inputs) := by
  have hfrom : ∀ nResult vin, Avoids e (valueInFrom inputs nResult vin) := by
    intro nResult vin
    induction vin generalizing nResult with
    | nil => exact avoids_ok
    | cons txin vin ih =>
      exact avoids_bind (getOutputFor_avoids he) fun _ _ =>
        avoids_bind (avoids_add64_of_ne he') fun _ _ => ih _
  exact avoids_ite (fun _ => avoids_ok) fun _ => hfrom 0 tx.vin

theorem getValueOut_avoids (he : .overflow ≠ e) (he' : ∀ message, .runtimeError message ≠ e) :
    Avoids e tx.getValueOut := by
  have hfrom : ∀ nValueOut vout, Avoids e (valueOutFrom nValueOut vout) := by
    intro nValueOut vout
    induction vout generalizing nValueOut with
    | nil => exact avoids_ok
    | cons txout vout ih =>
      exact avoids_bind (avoids_add64_of_ne he) fun _ _ =>
        avoids_bind (avoids_require (he' _)) fun _ _ => ih _
  exact hfrom 0 tx.vout

theorem scriptChecks_avoids (he : .assertion ≠ e) {flags nIn : Nat} :
    Avoids e (scriptChecks tx inputs flags nIn vin) := by
  induction vin generalizing nIn with
  | nil => exact avoids_ok
  | cons txin vin ih =>
    exact avoids_bind (avoids_get he) fun _ _ => avoids_bind (avoids_get he) fun _ _ =>
      avoids_bind ih fun _ _ => avoids_pure

theorem checkInputValues_avoids (he : .assertion ≠ e) (he' : .overflow ≠ e)
    (hDoS : ∀ level message, .DoS level message ≠ e) {nSpendHeight nValueIn : Int} :
    Avoids e (checkInputValues inputs nSpendHeight nValueIn vin) := by
  induction vin generalizing nValueIn with
  | nil => exact avoids_ok
  | cons txin vin ih =>
    exact avoids_bind (avoids_get he) fun _ _ => avoids_bind (avoids_require (hDoS _ _)) fun _ _ =>
      avoids_bind (avoids_get he) fun _ _ => avoids_bind (avoids_add64_of_ne he') fun _ _ =>
      avoids_bind (avoids_require (hDoS _ _)) fun _ _ => ih

/-- `CheckInputs` reports every refusal in the validation state. -/
theorem checkInputs_avoids [ScriptEngine] {message : String} {fScriptChecks fQueue : Bool}
    {flags : Nat} : Avoids (.error message) (tx.checkInputs inputs fScriptChecks flags fQueue) := by
  refine avoids_ite (fun _ => avoids_ok) fun _ => ?_
  refine avoids_bind (avoids_require nofun) fun _ _ => ?_
  refine avoids_bind (avoids_get nofun) fun _ _ => ?_
  refine avoids_bind (checkInputValues_avoids (e := .error message) nofun nofun nofun) fun _ _ => ?_
  refine avoids_bind (getValueOut_avoids nofun nofun) fun _ _ => ?_
  refine avoids_bind (avoids_require nofun) fun _ _ => ?_
  refine avoids_bind (avoids_add64_of_ne nofun) fun _ _ => ?_
  refine avoids_bind (avoids_require nofun) fun _ _ => ?_
  refine avoids_bind (avoids_require nofun) fun _ _ => ?_
  refine avoids_ite (fun _ => ?_) fun _ => avoids_ok
  refine avoids_bind (scriptChecks_avoids (e := .error message) nofun) fun _ _ => ?_
  exact avoids_ite (fun _ => avoids_ok) fun _ =>
    avoids_bind (avoids_require nofun) fun _ _ => avoids_pure

end CTransaction

/-! ## How a call ends -/

/-- The failure as the caller sees it: the text about a refused transaction goes to the log. -/
def Failure.logged : Failure → Failure
  | .DoS level _ => .DoS level ""
  | .error _ => .error ""
  | e => e

theorem Failure.logged_eq_error {e : Failure} : e.logged = .error "" ↔ ∃ message, e = .error message := by
  cases e <;> simp [Failure.logged]

theorem Failure.logged_eq_DoS {e : Failure} {level : Nat} :
    e.logged = .DoS level "" ↔ ∃ message, e = .DoS level message := by
  cases e <;> simp [Failure.logged]

namespace CTxMemPool

/-- The outcome of `accept` with `fCheckInputs`: what it returns, with the pool or the validation
state, and `*pfMissingInputs`. -/
structure Verdict where
  result : Except Failure CTxMemPool
  fMissingInputs : Bool

variable [Hashing] [ScriptEngine] [NodeConfig]

def verdict (env : AcceptEnv) (pool : CTxMemPool) (coinsTip : CoinsView) (tx : CTransaction)
    (fLimitFree : Bool) : Verdict where
  result := (accept env pool coinsTip tx true fLimitFree).mapError Failure.logged
  fMissingInputs := missingInputs env pool coinsTip tx

/-- The tests between those of the inputs and `CheckInputs`: standard inputs, the fee and the rate
limiter. -/
def checkRelay (env : AcceptEnv) (view : CoinsView) (tx : CTransaction) (fLimitFree : Bool) :
    Check Unit := do
  let fInputsStandard ← tx.areInputsStandard view
  require (fInputsStandard || NodeConfig.fTestNet)
    (.error "CTxMemPool::accept() : nonstandard transaction input")
  let nValueIn ← tx.getValueIn view
  let nValueOut ← tx.getValueOut
  let nFees ← add64 .overflow nValueIn (-nValueOut)
  require (!(fLimitFree && decide (nFees < tx.getMinFee 1000 true true)))
    (.error "CTxMemPool::accept() : not enough fees %s, %d < %d")
  require (!(fLimitFree && decide (nFees < CTransaction.minRelayTxFee) && env.fRateLimited))
    (.error "CTxMemPool::accept() : free transaction rejected by rate limiter")

def checkAvailable (env : AcceptEnv) (view : CoinsView) (tx : CTransaction) (fLimitFree : Bool) :
    Check Unit := do
  checkRelay env view tx fLimitFree
  let _ ← tx.checkInputs view true SCRIPT_VERIFY_P2SH false
  pure ()

variable {env : AcceptEnv} {pool : CTxMemPool} {view v w : CoinsView} {tx : CTransaction}
  {fLimitFree : Bool}

theorem acceptInputs_eq : acceptInputs env view tx fLimitFree = (do
    require (!view.haveCoins tx.getHash) (.error "")
    require (tx.vin.all fun txin => view.haveCoins txin.prevout.hash) (.error "")
    require (tx.haveInputs view) (.DoS 0 "CTxMemPool::accept() : inputs already spent")
    checkAvailable env view tx fLimitFree) := by
  simp only [acceptInputs, checkAvailable, checkRelay, bind_assoc]

omit [Hashing] in
theorem checkAvailable_congr (h : CTransaction.SameInputs v w tx.vin) :
    checkAvailable env v tx fLimitFree = checkAvailable env w tx fLimitFree := by
  have hrelay : checkRelay env v tx fLimitFree = checkRelay env w tx fLimitFree := by
    unfold checkRelay CTransaction.areInputsStandard CTransaction.getValueIn
    rw [h.areInputsStandardFrom, h.valueInFrom]
  rw [checkAvailable, checkAvailable, hrelay, h.checkInputs]

/-! ## The endings -/

theorem verdict_of_error {e : Failure} (hpre : preAccept env pool tx = .error e) :
    verdict env pool view tx fLimitFree = ⟨.error e.logged, false⟩ := by
  rw [verdict, accept_eq, missingInputs, hpre]
  rfl

theorem verdict_of_ok (hpre : preAccept env pool tx = .ok ()) :
    verdict env pool view tx fLimitFree =
      ⟨((acceptInputs env (pool.view view) tx fLimitFree).map fun _ =>
          pool.addUnchecked tx.getHash tx).mapError Failure.logged,
        !(pool.view view).haveCoins tx.getHash &&
          !(tx.vin.all fun txin => (pool.view view).haveCoins txin.prevout.hash)⟩ := by
  rw [verdict, accept_eq, missingInputs, hpre]
  cases acceptInputs env (pool.view view) tx fLimitFree <;> rfl

theorem verdict_of_known (hpre : preAccept env pool tx = .ok ())
    (hhave : (pool.view view).haveCoins tx.getHash = true) :
    verdict env pool view tx fLimitFree = ⟨.error (.error ""), false⟩ := by
  rw [verdict_of_ok hpre, acceptInputs_eq, hhave]
  rfl

theorem verdict_of_missing (hpre : preAccept env pool tx = .ok ())
    (hhave : (pool.view view).haveCoins tx.getHash = false)
    (hall : (tx.vin.all fun txin => (pool.view view).haveCoins txin.prevout.hash) = false) :
    verdict env pool view tx fLimitFree = ⟨.error (.error ""), true⟩ := by
  rw [verdict_of_ok hpre, acceptInputs_eq, hhave, hall]
  rfl

theorem verdict_of_unavailable (hpre : preAccept env pool tx = .ok ())
    (hhave : (pool.view view).haveCoins tx.getHash = false)
    (hall : (tx.vin.all fun txin => (pool.view view).haveCoins txin.prevout.hash) = true)
    (hinputs : tx.haveInputs (pool.view view) = false) :
    verdict env pool view tx fLimitFree = ⟨.error (.DoS 0 ""), false⟩ := by
  rw [verdict_of_ok hpre, acceptInputs_eq, hhave, hall, hinputs]
  rfl

omit [Hashing] [ScriptEngine] [NodeConfig] in
theorem allHaveCoins_of_haveInputs (hcb : tx.isCoinBase = false)
    (hinputs : tx.haveInputs view = true) :
    (tx.vin.all fun txin => view.haveCoins txin.prevout.hash) = true := by
  rw [CTransaction.haveInputs, hcb, Bool.false_or, Bool.and_eq_true] at hinputs
  exact hinputs.1

theorem not_isCoinBase_of_preAccept (hpre : preAccept env pool tx = .ok ()) :
    tx.isCoinBase = false := by
  simp only [preAccept, bind_ok, require_ok] at hpre
  obtain ⟨_, -, _, hcb, -⟩ := hpre
  simpa using hcb

theorem mapTx_of_preAccept (hpre : preAccept env pool tx = .ok ()) :
    pool.mapTx tx.getHash = none := by
  simp only [preAccept, bind_ok, require_ok] at hpre
  obtain ⟨_, -, _, -, _, -, _, -, _, hpool, -⟩ := hpre
  simpa using hpool

theorem verdict_of_available (hpre : preAccept env pool tx = .ok ())
    (hhave : (pool.view view).haveCoins tx.getHash = false)
    (hinputs : tx.haveInputs (pool.view view) = true) :
    verdict env pool view tx fLimitFree =
      ⟨((checkAvailable env (pool.view view) tx fLimitFree).map fun _ =>
          pool.addUnchecked tx.getHash tx).mapError Failure.logged, false⟩ := by
  have hall := allHaveCoins_of_haveInputs (not_isCoinBase_of_preAccept hpre) hinputs
  rw [verdict_of_ok hpre, acceptInputs_eq, hhave, hall, hinputs]
  rfl

omit [Hashing] in
theorem checkRelay_avoids {level : Nat} {message : String} :
    Avoids (.DoS level message) (checkRelay env view tx fLimitFree) := by
  refine avoids_bind (CTransaction.areInputsStandard_avoids nofun) fun _ _ => ?_
  refine avoids_bind (avoids_require nofun) fun _ _ => ?_
  refine avoids_bind (CTransaction.getValueIn_avoids nofun nofun) fun _ _ => ?_
  refine avoids_bind (CTransaction.getValueOut_avoids nofun nofun) fun _ _ => ?_
  refine avoids_bind (avoids_add64_of_ne nofun) fun _ _ => ?_
  exact avoids_bind (avoids_require nofun) fun _ _ => avoids_require nofun

omit [Hashing] in
theorem checkAvailable_error :
    (∃ message, checkAvailable env view tx fLimitFree = .error (.error message)) ↔
      ∃ message, checkRelay env view tx fLimitFree = .error (.error message) := by
  refine exists_congr fun message => ?_
  rw [checkAvailable, bind_error]
  refine ⟨fun h => h.resolve_right ?_, .inl⟩
  rintro ⟨_, -, hinputs⟩
  exact avoids_bind CTransaction.checkInputs_avoids (fun _ _ => avoids_pure) hinputs

omit [Hashing] in
/-- They are reported as merely invalid exactly if `CheckInputs` does it. -/
theorem checkAvailable_DoS {level : Nat} :
    (∃ message, checkAvailable env view tx fLimitFree = .error (.DoS level message)) ↔
      checkRelay env view tx fLimitFree = .ok () ∧ ∃ message,
        tx.checkInputs view true SCRIPT_VERIFY_P2SH false = .error (.DoS level message) := by
  rw [← exists_and_left]
  refine exists_congr fun message => ?_
  rw [checkAvailable, bind_error]
  constructor
  · rintro (hrelay | ⟨_, hrelay, hinputs⟩)
    · exact (checkRelay_avoids hrelay).elim
    · exact ⟨hrelay, (bind_error.mp hinputs).resolve_right fun ⟨_, _, h⟩ => avoids_pure h⟩
  · rintro ⟨hrelay, hinputs⟩
    exact .inr ⟨(), hrelay, bind_error.mpr (.inl hinputs)⟩

theorem verdict_available_iff {e : Failure} (hpre : preAccept env pool tx = .ok ())
    (hhave : (pool.view view).haveCoins tx.getHash = false)
    (hinputs : tx.haveInputs (pool.view view) = true) :
    verdict env pool view tx fLimitFree = ⟨.error e, false⟩ ↔
      ∃ e', checkAvailable env (pool.view view) tx fLimitFree = .error e' ∧ e'.logged = e := by
  rw [verdict_of_available hpre hhave hinputs]
  cases checkAvailable env (pool.view view) tx fLimitFree with
  | ok u => simp [Except.map, Except.mapError]
  | error e' => simp [Except.map, Except.mapError]

/-! ## The same call after the flush -/

section Views

variable {coinsTip : CoinsView} {txid : uint256}

omit [Hashing] [ScriptEngine] [NodeConfig] in
theorem view_coins (pool : CTxMemPool) (base : CoinsView) (txid : uint256) :
    (pool.view base).coins txid = (base.coins txid).or
      ((pool.mapTx txid).map fun tx => CCoins.ofTx tx memPoolHeight) := rfl

omit [Hashing] [ScriptEngine] [NodeConfig] in
theorem view_coins_of_not_havePruned (h : coinsTip.havePruned txid = false) :
    (pool.view coinsTip.dropPruned).coins txid = (pool.view coinsTip).coins txid := by
  rw [view_coins, view_coins, CoinsView.coins_dropPruned_of_not h]

omit [Hashing] [ScriptEngine] [NodeConfig] in
theorem view_coins_of_havePruned (pool : CTxMemPool) (h : coinsTip.havePruned txid = true) :
    ∃ c, (pool.view coinsTip).coins txid = some c ∧ c.isPruned = true := by
  obtain ⟨c, hc, hp⟩ := (Option.any_eq_true _ _).mp h
  exact ⟨c, by rw [view_coins, hc, Option.some_or], hp⟩

omit [Hashing] [ScriptEngine] [NodeConfig] in
theorem haveCoins_of_dropPruned (h : (pool.view coinsTip.dropPruned).haveCoins txid = true) :
    (pool.view coinsTip).haveCoins txid = true := by
  cases hp : coinsTip.havePruned txid with
  | false =>
    rw [CoinsView.haveCoins, view_coins_of_not_havePruned hp] at h
    exact h
  | true =>
    obtain ⟨c, hc, -⟩ := view_coins_of_havePruned pool hp
    rw [CoinsView.haveCoins, hc]
    rfl

/-- None of the entries that the inputs refer to is pruned. -/
def Untouched (coinsTip : CoinsView) (tx : CTransaction) : Prop :=
  ∀ txin ∈ tx.vin, coinsTip.havePruned txin.prevout.hash = false

omit [Hashing] [ScriptEngine] [NodeConfig] in
theorem Untouched.sameInputs (h : Untouched coinsTip tx) (pool : CTxMemPool) :
    CTransaction.SameInputs (pool.view coinsTip.dropPruned) (pool.view coinsTip) tx.vin :=
  ⟨fun txin hmem => view_coins_of_not_havePruned (h txin hmem), rfl⟩

omit [Hashing] [ScriptEngine] [NodeConfig] in
theorem untouched_of_haveInputs (hcb : tx.isCoinBase = false)
    (hinputs : tx.haveInputs (pool.view coinsTip) = true) : Untouched coinsTip tx := by
  intro txin hmem
  cases hp : coinsTip.havePruned txin.prevout.hash with
  | false => rfl
  | true =>
    obtain ⟨c, hc, hpruned⟩ := view_coins_of_havePruned pool hp
    obtain ⟨out, hout⟩ := CTransaction.haveInput_iff.mp
      ((CTransaction.haveInputs_iff hcb).mp hinputs txin hmem)
    rw [CoinsView.coinsAt, hc, Option.getD_some, CCoins.isPruned_iff.mp hpruned] at hout
    cases hout

theorem verdict_of_untouched (hpre : preAccept env pool tx = .ok ())
    (hhash : coinsTip.havePruned tx.getHash = false) (h : Untouched coinsTip tx) :
    verdict env pool coinsTip.dropPruned tx fLimitFree =
      verdict env pool coinsTip tx fLimitFree := by
  have hsame := h.sameInputs pool
  have hhave : (pool.view coinsTip.dropPruned).haveCoins tx.getHash =
      (pool.view coinsTip).haveCoins tx.getHash := by
    rw [CoinsView.haveCoins, CoinsView.haveCoins, view_coins_of_not_havePruned hhash]
  rw [verdict_of_ok hpre, verdict_of_ok hpre, acceptInputs_eq, acceptInputs_eq, hhave,
    hsame.allHaveCoins, hsame.haveInputs, checkAvailable_congr hsame]

end Views

/-- The cases in which a flush does not change how `accept` ends. In the last three a pruned entry
may decide the call before the flush, and after it the call is refused for another reason with the
same report. -/
inductive FlushHarmless (env : AcceptEnv) (pool : CTxMemPool) (coinsTip : CoinsView)
    (tx : CTransaction) (fLimitFree : Bool) : Prop
  /-- The tests before those of the inputs refuse it. -/
  | early (h : (preAccept env pool tx).isOk = false)
  /-- It has an output left. -/
  | known (c : CCoins) (h : coinsTip.coins tx.getHash = some c) (hp : c.isPruned = false)
  /-- It spends a transaction that neither the coins nor the pool have. -/
  | unknownInput (txin : CTxIn) (hnone : coinsTip.coins tx.getHash = none) (hmem : txin ∈ tx.vin)
      (h : (pool.view coinsTip).coins txin.prevout.hash = none)
  /-- No pruned entry is met. -/
  | untouched (hhash : coinsTip.havePruned tx.getHash = false) (h : Untouched coinsTip tx)
  /-- Its own entry is pruned, and the relay rules refuse it. -/
  | refused (message : String) (hhash : coinsTip.havePruned tx.getHash = true)
      (hinputs : tx.haveInputs (pool.view coinsTip.dropPruned) = true)
      (h : checkRelay env (pool.view coinsTip.dropPruned) tx fLimitFree = .error (.error message))
  /-- The pool has the transactions whose entries are pruned, and an output is spent. -/
  | unavailable (hnone : coinsTip.coins tx.getHash = none)
      (hall : ∀ txin ∈ tx.vin,
        (pool.view coinsTip.dropPruned).haveCoins txin.prevout.hash = true)
      (h : tx.haveInputs (pool.view coinsTip.dropPruned) = false)
  /-- It spends a coinbase too early. -/
  | immature (message : String) (hnone : coinsTip.coins tx.getHash = none)
      (hinputs : tx.haveInputs (pool.view coinsTip.dropPruned) = true)
      (hrelay : checkRelay env (pool.view coinsTip.dropPruned) tx fLimitFree = .ok ())
      (h : tx.checkInputs (pool.view coinsTip.dropPruned) true SCRIPT_VERIFY_P2SH false =
        .error (.DoS 0 message))

section Flush

variable {coinsTip : CoinsView}

theorem haveCoins_hash (hpre : preAccept env pool tx = .ok ()) (view : CoinsView) :
    (pool.view view).haveCoins tx.getHash = (view.coins tx.getHash).isSome := by
  rw [CoinsView.haveCoins, view_coins, mapTx_of_preAccept hpre, Option.map_none, Option.or_none]

theorem verdict_of_harmless (h : FlushHarmless env pool coinsTip tx fLimitFree) :
    verdict env pool coinsTip.dropPruned tx fLimitFree =
      verdict env pool coinsTip tx fLimitFree := by
  cases hpre : preAccept env pool tx with
  | error e => rw [verdict_of_error hpre, verdict_of_error hpre]
  | ok u =>
    have hcb := not_isCoinBase_of_preAccept hpre
    have hhash := haveCoins_hash hpre
    cases h with
    | early h =>
      rw [hpre] at h
      cases h
    | known c h hp =>
      have hprune : coinsTip.havePruned tx.getHash = false := by
        rw [CoinsView.havePruned, h, Option.any_some, hp]
      rw [verdict_of_known hpre, verdict_of_known hpre]
      · rw [hhash, h]
        rfl
      · rw [hhash, CoinsView.coins_dropPruned_of_not hprune, h]
        rfl
    | unknownInput txin hnone hmem h =>
      have hprune := CoinsView.havePruned_of_none hnone
      have hmissing : ∀ view : CoinsView, view.coins txin.prevout.hash = none →
          (tx.vin.all fun txin => view.haveCoins txin.prevout.hash) = false := by
        intro view hview
        refine List.all_eq_false.mpr ⟨txin, hmem, ?_⟩
        rw [CoinsView.haveCoins, hview]
        exact Bool.false_ne_true
      have hdrop : (pool.view coinsTip.dropPruned).coins txin.prevout.hash = none := by
        by_contra hsome
        have hhave := haveCoins_of_dropPruned (Option.isSome_iff_ne_none.mpr hsome)
        rw [CoinsView.haveCoins, h] at hhave
        cases hhave
      rw [verdict_of_missing hpre _ (hmissing _ hdrop), verdict_of_missing hpre _ (hmissing _ h)]
      · rw [hhash, hnone]
        rfl
      · rw [hhash, CoinsView.coins_dropPruned_of_not hprune, hnone]
        rfl
    | untouched hprune h => exact verdict_of_untouched hpre hprune h
    | refused message hprune hinputs h =>
      have hnone := CoinsView.coins_dropPruned_of_havePruned hprune
      obtain ⟨c, hc, -⟩ := (Option.any_eq_true _ _).mp hprune
      have hbefore : verdict env pool coinsTip tx fLimitFree = ⟨.error (.error ""), false⟩ :=
        verdict_of_known hpre (by rw [hhash, hc]; rfl)
      rw [hbefore]
      refine (verdict_available_iff hpre (by rw [hhash, hnone]; rfl) hinputs).mpr ?_
      obtain ⟨message', h'⟩ := checkAvailable_error.mpr ⟨message, h⟩
      exact ⟨_, h', rfl⟩
    | unavailable hnone hall h =>
      have hprune := CoinsView.havePruned_of_none hnone
      have hinputs : tx.haveInputs (pool.view coinsTip) = false := by
        by_contra htrue
        rw [Bool.not_eq_false] at htrue
        have hsame := (untouched_of_haveInputs hcb htrue).sameInputs pool
        rw [hsame.haveInputs, htrue] at h
        cases h
      rw [verdict_of_unavailable hpre _ (List.all_eq_true.mpr hall) h,
        verdict_of_unavailable hpre _ (List.all_eq_true.mpr fun txin hmem =>
          haveCoins_of_dropPruned (hall txin hmem)) hinputs]
      · rw [hhash, hnone]
        rfl
      · rw [hhash, CoinsView.coins_dropPruned_of_not hprune, hnone]
        rfl
    | immature message hnone hinputs hrelay h =>
      have hprune := CoinsView.havePruned_of_none hnone
      cases hbefore : tx.haveInputs (pool.view coinsTip) with
      | true => exact verdict_of_untouched hpre hprune (untouched_of_haveInputs hcb hbefore)
      | false =>
        have hall := List.all_eq_true.mp (allHaveCoins_of_haveInputs hcb hinputs)
        have hspent : verdict env pool coinsTip tx fLimitFree = ⟨.error (.DoS 0 ""), false⟩ :=
          verdict_of_unavailable hpre (by rw [hhash, hnone]; rfl)
            (List.all_eq_true.mpr fun txin hmem => haveCoins_of_dropPruned (hall txin hmem)) hbefore
        rw [hspent]
        refine (verdict_available_iff hpre ?_ hinputs).mpr ?_
        · rw [hhash, CoinsView.coins_dropPruned_of_not hprune, hnone]
          rfl
        · obtain ⟨message', h'⟩ := checkAvailable_DoS.mpr ⟨hrelay, message, h⟩
          exact ⟨_, h', rfl⟩

theorem harmless_of_verdict (h : verdict env pool coinsTip.dropPruned tx fLimitFree =
    verdict env pool coinsTip tx fLimitFree) : FlushHarmless env pool coinsTip tx fLimitFree := by
  cases hpre : preAccept env pool tx with
  | error e => exact .early (by rw [hpre]; rfl)
  | ok u =>
    have hcb := not_isCoinBase_of_preAccept hpre
    have hhash := haveCoins_hash hpre
    cases hprune : coinsTip.havePruned tx.getHash with
    | true =>
      -- before the flush the transaction seems to be there already
      have hnone := CoinsView.coins_dropPruned_of_havePruned hprune
      have hafter : (pool.view coinsTip.dropPruned).haveCoins tx.getHash = false := by
        rw [hhash, hnone]
        rfl
      obtain ⟨c, hc, -⟩ := (Option.any_eq_true _ _).mp hprune
      have hbefore : verdict env pool coinsTip tx fLimitFree = ⟨.error (.error ""), false⟩ :=
        verdict_of_known hpre (by rw [hhash, hc]; rfl)
      rw [hbefore] at h
      cases hall : tx.vin.all fun txin =>
          (pool.view coinsTip.dropPruned).haveCoins txin.prevout.hash with
      | false =>
        rw [verdict_of_missing hpre hafter hall] at h
        cases congrArg Verdict.fMissingInputs h
      | true =>
        cases hinputs : tx.haveInputs (pool.view coinsTip.dropPruned) with
        | false =>
          rw [verdict_of_unavailable hpre hafter hall hinputs] at h
          cases congrArg Verdict.result h
        | true =>
          obtain ⟨e, he, hlogged⟩ := (verdict_available_iff hpre hafter hinputs).mp h
          obtain ⟨message, rfl⟩ := Failure.logged_eq_error.mp hlogged
          obtain ⟨message', hrelay⟩ := checkAvailable_error.mp ⟨message, he⟩
          exact .refused message' hprune hinputs hrelay
    | false =>
      cases hcoins : coinsTip.coins tx.getHash with
      | some c =>
        rw [CoinsView.havePruned, hcoins, Option.any_some] at hprune
        exact .known c hcoins hprune
      | none =>
        have hbefore : (pool.view coinsTip).haveCoins tx.getHash = false := by
          rw [hhash, hcoins]
          rfl
        have hafter : (pool.view coinsTip.dropPruned).haveCoins tx.getHash = false := by
          rw [hhash, CoinsView.coins_dropPruned_of_not hprune, hcoins]
          rfl
        cases hall : tx.vin.all fun txin => (pool.view coinsTip).haveCoins txin.prevout.hash with
        | false =>
          obtain ⟨txin, hmem, hmissing⟩ := List.all_eq_false.mp hall
          exact .unknownInput txin hcoins hmem (Option.not_isSome_iff_eq_none.mp hmissing)
        | true =>
          cases hinputs : tx.haveInputs (pool.view coinsTip) with
          | true => exact .untouched hprune (untouched_of_haveInputs hcb hinputs)
          | false =>
            -- before the flush an output seems to be spent
            have hspent : verdict env pool coinsTip tx fLimitFree = ⟨.error (.DoS 0 ""), false⟩ :=
              verdict_of_unavailable hpre hbefore hall hinputs
            rw [hspent] at h
            cases hall' : tx.vin.all fun txin =>
                (pool.view coinsTip.dropPruned).haveCoins txin.prevout.hash with
            | false =>
              rw [verdict_of_missing hpre hafter hall'] at h
              cases congrArg Verdict.fMissingInputs h
            | true =>
              cases hinputs' : tx.haveInputs (pool.view coinsTip.dropPruned) with
              | false => exact .unavailable hcoins (List.all_eq_true.mp hall') hinputs'
              | true =>
                obtain ⟨e, he, hlogged⟩ := (verdict_available_iff hpre hafter hinputs').mp h
                obtain ⟨message, rfl⟩ := Failure.logged_eq_DoS.mp hlogged
                obtain ⟨hrelay, message', hcheck⟩ := checkAvailable_DoS.mp ⟨message, he⟩
                exact .immature message' hcoins hinputs' hrelay hcheck

end Flush

/-- For every cache over the coin database, every pool and every transaction: `accept` ends the
same way before and after `pcoinsTip->Flush()` exactly in the cases of `FlushHarmless`. -/
theorem verdict_flush_iff [BlockIndexMap] (env : AcceptEnv) (pool : CTxMemPool)
    (c : CCoinsViewCache) (d : CCoinsViewDB) (tx : CTransaction) (fLimitFree : Bool) :
    verdict env pool (CCoinsStack.flush c (.db d) true).1.view tx fLimitFree =
        verdict env pool (CCoinsStack.cache c (.db d)).view tx fLimitFree ↔
      FlushHarmless env pool (CCoinsStack.cache c (.db d)).view tx fLimitFree := by
  rw [CCoinsStack.view_flush]
  exact ⟨harmless_of_verdict, verdict_of_harmless⟩

end CTxMemPool

namespace Sample

open CTxMemPool

/-- A block has spent the output of transaction 7. -/
def spentCalls : List CacheOp :=
  [.push, .setBestBlock genesis, .getCoinsRef 7, .write 7 ⟨false, [], 1, 1⟩]

/-- The transaction spends the output a second time. -/
def secondSpend : CTransaction := spending 1 [(7, 0)] [40]

def acceptEnv : AcceptEnv := ⟨1, 1000, false⟩

/-- Before the flush the transaction is invalid, after it its input is missing. -/
theorem verdict_flush_ne : ∃ c,
    Run.run CCoinsStack.step (.db coinDB) spentCalls = some (.cache c (.db coinDB)) ∧
    (verdict acceptEnv .empty (CCoinsStack.cache c (.db coinDB)).view secondSpend
      false).fMissingInputs = false ∧
    (verdict acceptEnv .empty (CCoinsStack.flush c (.db coinDB) true).1.view secondSpend
      false).fMissingInputs = true ∧
    verdict acceptEnv .empty (CCoinsStack.flush c (.db coinDB) true).1.view secondSpend false ≠
      verdict acceptEnv .empty (CCoinsStack.cache c (.db coinDB)).view secondSpend false := by
  let c : CCoinsViewCache :=
    ((CCoinsViewCache.mk (fun _ => none) (some genesis)).insert 7 ⟨false, [⟨50, []⟩], 1, 1⟩).insert 7
      ⟨false, [], 1, 1⟩
  have hbefore : (verdict acceptEnv .empty (CCoinsStack.cache c (.db coinDB)).view secondSpend
      false).fMissingInputs = false := by decide +kernel
  have hafter : (verdict acceptEnv .empty (CCoinsStack.flush c (.db coinDB) true).1.view secondSpend
      false).fMissingInputs = true := by decide +kernel
  refine ⟨c, rfl, hbefore, hafter, fun heq => ?_⟩
  rw [← heq, hafter] at hbefore
  cases hbefore

end Sample

end Terracoin
