import Terracoin.Lib.Run
import Terracoin.Wallet.WalletTx

/-!
# What a wallet remembers of its transactions

`AddToWallet`, `MarkSpent`, `WalletUpdateSpent`, `MarkDirty` after an import, and blocks. `MarkDirty`
does not reset the immature credit, and `AddToWallet` marks the added transaction alone: those
that spend it keep their debit. As long as neither matters, the remembered values are those that would
be computed (`getters_eq_uncached`).
-/

namespace Terracoin

open Std (TreeMap)
open Memo CWalletTx

namespace CWalletTx

/-- Merge, and whether anything was updated. -/
def merge (wtx wtxIn : CWalletTx) : CWalletTx × Bool :=
  let fBlock := decide (wtxIn.hashBlock ≠ 0 ∧ wtxIn.hashBlock ≠ wtx.hashBlock)
  let wtx := if fBlock then { wtx with hashBlock := wtxIn.hashBlock } else wtx
  let fBranch := decide (wtxIn.nIndex ≠ -1 ∧
    (wtxIn.vMerkleBranch ≠ wtx.vMerkleBranch ∨ wtxIn.nIndex ≠ wtx.nIndex))
  let wtx := if fBranch then
    { wtx with vMerkleBranch := wtxIn.vMerkleBranch, nIndex := wtxIn.nIndex } else wtx
  let fFromMe := wtxIn.fFromMe && wtxIn.fFromMe != wtx.fFromMe
  let wtx := if fFromMe then { wtx with fFromMe := wtxIn.fFromMe } else wtx
  let (wtx, fSpent) := wtx.updateSpent wtxIn.vfSpent
  (wtx, fBlock || fBranch || fFromMe || fSpent)

end CWalletTx

section

variable [EllipticCurve] [ByteHashing160] [Hashing]

namespace WalletState

/-! ## The operations -/

def setTx (w : WalletState) (hash : uint256) (wtx : CWalletTx) : WalletState :=
  { w with mapWallet := w.mapWallet.insert hash wtx }

/-- A transaction of the wallet is changed. -/
def modifyTx (w : WalletState) (hash : uint256) (f : CWalletTx → CWalletTx) : WalletState :=
  match w.mapWallet[hash]? with
  | none => w
  | some wtx => w.setTx hash (f wtx)

def markDirty (w : WalletState) : WalletState :=
  { w with mapWallet := w.mapWallet.map fun _ wtx => wtx.markDirty }

/-- The loop body of `WalletUpdateSpent`, and whether it returns: the message it prints calls
`GetCredit`, which may throw. -/
def spendInput (w : WalletState) (txin : CTxIn) : WalletState × Bool :=
  match w.mapWallet[txin.prevout.hash]? with
  | none => (w, true)
  | some wtx =>
    match wtx.tx.vout[txin.prevout.n.toNat]? with
    | none => (w, true)
    | some txout =>
      if !wtx.isSpent txin.prevout.n.toNat && w.isMine txout then
        match wtx.getCredit w true with
        | (none, wtx) => (w.setTx txin.prevout.hash wtx, false)
        | (some _, wtx) =>
          (w.setTx txin.prevout.hash (wtx.markSpent txin.prevout.n.toNat), true)
      else (w, true)

def walletUpdateSpent (w : WalletState) : List CTxIn → WalletState
  | [] => w
  | txin :: vin =>
    match w.spendInput txin with
    | (w, true) => w.walletUpdateSpent vin
    | (w, false) => w

/-- What a call of `GetKeyFromPool` comes to: the key store with the keys that were generated, the
key, and whether the database takes it as the default key. -/
structure PoolCall where
  keystore : CBasicKeyStore
  newDefaultKey : Option CPubKey
  fWritten : Bool

/-- If default receiving address gets used, replace it with a new one. The build with a GUI makes
no calls. -/
def replaceDefaultKey (scriptDefaultKey : CScript) :
    List CTxOut → List PoolCall → WalletState → WalletState
  | [], _, w => w
  | _ :: _, [], w => w
  | txout :: vout, call :: calls, w =>
    if txout.scriptPubKey = scriptDefaultKey then
      let w := { w with keystore := call.keystore }
      match call.newDefaultKey with
      | none => replaceDefaultKey scriptDefaultKey vout calls w
      | some newDefaultKey =>
        let vchDefaultKey := if call.fWritten then newDefaultKey else w.vchDefaultKey
        replaceDefaultKey scriptDefaultKey vout calls { w with
          vchDefaultKey := vchDefaultKey
          mapAddressBook := .CKeyID vchDefaultKey.getID :: w.mapAddressBook }
    else replaceDefaultKey scriptDefaultKey vout (call :: calls) w

/-- The transaction inserted or found, and whether it has to be written. -/
def added (w : WalletState) (wtxIn : CWalletTx) : CWalletTx × Bool :=
  match w.mapWallet[wtxIn.tx.getHash]? with
  | none => (wtxIn.markDirty, true)
  | some wtx => merge wtx.markDirty wtxIn

/-- The wallet after the default key may have been replaced. -/
def addTx (w : WalletState) (wtxIn : CWalletTx) (calls : List PoolCall) : WalletState :=
  replaceDefaultKey (CScript.setDestination w.vchDefaultKey.getID) (w.added wtxIn).1.tx.vout calls
    (w.setTx wtxIn.tx.getHash (w.added wtxIn).1)

/-- `AddToWallet`, where the database takes the transaction or does not. -/
def addToWallet (w : WalletState) (wtxIn : CWalletTx) (fWritten : Bool) (calls : List PoolCall) :
    WalletState :=
  if (w.added wtxIn).2 && !fWritten then w.setTx wtxIn.tx.getHash (w.added wtxIn).1
  else (w.addTx wtxIn calls).walletUpdateSpent (w.added wtxIn).1.tx.vin

end WalletState

/-- The operations on a wallet. A transaction that is added was made for that, so its immature credit
was never asked for. -/
inductive WalletOp where
  | addToWallet (wtxIn : CWalletTx) (hnew : wtxIn.nImmatureCreditCached = none) (fWritten : Bool)
    (calls : List WalletState.PoolCall)
  | markSpent (hash : uint256) (nOut : Nat)
  | walletUpdateSpent (tx : CTransaction)
  /-- Keys or scripts are imported, and everything is marked dirty. -/
  | importKeys (keystore : CBasicKeyStore) (mapAddressBook : List CTxDestination)
  /-- Blocks are connected or disconnected. -/
  | setBestChain (pindexBest : Option CBlockIndex)
  | getDebit (hash : uint256)
  | getCredit (hash : uint256) (fUseCache : Bool)
  | getImmatureCredit (hash : uint256) (fUseCache : Bool)
  | getAvailableCredit (hash : uint256) (fUseCache : Bool)
  | getChange (hash : uint256)

namespace WalletState

def importKeys (w : WalletState) (keystore : CBasicKeyStore)
    (mapAddressBook : List CTxDestination) : WalletState :=
  markDirty { w with keystore := keystore, mapAddressBook := mapAddressBook }

def step (w : WalletState) : WalletOp → Option WalletState
  | .addToWallet wtxIn _ fWritten calls => some (w.addToWallet wtxIn fWritten calls)
  | .markSpent hash nOut => some (w.modifyTx hash fun wtx =>
      -- it throws if there is no such output
      if nOut < wtx.tx.vout.length then wtx.markSpent nOut else wtx)
  | .walletUpdateSpent tx => some (w.walletUpdateSpent tx.vin)
  | .importKeys keystore mapAddressBook => some (w.importKeys keystore mapAddressBook)
  | .setBestChain pindexBest => some { w with pindexBest := pindexBest }
  | .getDebit hash => some (w.modifyTx hash fun wtx => (wtx.getDebit w).2)
  | .getCredit hash fUseCache => some (w.modifyTx hash fun wtx => (wtx.getCredit w fUseCache).2)
  | .getImmatureCredit hash fUseCache =>
    some (w.modifyTx hash fun wtx => (wtx.getImmatureCredit w fUseCache).2)
  | .getAvailableCredit hash fUseCache =>
    some (w.modifyTx hash fun wtx => (wtx.getAvailableCredit w fUseCache).2)
  | .getChange hash => some (w.modifyTx hash fun wtx => (wtx.getChange w).2)

/-- No remembered debit is of a transaction that spends what is mine of the new transaction. -/
def DebitsKnown (w : WalletState) (tx : CTransaction) : Prop :=
  ∀ (hash : uint256) (wtx : CWalletTx), w.mapWallet[hash]? = some wtx → wtx.nDebitCached ≠ none →
    ∀ txin ∈ wtx.tx.vin, txin.prevout.hash = tx.getHash →
      ∀ txout, tx.vout[txin.prevout.n.toNat]? = some txout → w.isMine txout = false

/-- Nothing that is remembered becomes mine or change, or stops to be. -/
def SameOwner (w w' : WalletState) : Prop :=
  ∀ (hash : uint256) (wtx : CWalletTx), w'.mapWallet[hash]? = some wtx → wtx.SameOwner w w'

/-- The condition under which an operation keeps the remembered values valid. -/
def KeepsCaches (w : WalletState) : WalletOp → Prop
  | .addToWallet wtxIn _ _ calls =>
    (w.mapWallet[wtxIn.tx.getHash]? = none → w.DebitsKnown wtxIn.tx) ∧
      (w.setTx wtxIn.tx.getHash (w.added wtxIn).1).SameOwner (w.addTx wtxIn calls)
  | .importKeys keystore _ =>
    ∀ (hash : uint256) (wtx : CWalletTx), w.mapWallet[hash]? = some wtx → wtx.nImmatureCreditCached ≠ none →
      ∀ txout ∈ wtx.tx.vout, keystore.isMineScript txout.scriptPubKey = w.isMine txout
  | _ => True

/-- All that is remembered is what would be computed. -/
def CachesValid (w : WalletState) : Prop :=
  ∀ (hash : uint256) (wtx : CWalletTx), w.mapWallet[hash]? = some wtx → wtx.CachesValid w

/-! ## Changes of one transaction -/

variable {w w' : WalletState} {hash hash' : uint256} {wtx wtx' : CWalletTx}

omit [Hashing] in
theorem getElem?_setTx (w : WalletState) (hash hash' : uint256) (wtx : CWalletTx) :
    (w.setTx hash wtx).mapWallet[hash']? = if hash' = hash then some wtx else w.mapWallet[hash']? := by
  rw [setTx, TreeMap.getElem?_insert]
  simp only [Std.compare_eq_iff_eq, eq_comm (a := hash)]

omit [Hashing] in
theorem prevOut_setTx (hget : w.mapWallet[hash]? = some wtx) (htx : wtx'.tx = wtx.tx) (txin : CTxIn) :
    (w.setTx hash wtx').prevOut txin = w.prevOut txin := by
  rw [prevOut, prevOut, getElem?_setTx]
  split
  · rename_i heq
    rw [heq, hget]
    exact congrArg (fun tx : CTransaction => tx.vout[txin.prevout.n.toNat]?) htx
  · rfl

omit [Hashing] in
theorem CachesValid.setTx (h : w.CachesValid) (hget : w.mapWallet[hash]? = some wtx)
    (htx : wtx'.tx = wtx.tx) (hvalid : wtx'.CachesValid w) : (w.setTx hash wtx').CachesValid := by
  have hsame : ∀ wtx0 : CWalletTx, wtx0.CachesValid w → wtx0.CachesValid (w.setTx hash wtx') :=
    fun wtx0 h0 => h0.of_sameOwner (sameOwner_of_keys w (w.setTx hash wtx') rfl rfl wtx0)
      fun _ txin _ => .inl (prevOut_setTx hget htx txin)
  intro hash0 wtx0 h0
  rw [getElem?_setTx] at h0
  split at h0
  · exact Option.some.inj h0 ▸ hsame wtx' hvalid
  · exact hsame wtx0 (h hash0 wtx0 h0)

omit [Hashing] in
theorem CachesValid.modifyTx (h : w.CachesValid) {f : CWalletTx → CWalletTx}
    (htx : ∀ wtx, wtx.CachesValid w → (f wtx).tx = wtx.tx)
    (hvalid : ∀ wtx, wtx.CachesValid w → (f wtx).CachesValid w) :
    (w.modifyTx hash f).CachesValid := by
  unfold WalletState.modifyTx
  split
  · exact h
  · rename_i wtx hget
    have hwtx := h hash wtx hget
    exact h.setTx hget (htx wtx hwtx) (hvalid wtx hwtx)

omit [Hashing] in
theorem CachesValid.getter (h : w.CachesValid) {getter : CWalletTx → Option Int × CWalletTx}
    (hgetter : ∀ wtx, wtx.CachesValid w → Answers w wtx getter) :
    (w.modifyTx hash fun wtx => (getter wtx).2).CachesValid :=
  h.modifyTx (fun wtx hwtx => (hgetter wtx hwtx).tx_eq) fun wtx hwtx => (hgetter wtx hwtx).cachesValid

omit [EllipticCurve] [ByteHashing160] [Hashing] in
theorem tx_markSpent (wtx : CWalletTx) (nOut : Nat) : (wtx.markSpent nOut).tx = wtx.tx := by
  unfold CWalletTx.markSpent
  dsimp only
  split <;> rfl

theorem CachesValid.spendInput (h : w.CachesValid) (txin : CTxIn) : (w.spendInput txin).1.CachesValid := by
  unfold WalletState.spendInput
  split
  · exact h
  · rename_i wtx hget
    split
    · exact h
    · split
      · obtain ⟨-, hvalid, htx, -⟩ := (h _ wtx hget).getCredit true
        split
        · rename_i wtx1 hcredit
          rw [hcredit] at hvalid htx
          exact h.setTx hget htx hvalid
        · rename_i wtx1 hcredit
          rw [hcredit] at hvalid htx
          exact h.setTx hget ((tx_markSpent _ _).trans htx) (hvalid.markSpent _)
      · exact h

theorem CachesValid.walletUpdateSpent (h : w.CachesValid) (vin : List CTxIn) :
    (w.walletUpdateSpent vin).CachesValid := by
  induction vin generalizing w with
  | nil => exact h
  | cons txin vin ih =>
    have hspend := h.spendInput txin
    rw [WalletState.walletUpdateSpent]
    split
    · rename_i w1 heq
      rw [heq] at hspend
      exact ih hspend
    · rename_i w1 heq
      rwa [heq] at hspend

/-! ## Added transactions -/

omit [EllipticCurve] [ByteHashing160] [Hashing] in
theorem tx_merge (wtx wtxIn : CWalletTx) : (wtx.merge wtxIn).1.tx = wtx.tx := by
  unfold CWalletTx.merge CWalletTx.updateSpent
  dsimp only
  split <;> split <;> split <;> rfl

omit [Hashing] in
theorem cachesValid_merge (h : wtx.CachesValid w) (wtxIn : CWalletTx) :
    (wtx.merge wtxIn).1.CachesValid w := by
  unfold CWalletTx.merge
  dsimp only
  refine CWalletTx.CachesValid.updateSpent ?_ _
  split <;> split <;> split <;> exact ⟨h.debit, h.credit, h.immatureCredit, h.availableCredit, h.change⟩

/-- The transaction is inserted or merged. -/
theorem CachesValid.setTx_added (h : w.CachesValid) {wtxIn : CWalletTx}
    (hnew : wtxIn.nImmatureCreditCached = none)
    (hknown : w.mapWallet[wtxIn.tx.getHash]? = none → w.DebitsKnown wtxIn.tx) :
    (w.setTx wtxIn.tx.getHash (w.added wtxIn).1).CachesValid := by
  cases hget : w.mapWallet[wtxIn.tx.getHash]? with
  | some wtx =>
    have hadded : w.added wtxIn = wtx.markDirty.merge wtxIn := by rw [added, hget]
    rw [hadded]
    exact h.setTx hget (tx_merge _ _) (cachesValid_merge (h _ wtx hget).markDirty wtxIn)
  | none =>
    have hadded : w.added wtxIn = (wtxIn.markDirty, true) := by rw [added, hget]
    rw [hadded]
    intro hash0 wtx0 h0
    rw [getElem?_setTx] at h0
    split at h0
    · obtain rfl := Option.some.inj h0
      refine ⟨valid_none, valid_none, ?_, valid_none, valid_none⟩
      rw [CWalletTx.markDirty, hnew]
      exact valid_none
    · refine (h hash0 wtx0 h0).of_sameOwner
        (sameOwner_of_keys w (w.setTx wtxIn.tx.getHash wtxIn.markDirty) rfl rfl wtx0)
        fun hdebit txin hmem => ?_
      by_cases hspends : txin.prevout.hash = wtxIn.tx.getHash
      · -- what it spends of the new transaction is not mine
        have hbefore : w.prevOut txin = none := by
          rw [prevOut, hspends, hget]
          rfl
        have hafter : (w.setTx wtxIn.tx.getHash wtxIn.markDirty).prevOut txin =
            wtxIn.tx.vout[txin.prevout.n.toNat]? := by
          rw [prevOut, getElem?_setTx, if_pos hspends]
          rfl
        right
        rw [debitOf, debitOf, hbefore, hafter]
        cases hout : wtxIn.tx.vout[txin.prevout.n.toNat]? with
        | none => rfl
        | some txout =>
          have hmine := hknown hget hash0 wtx0 h0 hdebit txin hmem hspends txout hout
          exact if_neg (Bool.eq_false_iff.mp hmine)
      · left
        rw [prevOut, prevOut, getElem?_setTx, if_neg hspends]

omit [Hashing] in
theorem mapWallet_replaceDefaultKey (scriptDefaultKey : CScript) (vout : List CTxOut)
    (calls : List PoolCall) (w : WalletState) :
    (replaceDefaultKey scriptDefaultKey vout calls w).mapWallet = w.mapWallet := by
  induction vout generalizing calls w with
  | nil => rfl
  | cons txout vout ih =>
    cases calls with
    | nil => rfl
    | cons call calls =>
      rw [replaceDefaultKey]
      dsimp only
      split
      · split <;> rw [ih]
      · rw [ih]

theorem mapWallet_addTx (w : WalletState) (wtxIn : CWalletTx) (calls : List PoolCall) :
    (w.addTx wtxIn calls).mapWallet = (w.setTx wtxIn.tx.getHash (w.added wtxIn).1).mapWallet :=
  mapWallet_replaceDefaultKey _ _ _ _

omit [Hashing] in
theorem CachesValid.of_sameOwner (h : w.CachesValid) (hmap : w'.mapWallet = w.mapWallet)
    (howner : w.SameOwner w') : w'.CachesValid := by
  intro hash0 wtx0 h0
  refine (h hash0 wtx0 (hmap ▸ h0)).of_sameOwner (howner hash0 wtx0 h0) fun _ txin _ => .inl ?_
  rw [prevOut, prevOut, hmap]

theorem CachesValid.addToWallet (h : w.CachesValid) {wtxIn : CWalletTx}
    (hnew : wtxIn.nImmatureCreditCached = none) (fWritten : Bool) {calls : List PoolCall}
    (hknown : w.mapWallet[wtxIn.tx.getHash]? = none → w.DebitsKnown wtxIn.tx)
    (howner : (w.setTx wtxIn.tx.getHash (w.added wtxIn).1).SameOwner (w.addTx wtxIn calls)) :
    (w.addToWallet wtxIn fWritten calls).CachesValid := by
  have hadded := h.setTx_added hnew hknown
  rw [WalletState.addToWallet]
  split
  · exact hadded
  · exact (hadded.of_sameOwner (mapWallet_addTx w wtxIn calls) howner).walletUpdateSpent _

omit [Hashing] in
theorem CachesValid.importKeys (h : w.CachesValid) {keystore : CBasicKeyStore}
    (mapAddressBook : List CTxDestination)
    (himmature : ∀ (hash : uint256) (wtx : CWalletTx), w.mapWallet[hash]? = some wtx →
      wtx.nImmatureCreditCached ≠ none →
        ∀ txout ∈ wtx.tx.vout, keystore.isMineScript txout.scriptPubKey = w.isMine txout) :
    (w.importKeys keystore mapAddressBook).CachesValid := by
  intro hash0 wtx0 h0
  rw [WalletState.importKeys, WalletState.markDirty] at h0
  dsimp only at h0
  rw [TreeMap.getElem?_map] at h0
  obtain ⟨wtx, hget, rfl⟩ := Option.map_eq_some_iff.mp h0
  refine ⟨valid_none, valid_none, fun n hn => ?_, valid_none, valid_none⟩
  have hcached : wtx.nImmatureCreditCached = some n := hn
  rw [← (h hash0 wtx hget).immatureCredit n hn]
  refine sumMoney_congr fun txout hmem => ?_
  have hmine := himmature hash0 wtx hget (hcached ▸ Option.some_ne_none n) txout hmem
  rw [creditOf, creditOf, ← hmine]
  rfl

omit [Hashing] in
theorem CachesValid.setBestChain (h : w.CachesValid) (pindexBest : Option CBlockIndex) :
    ({ w with pindexBest := pindexBest } : WalletState).CachesValid :=
  fun hash0 wtx0 h0 => (h hash0 wtx0 h0).of_sameOwner
    (sameOwner_of_keys w { w with pindexBest := pindexBest } rfl rfl wtx0) fun _ _ _ => .inl rfl

/-! ## Runs -/

theorem CachesValid.step {op : WalletOp} (hop : w.KeepsCaches op) (h : w.CachesValid)
    (hstep : w.step op = some w') : w'.CachesValid := by
  cases op with
  | addToWallet wtxIn hnew fWritten calls =>
    exact Option.some.inj hstep ▸ h.addToWallet hnew fWritten hop.1 hop.2
  | markSpent hash nOut =>
    refine Option.some.inj hstep ▸ h.modifyTx (fun wtx _ => ?_) fun wtx hwtx => ?_
    · split
      · exact tx_markSpent wtx nOut
      · rfl
    · split
      · exact hwtx.markSpent nOut
      · exact hwtx
  | walletUpdateSpent tx => exact Option.some.inj hstep ▸ h.walletUpdateSpent tx.vin
  | importKeys keystore mapAddressBook =>
    exact Option.some.inj hstep ▸ h.importKeys mapAddressBook hop
  | setBestChain pindexBest => exact Option.some.inj hstep ▸ h.setBestChain pindexBest
  | getDebit hash => exact Option.some.inj hstep ▸ h.getter fun _ hwtx => hwtx.getDebit
  | getCredit hash fUseCache =>
    exact Option.some.inj hstep ▸ h.getter fun _ hwtx => hwtx.getCredit fUseCache
  | getImmatureCredit hash fUseCache =>
    exact Option.some.inj hstep ▸ h.getter fun _ hwtx => hwtx.getImmatureCredit fUseCache
  | getAvailableCredit hash fUseCache =>
    exact Option.some.inj hstep ▸ h.getter fun _ hwtx => hwtx.getAvailableCredit fUseCache
  | getChange hash => exact Option.some.inj hstep ▸ h.getter fun _ hwtx => hwtx.getChange

/-- Nothing is remembered yet, as after loading the wallet. -/
def Uncached (w : WalletState) : Prop :=
  ∀ (hash : uint256) (wtx : CWalletTx), w.mapWallet[hash]? = some wtx → wtx = wtx.uncached

omit [Hashing] in
theorem Uncached.cachesValid (h : w.Uncached) : w.CachesValid := by
  intro hash wtx hget
  rw [h hash wtx hget]
  exact ⟨valid_none, valid_none, valid_none, valid_none, valid_none⟩

/-- After a run in which no added transaction is spent by one whose debit is remembered, and no
immature credit is remembered of outputs that an import makes mine, the getters answer what they
would compute. -/
theorem getters_eq_uncached {ops : List WalletOp} (hw : w.Uncached)
    (hmeets : Run.Meets KeepsCaches WalletState.step w ops)
    (hrun : Run.run WalletState.step w ops = some w') (hget : w'.mapWallet[hash]? = some wtx)
    (fUseCache : Bool) :
    (wtx.getDebit w').1 = (wtx.uncached.getDebit w').1 ∧
      (wtx.getCredit w' fUseCache).1 = (wtx.uncached.getCredit w' fUseCache).1 ∧
      (wtx.getImmatureCredit w' fUseCache).1 = (wtx.uncached.getImmatureCredit w' fUseCache).1 ∧
      (wtx.getAvailableCredit w' fUseCache).1 = (wtx.uncached.getAvailableCredit w' fUseCache).1 ∧
      (wtx.getChange w').1 = (wtx.uncached.getChange w').1 := by
  have hvalid : w'.CachesValid :=
    Run.run_invariant_of_meets (fun _ _ _ hop h hstep => h.step hop hstep) hmeets hw.cachesValid hrun
  have hwtx := hvalid hash wtx hget
  exact ⟨hwtx.getDebit.value, (hwtx.getCredit fUseCache).value,
    (hwtx.getImmatureCredit fUseCache).value, (hwtx.getAvailableCredit fUseCache).value,
    hwtx.getChange.value⟩

end WalletState

end

/-! ## A sample -/

namespace WalletSample

open KeySample Sample WalletState

def wallet : WalletState := ⟨CBasicKeyStore.empty.addKey key, [], [], ∅, none⟩

def transaction (vin : List CTxIn) (vout : List CTxOut) (nLockTime : UInt32) : CWalletTx :=
  ⟨⟨⟨1, vin, vout, nLockTime⟩, 0, [], -1, false⟩, [], false, [], none, none, none, none, none⟩

def parent : CWalletTx :=
  transaction [⟨⟨7, 0⟩, [], 0⟩] [⟨50, CScript.push key.getPubKey ++ [CScript.OP_CHECKSIG]⟩] 1

def child : CWalletTx := transaction [⟨⟨1, 0⟩, [], 0⟩] [] 2

/-- The payment is asked for its available credit, and then spent. -/
def ops : List WalletOp :=
  [.addToWallet parent rfl true [], .getAvailableCredit 1 true, .addToWallet child rfl true [],
    .getCredit 1 true]

def after : WalletState := (Run.run WalletState.step wallet ops).get rfl

theorem isSome_parent : after.mapWallet[(1 : uint256)]?.isSome = true := by decide +kernel

def parentAfter : CWalletTx := after.mapWallet[(1 : uint256)]?.get isSome_parent

theorem sameOwner_addTx (w : WalletState) (wtxIn : CWalletTx) :
    (w.setTx wtxIn.tx.getHash (w.added wtxIn).1).SameOwner (w.addTx wtxIn []) := by
  have hsame : w.addTx wtxIn [] = w.setTx wtxIn.tx.getHash (w.added wtxIn).1 := by
    rw [addTx]
    cases (w.added wtxIn).1.tx.vout <;> rfl
  rw [hsame]
  exact fun _ wtx _ => sameOwner_of_keys _ _ rfl rfl wtx

/-- 50 are remembered, forgotten when they are spent, and no longer found. -/
theorem getters_eq_uncached_sample :
    ((Run.run WalletState.step wallet (ops.take 2)).bind fun w =>
        w.mapWallet[(1 : uint256)]?.map CWalletTx.nAvailableCreditCached) = some (some 50) ∧
      parentAfter.nAvailableCreditCached = none ∧ parentAfter.nCreditCached = some 50 ∧
      (parentAfter.uncached.getAvailableCredit after true).1 = some 0 ∧
      (parentAfter.getAvailableCredit after true).1 =
        (parentAfter.uncached.getAvailableCredit after true).1 ∧
      (parentAfter.getCredit after true).1 = (parentAfter.uncached.getCredit after true).1 := by
  have hempty : ∀ (hash : uint256) (wtx : CWalletTx), wallet.mapWallet[hash]? ≠ some wtx := by
    intro hash wtx h
    simp [wallet] at h
  have hmeets : Run.Meets KeepsCaches WalletState.step wallet ops :=
    ⟨⟨fun _ hash wtx h => absurd h (hempty hash wtx), sameOwner_addTx _ _⟩, fun _ _ =>
      ⟨trivial, fun w _ => ⟨⟨fun _ _ _ _ _ _ _ _ _ h => (nomatch h), sameOwner_addTx w _⟩,
        fun _ _ => ⟨trivial, fun _ _ => trivial⟩⟩⟩⟩
  have hrun : Run.run WalletState.step wallet ops = some after := (Option.some_get _).symm
  have hget : after.mapWallet[(1 : uint256)]? = some parentAfter := (Option.some_get _).symm
  have hgetters := getters_eq_uncached (fun hash wtx h => absurd h (hempty hash wtx)) hmeets hrun
    hget true
  exact ⟨by decide +kernel, by decide +kernel, by decide +kernel, by decide +kernel,
    hgetters.2.2.2.1, hgetters.2.1⟩

/-- The debit of the child is remembered before its parent is added. -/
def staleOps : List WalletOp :=
  [.addToWallet child rfl true [], .getDebit 2, .addToWallet parent rfl true []]

theorem getDebit_child_stale :
    ((Run.run WalletState.step wallet staleOps).bind fun w =>
      w.mapWallet[(2 : uint256)]?.map fun wtx =>
        ((wtx.getDebit w).1, (wtx.uncached.getDebit w).1)) = some (some 0, some 50) := by
  decide +kernel

end WalletSample

end Terracoin
