import Mathlib.Data.Finset.Sort
import Mathlib.Data.List.Sigma
import Terracoin.Wallet.Agreement
import Terracoin.Wallet.CoinSelection
import Terracoin.Wallet.Sign

/-!
# `CreateTransaction`

`CreateTransaction` selects coins for the payees and the fee, adds the change, signs, and starts all
over if the signed transaction needs a higher fee. The fee grows from round to round and cannot grow
for ever, so the loop ends. The amounts wrap around like an `int64`; as long as none does, what the
loop ends with pays out what the selected coins are worth (`createTransaction_spec`).
-/

namespace Terracoin

open Checked (Int64Range wrap64 wrap64_of_range wrap64_range)
open Std (TreeMap)

/-- What `CreateTransaction` takes from outside the wallet. Whether `AllowFree` holds depends on the
coins and on the size of the transaction. -/
structure CreateEnv where
  nAdjustedTime : Int
  setLockedCoins : List COutPoint
  nTransactionFee : Int
  allowFree : List (CWalletTx × Nat) → Nat → Bool

namespace WalletState

variable [EllipticCurve] [ByteHashing160] [Hashing]

def isLockedCoin (env : CreateEnv) (hash : uint256) (n : Nat) : Bool :=
  env.setLockedCoins.contains ⟨hash, UInt32.ofNat n⟩

/-- What a transaction of the wallet has to spend, unless `IsConfirmed` does not return. -/
def availableOf (w : WalletState) (env : CreateEnv) (fuel : Nat) (fOnlyConfirmed : Bool)
    (hash : uint256) (pcoin : CWalletTx) : Option (List COutput) :=
  if !w.isFinal env.nAdjustedTime pcoin.tx then some []
  else
    match if fOnlyConfirmed then w.isConfirmed env.nAdjustedTime fuel pcoin else some true with
    | none => none
    | some false => some []
    | some true =>
      if (pcoin.isImmature w).1 then some []
      else
        let vout := pcoin.tx.vout.zipIdx.filter fun p =>
          !pcoin.isSpent p.2 && w.isMine p.1 && !isLockedCoin env hash p.2 && decide (0 < p.1.nValue)
        some (vout.map fun p => ⟨hash, pcoin, p.2, w.depth pcoin.toCMerkleTx⟩)

def availableCoins (w : WalletState) (env : CreateEnv) (fuel : Nat) (fOnlyConfirmed : Bool) :
    Option (List COutput) :=
  (w.mapWallet.toList.mapM fun p => w.availableOf env fuel fOnlyConfirmed p.1 p.2).map List.flatten

def isFromMe (w : WalletState) (wtx : CWalletTx) : Bool := (wtx.getDebit w).1.any fun n => 0 < n

/-- Coins with confirmations, at first of others only with six of them. -/
def selectCoins (w : WalletState) (choices : Nat → Choices) (vCoins : List COutput)
    (nTargetValue : Int) : Bool × Finset OutputKey × Int :=
  let r := selectCoinsMinConf w.isFromMe (choices 0) nTargetValue 1 6 vCoins
  if r.1 then r
  else
    let r := selectCoinsMinConf w.isFromMe (choices 1) nTargetValue 1 1 vCoins
    if r.1 then r else selectCoinsMinConf w.isFromMe (choices 2) nTargetValue 0 1 vCoins

end WalletState

/-- `SignSignature` with the keys of a wallet: it may change the `scriptSig` of the input. -/
structure Signer where
  sign : CScript → CTransaction → Nat → Bool × CTransaction
  sign_eq : ∀ fromPubKey txTo nIn, ∃ scriptSig,
    (sign fromPubKey txTo nIn).2 = txTo.setScriptSig nIn scriptSig

section

variable [ECDSA] [ByteHashing] [ByteHashing160] [ScriptHashing]

/-- A key store signs with `SIGHASH_ALL`. -/
def CBasicKeyStore.signer (keystore : CBasicKeyStore) : Signer where
  sign fromPubKey txTo nIn := signSignature keystore fromPubKey txTo nIn SIGHASH_ALL
  sign_eq fromPubKey txTo nIn := ⟨_, signSignature_snd keystore fromPubKey txTo nIn SIGHASH_ALL⟩

end

/-! ## The loop -/

/-- What is left to chance in one round: the coin selection, the order of the set of coins, which is
one of pointers, the key that `GetReservedKey` returns, where the change goes, and the signatures. -/
structure Draws where
  selection : Nat → Choices
  order : Finset OutputKey → List OutputKey
  order_nodup : ∀ setCoins, (order setCoins).Nodup
  order_toFinset : ∀ setCoins, (order setCoins).toFinset = setCoins
  reservedKey : CPubKey
  getRandInt : Nat → Nat
  getRandInt_lt : ∀ n, 0 < n → getRandInt n < n
  signer : Signer

/-- A transaction with the coins that it spends and its fee. -/
structure Created where
  tx : CTransaction
  coins : List (CWalletTx × Nat)
  nFeeRet : Int

/-- How a round ends: the call returns false, another round needs a higher fee, or the call returns
true. -/
inductive Round where
  | failed
  | retry (nFeeRet : Int)
  | created (created : Created)

/-- An output of a transaction of the wallet. -/
def coinOutput (coin : CWalletTx × Nat) : CTxOut := (coin.1.tx.vout[coin.2]?).getD CTxOut.null

/-- `CTxIn(coin.first->GetHash(), coin.second)`. -/
def coinInput [Hashing] (coin : CWalletTx × Nat) : CTxIn :=
  ⟨⟨coin.1.tx.getHash, UInt32.ofNat coin.2⟩, [], 0xffffffff⟩

def signInputs (signer : Signer) : Nat → List (CWalletTx × Nat) → CTransaction → Option CTransaction
  | _, [], wtxNew => some wtxNew
  | nIn, coin :: setCoins, wtxNew =>
    match signer.sign (coinOutput coin).scriptPubKey wtxNew nIn with
    | (true, wtxNew) => signInputs signer (nIn + 1) setCoins wtxNew
    | (false, _) => none

/-- How much of a sub-cent change goes to the fee. -/
def moveToFee (nChange nFeeRet : Int) : Int :=
  if nFeeRet < CTransaction.minTxFee ∧ 0 < nChange ∧ nChange < CTransaction.cent then
    min nChange (wrap64 (CTransaction.minTxFee - nFeeRet))
  else 0

def payees (vecSend : List (CScript × Int)) : List CTxOut := vecSend.map fun s => ⟨s.2, s.1⟩

/-- Insert change txn at random position. -/
def addChange [ByteHashing160] (draws : Draws) (nChange : Int) (vout : List CTxOut) : List CTxOut :=
  if 0 < nChange then
    vout.insertIdx (draws.getRandInt (vout.length + 1))
      ⟨nChange, CScript.setDestination (CPubKey.getID draws.reservedKey)⟩
  else vout

namespace WalletState

variable [EllipticCurve] [ByteHashing160] [Hashing]

/-- The transaction and the output that a pair of the set points to. -/
def deref (w : WalletState) (key : OutputKey) : Option (CWalletTx × Nat) :=
  w.mapWallet[key.1]?.map fun pcoin => (pcoin, key.2)

/-- Check the size and that enough fee is included. -/
def checkFee (env : CreateEnv) (tx : CTransaction) (coins : List (CWalletTx × Nat)) (nFeeRet : Int) :
    Round :=
  let nBytes := tx.getSerializeSize
  if maxStandardTxSize ≤ nBytes then .failed
  else
    let nPayFee := wrap64 (env.nTransactionFee * (1 + (nBytes / 1000 : Nat)))
    let nMinFee := tx.getMinFee 1 (env.allowFree coins nBytes) false
    if nFeeRet < max nPayFee nMinFee then .retry (max nPayFee nMinFee)
    else .created ⟨tx, coins, nFeeRet⟩

/-- A round of the loop, unless `AvailableCoins` does not return. -/
def createRound (w : WalletState) (env : CreateEnv) (fuel : Nat) (wtxNew : CTransaction)
    (vecSend : List (CScript × Int)) (nValue : Int) (draws : Draws) (nFeeRet : Int) :
    Option Round := do
  let vCoins ← w.availableCoins env fuel true
  -- Choose coins to use
  match w.selectCoins draws.selection vCoins (wrap64 (nValue + nFeeRet)) with
  | (false, _, _) => some .failed
  | (true, setCoins, nValueIn) =>
    let coins := (draws.order setCoins).filterMap w.deref
    let nChange := wrap64 (wrap64 (nValueIn - nValue) - nFeeRet)
    let nMoveToFee := moveToFee nChange nFeeRet
    let nChange := wrap64 (nChange - nMoveToFee)
    let vout := addChange draws nChange (payees vecSend)
    match signInputs draws.signer 0 coins { wtxNew with vin := coins.map coinInput, vout := vout } with
    | none => some .failed
    | some tx => some (checkFee env tx coins (wrap64 (nFeeRet + nMoveToFee)))

/-- The rounds from number `nRound` on: none if they do not end within the fuel, or a round does not. -/
def createLoop (round : Nat → Int → Option Round) : Nat → Nat → Int → Option (Option Created)
  | 0, _, _ => none
  | fuel + 1, nRound, nFeeRet => do
    match ← round nRound nFeeRet with
    | .failed => some none
    | .retry nFeeRet => createLoop round fuel (nRound + 1) nFeeRet
    | .created created => some (some created)

/-- The sum of the payments, unless it is negative on the way. -/
def sumPayments : Int → List (CScript × Int) → Option Int
  | nValue, [] => some nValue
  | nValue, s :: vecSend => if nValue < 0 then none else sumPayments (wrap64 (nValue + s.2)) vecSend

def createTransaction (w : WalletState) (env : CreateEnv) (fuel : Nat) (wtxNew : CTransaction)
    (vecSend : List (CScript × Int)) (draws : Nat → Draws) : Option (Option Created) :=
  match sumPayments 0 vecSend with
  | none => some none
  | some nValue =>
    if vecSend = [] ∨ nValue < 0 then some none
    else
      createLoop (fun nRound nFeeRet =>
        w.createRound env fuel wtxNew vecSend nValue (draws nRound) nFeeRet) fuel 0
          env.nTransactionFee

/-! ## Available coins -/

variable {w : WalletState} {env : CreateEnv} {fuel : Nat}

/-- An output of a transaction of the wallet that is worth something. -/
structure IsAvailable (hash : uint256) (pcoin : CWalletTx) (output : COutput) : Prop where
  hash : output.hash = hash
  tx : output.tx = pcoin
  value_pos : 0 < output.nValue

theorem availableOf_spec {fOnlyConfirmed : Bool} {hash : uint256} {pcoin : CWalletTx}
    {vCoins : List COutput} (h : w.availableOf env fuel fOnlyConfirmed hash pcoin = some vCoins) :
    (∀ output ∈ vCoins, IsAvailable hash pcoin output) ∧ (vCoins.map COutput.key).Nodup := by
  have hnil : some [] = some vCoins →
      (∀ output ∈ vCoins, IsAvailable hash pcoin output) ∧ (vCoins.map COutput.key).Nodup := by
    rintro ⟨⟩
    exact ⟨fun _ hmem => absurd hmem List.not_mem_nil, List.nodup_nil⟩
  rw [availableOf] at h
  split at h
  · exact hnil h
  · split at h
    · cases h
    · exact hnil h
    · split at h
      · exact hnil h
      · obtain rfl := Option.some.inj h
        constructor
        · intro output houtput
          obtain ⟨p, hp, rfl⟩ := List.mem_map.mp houtput
          obtain ⟨hmem, hkept⟩ := List.mem_filter.mp hp
          refine ⟨rfl, rfl, ?_⟩
          have hpos : 0 < p.1.nValue := of_decide_eq_true ((Bool.and_eq_true _ _).mp hkept).2
          rw [COutput.nValue, List.mem_zipIdx_iff_getElem?.mp hmem]
          exact hpos
        · rw [List.map_map]
          have hkeys : (pcoin.tx.vout.zipIdx.map fun p => (hash, p.2)).Nodup := by
            have hindex := (List.nodup_zipIdx_map_snd pcoin.tx.vout).map
              (f := fun i => (hash, i)) fun i j heq => congrArg Prod.snd heq
            rwa [List.map_map] at hindex
          exact hkeys.sublist (List.filter_sublist.map _)

theorem mapM_availableOf {fOnlyConfirmed : Bool} {l : List (uint256 × CWalletTx)}
    {vCoins : List (List COutput)} (hkeys : l.Pairwise fun p q => p.1 ≠ q.1)
    (h : (l.mapM fun p => w.availableOf env fuel fOnlyConfirmed p.1 p.2) = some vCoins) :
    (∀ output ∈ vCoins.flatten, ∃ p ∈ l, IsAvailable p.1 p.2 output) ∧
      (vCoins.flatten.map COutput.key).Nodup := by
  induction l generalizing vCoins with
  | nil =>
    obtain rfl : [] = vCoins := by simpa using h
    exact ⟨fun _ hmem => absurd hmem List.not_mem_nil, List.nodup_nil⟩
  | cons p l ih =>
    rw [List.mapM_cons] at h
    obtain ⟨first, hfirst, h⟩ := Option.bind_eq_some_iff.mp h
    obtain ⟨others, hothers, h⟩ := Option.bind_eq_some_iff.mp h
    obtain rfl := Option.some.inj h
    obtain ⟨hp, hkeys⟩ := List.pairwise_cons.mp hkeys
    obtain ⟨hmem, hnodup⟩ := availableOf_spec hfirst
    obtain ⟨hmems, hnodups⟩ := ih hkeys hothers
    rw [List.flatten_cons]
    constructor
    · intro output houtput
      rcases List.mem_append.mp houtput with houtput | houtput
      · exact ⟨p, List.mem_cons_self, hmem output houtput⟩
      · obtain ⟨q, hq, havailable⟩ := hmems output houtput
        exact ⟨q, List.mem_cons_of_mem _ hq, havailable⟩
    · rw [List.map_append]
      refine hnodup.append hnodups ?_
      intro key hkey hkey'
      obtain ⟨output, houtput, rfl⟩ := List.mem_map.mp hkey
      obtain ⟨output', houtput', heq⟩ := List.mem_map.mp hkey'
      obtain ⟨q, hq, havailable⟩ := hmems output' houtput'
      have hhash : q.1 = p.1 := by
        rw [← havailable.hash, ← (hmem output houtput).hash]
        exact congrArg Prod.fst heq
      exact hp q hq hhash.symm

/-- The available coins are different outputs of transactions of the wallet. -/
structure AreAvailable (w : WalletState) (vCoins : List COutput) : Prop where
  mem : ∀ output ∈ vCoins, w.mapWallet[output.hash]? = some output.tx ∧ 0 < output.nValue
  distinct : (vCoins.map COutput.key).Nodup

theorem availableCoins_spec {fOnlyConfirmed : Bool} {vCoins : List COutput}
    (h : w.availableCoins env fuel fOnlyConfirmed = some vCoins) : w.AreAvailable vCoins := by
  obtain ⟨found, hfound, rfl⟩ := Option.map_eq_some_iff.mp h
  have hkeys : w.mapWallet.toList.Pairwise fun p q => p.1 ≠ q.1 :=
    TreeMap.distinct_keys_toList.imp fun h heq => h (Std.LawfulEqCmp.compare_eq_iff_eq.mpr heq)
  obtain ⟨hmem, hnodup⟩ := mapM_availableOf hkeys hfound
  refine ⟨fun output houtput => ?_, hnodup⟩
  obtain ⟨p, hp, havailable⟩ := hmem output houtput
  rw [havailable.hash, havailable.tx]
  exact ⟨TreeMap.mem_toList_iff_getElem?_eq_some.mp hp, havailable.value_pos⟩

theorem availableCoins_isSome {rank : uint256 → Nat} (hvalid : w.CachesValid)
    (hacyclic : w.Acyclic rank) (env : CreateEnv) (fOnlyConfirmed : Bool) :
    ∃ enough, ∀ fuel ≥ enough, (w.availableCoins env fuel fOnlyConfirmed).isSome := by
  obtain ⟨enough, henough⟩ := exists_enough (l := w.mapWallet.toList)
    (P := fun fuel p => (w.isConfirmed env.nAdjustedTime fuel p.2).isSome) fun p hmem => by
      have hget := TreeMap.mem_toList_iff_getElem?_eq_some.mp hmem
      exact exists_isConfirmed (hvalid _ _ hget) (hacyclic _ _ hget) env.nAdjustedTime
  refine ⟨enough, fun fuel hfuel => ?_⟩
  have hall : ∀ l : List (uint256 × CWalletTx),
      (∀ p ∈ l, (w.isConfirmed env.nAdjustedTime fuel p.2).isSome) →
      (l.mapM fun p => w.availableOf env fuel fOnlyConfirmed p.1 p.2).isSome := by
    intro l hl
    induction l with
    | nil => rfl
    | cons p l ih =>
      obtain ⟨others, hothers⟩ :=
        Option.isSome_iff_exists.mp (ih fun q hq => hl q (List.mem_cons_of_mem _ hq))
      obtain ⟨fConfirmed, hconfirmed⟩ := Option.isSome_iff_exists.mp (hl p List.mem_cons_self)
      have hp : (w.availableOf env fuel fOnlyConfirmed p.1 p.2).isSome := by
        have hquestion : ∃ fUsable, (if fOnlyConfirmed then some fConfirmed else some true) =
            some fUsable := by
          cases fOnlyConfirmed with
          | false => exact ⟨true, rfl⟩
          | true => exact ⟨fConfirmed, rfl⟩
        obtain ⟨fUsable, hfUsable⟩ := hquestion
        rw [availableOf, hconfirmed, hfUsable]
        split
        · rfl
        · cases fUsable with
          | false => rfl
          | true =>
            dsimp only
            split
            · rfl
            · rfl
      obtain ⟨first, hfirst⟩ := Option.isSome_iff_exists.mp hp
      rw [List.mapM_cons, hfirst, hothers]
      rfl
  rw [availableCoins, Option.isSome_map]
  exact hall _ (henough fuel hfuel)

/-! ## Selecting -/

omit [Hashing] in
theorem AreAvailable.summable {vCoins : List COutput} (h : w.AreAvailable vCoins)
    (hsum : (vCoins.map COutput.nValue).sum < 2 ^ 63 - 1) (nConfMine nConfTheirs : Int) :
    Summable (eligibleCoins w.isFromMe nConfMine nConfTheirs vCoins) := by
  have hpos : ∀ c ∈ vCoins.map COutput.coin, 0 < c.1 := by
    intro c hc
    obtain ⟨output, houtput, rfl⟩ := List.mem_map.mp hc
    exact (h.mem output houtput).2
  have hsub : (eligibleCoins w.isFromMe nConfMine nConfTheirs vCoins).Sublist
      (vCoins.map COutput.coin) := List.filter_sublist.map _
  rw [← total_map_coin] at hsum
  exact ⟨fun c hc => hpos c (hsub.subset hc), (total_le_of_sublist hsub hpos).trans_lt hsum⟩

omit [EllipticCurve] [ByteHashing160] [Hashing] in
/-- What `SelectCoinsMinConf` puts into the set if it returns true. -/
theorem outputs_of_selectCoinsMinConf {isFromMe : CWalletTx → Bool} {choices : Choices}
    {nTargetValue nConfMine nConfTheirs : Int}
    (htarget : Int64Range (nTargetValue + CTransaction.cent)) {vCoins : List COutput}
    (hsum : Summable (eligibleCoins isFromMe nConfMine nConfTheirs vCoins))
    (hdistinct : (vCoins.map COutput.key).Nodup) {setCoins : Finset OutputKey} {nValueIn : Int}
    (h : selectCoinsMinConf isFromMe choices nTargetValue nConfMine nConfTheirs vCoins =
      (true, setCoins, nValueIn)) :
    ∃ outputs : List COutput, (∀ output ∈ outputs, output ∈ vCoins) ∧
      StandsFor outputs setCoins nValueIn ∧ nTargetValue ≤ nValueIn ∧ nValueIn < 2 ^ 63 := by
  have hpays := selectCoinsMinConf_pays isFromMe choices htarget hsum
  rw [h] at hpays
  generalize hr : (true, setCoins, nValueIn) = r at hpays
  cases hpays with
  | short hshort => cases hr
  | covered chosen hcovers =>
    have hfit := hsum.sumsFit.subperm hcovers.subperm
    rw [hfit.insertCoins_eq] at hr
    cases hr
    obtain ⟨outputs, hmem, hstands⟩ := exists_outputs hdistinct hcovers.subperm
    exact ⟨outputs, fun output houtput => List.mem_of_mem_filter (hmem output houtput), hstands,
      hcovers.enough, (hfit chosen (List.Subperm.refl chosen)).2⟩

omit [Hashing] in
theorem outputs_of_selectCoins {choices : Nat → Choices} {vCoins : List COutput}
    (havailable : w.AreAvailable vCoins) (hsum : (vCoins.map COutput.nValue).sum < 2 ^ 63 - 1)
    {nTargetValue nValueIn : Int} (htarget : Int64Range (nTargetValue + CTransaction.cent))
    {setCoins : Finset OutputKey}
    (h : w.selectCoins choices vCoins nTargetValue = (true, setCoins, nValueIn)) :
    ∃ outputs : List COutput, (∀ output ∈ outputs, output ∈ vCoins) ∧
      StandsFor outputs setCoins nValueIn ∧ nTargetValue ≤ nValueIn ∧ nValueIn < 2 ^ 63 := by
  have hsummable := havailable.summable hsum
  rw [selectCoins] at h
  dsimp only at h
  split at h
  · exact outputs_of_selectCoinsMinConf htarget (hsummable 1 6) havailable.distinct h
  · split at h
    · exact outputs_of_selectCoinsMinConf htarget (hsummable 1 1) havailable.distinct h
    · exact outputs_of_selectCoinsMinConf htarget (hsummable 0 1) havailable.distinct h

omit [Hashing] in
/-- The pairs of the set point to the outputs that were selected, in some order. -/
theorem perm_deref {vCoins outputs : List COutput} (havailable : w.AreAvailable vCoins)
    (hmem : ∀ output ∈ outputs, output ∈ vCoins) {setCoins : Finset OutputKey} {nValueIn : Int}
    (hstands : StandsFor outputs setCoins nValueIn) (draws : Draws) :
    ((draws.order setCoins).filterMap w.deref).Perm
      (outputs.map fun output => (output.tx, output.i)) := by
  have hperm : (draws.order setCoins).Perm (outputs.map COutput.key) := by
    refine List.perm_of_nodup_nodup_toFinset_eq (draws.order_nodup setCoins) hstands.distinct ?_
    rw [draws.order_toFinset, hstands.set]
  have hderef : (outputs.map COutput.key).filterMap w.deref =
      outputs.map fun output => (output.tx, output.i) := by
    rw [List.filterMap_map, ← List.filterMap_eq_map]
    refine List.filterMap_congr fun output houtput => ?_
    have hget := (havailable.mem output (hmem output houtput)).1
    rw [Function.comp, deref, COutput.key, hget]
    rfl
  rw [← hderef]
  exact hperm.filterMap w.deref

end WalletState

/-- The same transaction but for what signs its inputs. -/
structure SameButSigned (tx tx' : CTransaction) : Prop where
  vout : tx'.vout = tx.vout
  prevouts : tx'.vin.map CTxIn.prevout = tx.vin.map CTxIn.prevout

theorem sameButSigned_setScriptSig (tx : CTransaction) (nIn : Nat) (scriptSig : CScript) :
    SameButSigned tx (tx.setScriptSig nIn scriptSig) where
  vout := rfl
  prevouts := by
    apply List.ext_getElem?
    intro i
    rw [CTransaction.setScriptSig, List.getElem?_map, List.getElem?_map, List.getElem?_modify]
    split
    · cases tx.vin[i]? <;> rfl
    · cases tx.vin[i]? <;> rfl

theorem SameButSigned.trans {tx tx' tx'' : CTransaction} (h : SameButSigned tx tx')
    (h' : SameButSigned tx' tx'') : SameButSigned tx tx'' :=
  ⟨h'.vout.trans h.vout, h'.prevouts.trans h.prevouts⟩

theorem sameButSigned_signInputs {signer : Signer} {nIn : Nat} {coins : List (CWalletTx × Nat)}
    {wtxNew tx : CTransaction} (h : signInputs signer nIn coins wtxNew = some tx) :
    SameButSigned wtxNew tx := by
  induction coins generalizing nIn wtxNew with
  | nil =>
    cases h
    exact ⟨rfl, rfl⟩
  | cons coin coins ih =>
    rw [signInputs] at h
    obtain ⟨scriptSig, hsign⟩ := signer.sign_eq (coinOutput coin).scriptPubKey wtxNew nIn
    split at h
    · next signed heq =>
      rw [heq] at hsign
      have hfirst := sameButSigned_setScriptSig wtxNew nIn scriptSig
      rw [← hsign] at hfirst
      exact hfirst.trans (ih h)
    · cases h

/-! ## The outputs -/

def sumOutputs (vout : List CTxOut) : Int := (vout.map CTxOut.nValue).sum

/-- The payees in their order, with at most one output more somewhere among them, which is worth
something. -/
inductive PaysOut (vecSend : List (CScript × Int)) : List CTxOut → Prop
  | exact : PaysOut vecSend (payees vecSend)
  | change (i : Nat) (change : CTxOut) (hi : i ≤ (payees vecSend).length) (hpos : 0 < change.nValue) :
    PaysOut vecSend ((payees vecSend).insertIdx i change)

theorem sumOutputs_insertIdx {vout : List CTxOut} {i : Nat} (hi : i ≤ vout.length) (txout : CTxOut) :
    sumOutputs (vout.insertIdx i txout) = sumOutputs vout + txout.nValue := by
  have hperm := List.perm_insertIdx txout vout hi
  rw [sumOutputs, (hperm.map CTxOut.nValue).sum_eq, List.map_cons, List.sum_cons, Int.add_comm,
    sumOutputs]

theorem paysOut_addChange [ByteHashing160] (draws : Draws) (nChange : Int)
    (vecSend : List (CScript × Int)) :
    PaysOut vecSend (addChange draws nChange (payees vecSend)) := by
  rw [addChange]
  split
  · next hpos =>
    have hlt := draws.getRandInt_lt ((payees vecSend).length + 1) (Nat.succ_pos _)
    exact .change _ _ (Nat.le_of_lt_succ hlt) hpos
  · exact .exact

theorem sumOutputs_addChange [ByteHashing160] (draws : Draws) {nChange : Int} (hchange : 0 ≤ nChange)
    (vout : List CTxOut) : sumOutputs (addChange draws nChange vout) = sumOutputs vout + nChange := by
  rw [addChange]
  split
  · have hlt := draws.getRandInt_lt (vout.length + 1) (Nat.succ_pos _)
    rw [sumOutputs_insertIdx (Nat.le_of_lt_succ hlt)]
  · omega

theorem moveToFee_spec (nChange : Int) {nFeeRet : Int} (hfee : 0 ≤ nFeeRet) :
    0 ≤ moveToFee nChange nFeeRet ∧
      (moveToFee nChange nFeeRet = 0 ∨ nFeeRet + moveToFee nChange nFeeRet ≤ CTransaction.minTxFee) ∧
      (0 ≤ nChange → moveToFee nChange nFeeRet ≤ nChange) := by
  have hmin : CTransaction.minTxFee < 2 ^ 63 := by decide
  rw [moveToFee]
  split
  · next hmove =>
    have hless := hmove.1
    rw [wrap64_of_range ⟨by omega, by omega⟩]
    omega
  · exact ⟨Int.le_refl 0, .inl rfl, id⟩

theorem sumOutputs_payees_nonneg {vecSend : List (CScript × Int)} (hpos : ∀ s ∈ vecSend, 0 < s.2) :
    0 ≤ sumOutputs (payees vecSend) := by
  refine List.sum_nonneg fun nValue hmem => ?_
  rw [payees, List.map_map] at hmem
  obtain ⟨s, hs, rfl⟩ := List.mem_map.mp hmem
  exact (hpos s hs).le

theorem sumOutputs_payees {vecSend : List (CScript × Int)} (hpos : ∀ s ∈ vecSend, 0 < s.2)
    {nValue n : Int} (hn : 0 ≤ n) (hsum : n + sumOutputs (payees vecSend) < 2 ^ 63)
    (h : WalletState.sumPayments n vecSend = some nValue) :
    nValue = n + sumOutputs (payees vecSend) := by
  induction vecSend generalizing n with
  | nil =>
    obtain rfl := Option.some.inj h
    exact (Int.add_zero _).symm
  | cons s vecSend ih =>
    obtain ⟨hs, hpos⟩ := List.forall_mem_cons.mp hpos
    have hcons : sumOutputs (payees (s :: vecSend)) = s.2 + sumOutputs (payees vecSend) := rfl
    have hrest := sumOutputs_payees_nonneg hpos
    rw [WalletState.sumPayments] at h
    split at h
    · cases h
    · rw [hcons] at hsum ⊢
      rw [wrap64_of_range ⟨by omega, by omega⟩] at h
      rw [ih hpos (by omega) (by omega) h, Int.add_assoc]

/-! ## A round -/

theorem getMinFee_le (tx : CTransaction) (nBlockSize : Nat) (fAllowFree fRelay : Bool) :
    tx.getMinFee nBlockSize fAllowFree fRelay ≤ maxMoney := by
  have hlimit : ∀ {c : Prop} [Decidable c] {n : Int}, n ≤ maxMoney →
      (if c then maxMoney else n) ≤ maxMoney := by
    intro c _ n hn
    split
    · exact Int.le_refl _
    · exact hn
  have hrange : ∀ n : Int, (if moneyRange n then n else maxMoney) ≤ maxMoney := by
    intro n
    split
    · next h => exact (moneyRange_iff.mp h).2
    · exact Int.le_refl _
  exact hlimit (hrange _)

def feeBound (nTransactionFee : Int) : Int := max (nTransactionFee * 100) maxMoney

theorem payFee_le (nTransactionFee : Int) {nBytes : Nat} (h : nBytes < maxStandardTxSize) :
    nTransactionFee * (1 + (nBytes / 1000 : Nat)) ≤ feeBound nTransactionFee := by
  have hmax : maxStandardTxSize = 100000 := by decide
  have hfactor : (1 + (nBytes / 1000 : Nat) : Int) ≤ 100 := by omega
  rcases Int.le_total 0 nTransactionFee with hfee | hfee
  · exact (Int.mul_le_mul_of_nonneg_left hfactor hfee).trans (le_max_left _ _)
  · have hneg := Int.mul_nonpos_of_nonpos_of_nonneg hfee
      (by omega : (0 : Int) ≤ 1 + (nBytes / 1000 : Nat))
    exact hneg.trans (le_trans (by decide) (le_max_right _ _))

namespace WalletState

variable [EllipticCurve] [ByteHashing160] [Hashing]

/-- A transaction that pays the coins out, in full, to the payees, the change and the fee. -/
structure Balanced (w : WalletState) (env : CreateEnv) (vecSend : List (CScript × Int))
    (created : Created) : Prop where
  selected : ∃ outputs : List COutput, (outputs.map COutput.key).Nodup ∧
    (∀ output ∈ outputs, w.mapWallet[output.hash]? = some output.tx ∧ 0 < output.nValue) ∧
    created.coins.Perm (outputs.map fun output => (output.tx, output.i))
  inputs : created.tx.vin.map CTxIn.prevout = created.coins.map fun coin => (coinInput coin).prevout
  conserved : sumOutputs (created.coins.map coinOutput) =
    sumOutputs created.tx.vout + created.nFeeRet
  outputs : PaysOut vecSend created.tx.vout
  payFee : env.nTransactionFee * (1 + (created.tx.getSerializeSize / 1000 : Nat)) ≤ created.nFeeRet
  minFee : created.tx.getMinFee 1 (env.allowFree created.coins created.tx.getSerializeSize) false ≤
    created.nFeeRet

/-- The payments are worth something, and together with the fee and a cent they are an `int64`; and so
are the coins that there are to select from. -/
structure AmountsFit (w : WalletState) (env : CreateEnv) (vecSend : List (CScript × Int)) : Prop where
  positive : ∀ s ∈ vecSend, 0 < s.2
  payments : sumOutputs (payees vecSend) + feeBound env.nTransactionFee + CTransaction.cent < 2 ^ 63
  coins : ∀ fuel vCoins, w.availableCoins env fuel true = some vCoins →
    (vCoins.map COutput.nValue).sum < 2 ^ 63 - 1

/-- A fee that a round can start with. -/
structure FeeOk (w : WalletState) (env : CreateEnv) (vecSend : List (CScript × Int)) (nFeeRet : Int) :
    Prop where
  nonneg : 0 ≤ nFeeRet
  lt : nFeeRet < 2 ^ 63
  le : w.AmountsFit env vecSend → nFeeRet ≤ feeBound env.nTransactionFee

/-- What one round does: it fails, asks for a higher fee, or has a transaction, which is balanced if
the amounts fit. -/
inductive RoundOk (w : WalletState) (env : CreateEnv) (vecSend : List (CScript × Int))
    (nFeeRet : Int) : Round → Prop
  | failed : RoundOk w env vecSend nFeeRet .failed
  | retry (nFeeRet' : Int) (hless : nFeeRet < nFeeRet') (h : w.FeeOk env vecSend nFeeRet') :
    RoundOk w env vecSend nFeeRet (.retry nFeeRet')
  | created (created : Created) (h : w.AmountsFit env vecSend → w.Balanced env vecSend created) :
    RoundOk w env vecSend nFeeRet (.created created)

variable {w : WalletState} {env : CreateEnv} {vecSend : List (CScript × Int)}

omit [EllipticCurve] [ByteHashing160] [Hashing] in
theorem nValue_coinOutput (output : COutput) :
    (coinOutput (output.tx, output.i)).nValue = output.nValue := by
  rw [coinOutput, COutput.nValue]
  cases output.tx.tx.vout[output.i]? <;> rfl

/-- What holds of a transaction before its fee is checked. -/
structure Conserves (w : WalletState) (vecSend : List (CScript × Int)) (tx : CTransaction)
    (coins : List (CWalletTx × Nat)) (nFee : Int) : Prop where
  selected : ∃ outputs : List COutput, (outputs.map COutput.key).Nodup ∧
    (∀ output ∈ outputs, w.mapWallet[output.hash]? = some output.tx ∧ 0 < output.nValue) ∧
    coins.Perm (outputs.map fun output => (output.tx, output.i))
  inputs : tx.vin.map CTxIn.prevout = coins.map fun coin => (coinInput coin).prevout
  conserved : sumOutputs (coins.map coinOutput) = sumOutputs tx.vout + nFee
  outputs : PaysOut vecSend tx.vout

theorem roundOk_checkFee (hfee : 0 ≤ env.nTransactionFee) {tx : CTransaction}
    {coins : List (CWalletTx × Nat)} {nFeeRet nFee : Int} (hok : w.FeeOk env vecSend nFeeRet)
    (hle : nFeeRet ≤ nFee) (h : w.AmountsFit env vecSend → w.Conserves vecSend tx coins nFee) :
    RoundOk w env vecSend nFeeRet (checkFee env tx coins nFee) := by
  rw [checkFee]
  dsimp only
  split
  · exact .failed
  · next hsize =>
    have hpayFee := payFee_le env.nTransactionFee (Nat.lt_of_not_le hsize)
    have hpos : 0 ≤ env.nTransactionFee * (1 + (tx.getSerializeSize / 1000 : Nat)) :=
      Int.mul_nonneg hfee (by omega)
    have hminFee := getMinFee_le tx 1 (env.allowFree coins tx.getSerializeSize) false
    have hexact : w.AmountsFit env vecSend →
        wrap64 (env.nTransactionFee * (1 + (tx.getSerializeSize / 1000 : Nat))) =
          env.nTransactionFee * (1 + (tx.getSerializeSize / 1000 : Nat)) := by
      intro hfit
      have hpayments := hfit.payments
      have hnonneg := sumOutputs_payees_nonneg hfit.positive
      have hcent := cent_pos
      exact wrap64_of_range ⟨by omega, by omega⟩
    split
    · next hless =>
      have hmax : maxMoney < 2 ^ 63 := by decide
      have hwrap := (wrap64_range
        (env.nTransactionFee * (1 + (tx.getSerializeSize / 1000 : Nat)))).2
      have hnonneg := hok.nonneg
      refine .retry _ (Int.lt_of_le_of_lt hle hless) ⟨by omega, by omega, fun hfit => ?_⟩
      rw [hexact hfit]
      exact max_le hpayFee (hminFee.trans (le_max_right _ _))
    · next henough =>
      have henough := Int.not_lt.mp henough
      refine .created _ fun hfit => ?_
      rw [hexact hfit] at henough
      obtain ⟨hselected, hinputs, hconserved, houtputs⟩ := h hfit
      exact ⟨hselected, hinputs, hconserved, houtputs, (le_max_left _ _).trans henough,
        (le_max_right _ _).trans henough⟩

theorem roundOk_createRound {fuel : Nat} {wtxNew : CTransaction} {nValue : Int}
    (hfee : 0 ≤ env.nTransactionFee) (hvalue : sumPayments 0 vecSend = some nValue) {draws : Draws}
    {nFeeRet : Int} (hok : w.FeeOk env vecSend nFeeRet) {round : Round}
    (h : w.createRound env fuel wtxNew vecSend nValue draws nFeeRet = some round) :
    RoundOk w env vecSend nFeeRet round := by
  obtain ⟨vCoins, hcoins, h⟩ := Option.bind_eq_some_iff.mp h
  split at h
  · cases h
    exact .failed
  · next setCoins nValueIn hselect =>
    dsimp only at h
    split at h
    · cases h
      exact .failed
    · next tx hsign =>
      cases h
      have hsame := sameButSigned_signInputs hsign
      have hnonneg := hok.nonneg
      have hlt := hok.lt
      have hminTxFee : CTransaction.minTxFee < 2 ^ 63 := by decide
      obtain ⟨hmove, hup, hdown⟩ :=
        moveToFee_spec (wrap64 (wrap64 (nValueIn - nValue) - nFeeRet)) hnonneg
      have hmoved : wrap64 (nFeeRet + moveToFee (wrap64 (wrap64 (nValueIn - nValue) - nFeeRet)) nFeeRet) =
          nFeeRet + moveToFee (wrap64 (wrap64 (nValueIn - nValue) - nFeeRet)) nFeeRet :=
        wrap64_of_range ⟨by omega, by omega⟩
      rw [hmoved]
      refine roundOk_checkFee hfee hok (by omega) fun hfit => ?_
      -- No amount wraps around
      have hpayments := hfit.payments
      have hfees := hok.le hfit
      have hcent := cent_pos
      have hpaid := sumOutputs_payees_nonneg hfit.positive
      have hsum := sumOutputs_payees hfit.positive (Int.le_refl 0) (by omega) hvalue
      rw [Int.zero_add] at hsum
      rw [wrap64_of_range (x := nValue + nFeeRet) ⟨by omega, by omega⟩] at hselect
      have havailable := availableCoins_spec hcoins
      obtain ⟨outputs, hmem, hstands, henough, hbelow⟩ :=
        outputs_of_selectCoins havailable (hfit.coins fuel vCoins hcoins) ⟨by omega, by omega⟩ hselect
      have hperm := perm_deref havailable hmem hstands draws
      have hchange : wrap64 (wrap64 (nValueIn - nValue) - nFeeRet) = nValueIn - nValue - nFeeRet := by
        rw [wrap64_of_range (x := nValueIn - nValue) ⟨by omega, by omega⟩]
        exact wrap64_of_range ⟨by omega, by omega⟩
      rw [hchange] at hsame hmove hup hdown ⊢
      have hless := hdown (by omega)
      rw [wrap64_of_range (x := nValueIn - nValue - nFeeRet - _) ⟨by omega, by omega⟩] at hsame
      refine ⟨⟨outputs, hstands.distinct, fun output houtput => havailable.mem _ (hmem _ houtput),
        hperm⟩, ?_, ?_, ?_⟩
      · rw [hsame.prevouts, List.map_map]
        rfl
      · have hin : sumOutputs (((draws.order setCoins).filterMap w.deref).map coinOutput) =
            nValueIn := by
          rw [hstands.sum, sumOutputs, List.map_map, (hperm.map _).sum_eq, List.map_map]
          refine congrArg List.sum (List.map_congr_left fun output _ => ?_)
          exact nValue_coinOutput output
        rw [hin, hsame.vout, sumOutputs_addChange draws (by omega), ← hsum]
        omega
      · rw [hsame.vout]
        exact paysOut_addChange draws _ vecSend

/-! ## All rounds -/

/-- The fee grows from round to round. -/
theorem createLoop_spec {round : Nat → Int → Option Round}
    (hround : ∀ nRound nFeeRet, w.FeeOk env vecSend nFeeRet →
      ∃ r, round nRound nFeeRet = some r ∧ RoundOk w env vecSend nFeeRet r)
    {fuel : Nat} (nRound : Nat) {nFeeRet : Int} (hok : w.FeeOk env vecSend nFeeRet)
    (hfuel : (2 ^ 63 - nFeeRet).toNat < fuel) :
    ∃ r, createLoop round fuel nRound nFeeRet = some r ∧
      ∀ created, r = some created → w.AmountsFit env vecSend → w.Balanced env vecSend created := by
  induction fuel generalizing nRound nFeeRet with
  | zero => exact absurd hfuel (Nat.not_lt_zero _)
  | succ fuel ih =>
    obtain ⟨r, hr, hround⟩ := hround nRound nFeeRet hok
    rw [createLoop, hr]
    cases hround with
    | failed => exact ⟨none, rfl, fun _ h => by cases h⟩
    | retry nFeeRet' hless hok' =>
      have hlt := hok'.lt
      exact ih (nRound + 1) hok' (by omega)
    | created created h =>
      refine ⟨some created, rfl, fun created' heq => ?_⟩
      rw [← Option.some.inj heq]
      exact h

omit [EllipticCurve] [ByteHashing160] [Hashing] in
theorem createLoop_of_le {round : Nat → Int → Option Round} {fuel fuel' nRound : Nat} {nFeeRet : Int}
    {r : Option Created} (hle : fuel ≤ fuel') (h : createLoop round fuel nRound nFeeRet = some r) :
    createLoop round fuel' nRound nFeeRet = some r := by
  induction fuel generalizing fuel' nRound nFeeRet with
  | zero => cases h
  | succ fuel ih =>
    obtain ⟨fuel', rfl⟩ : ∃ k, fuel' = k + 1 := ⟨fuel' - 1, by omega⟩
    rw [createLoop] at h ⊢
    obtain ⟨last, hlast, h⟩ := Option.bind_eq_some_iff.mp h
    rw [hlast]
    cases last with
    | failed => exact h
    | retry nFeeRet => exact ih (Nat.le_of_succ_le_succ hle) h
    | created created => exact h

end WalletState

namespace CreateSample

open KeySample Sample WalletSample

/-- A confirmed payment of 5 cents to the key. -/
def payment : CWalletTx :=
  { transaction [⟨⟨3, 0⟩, [], 0xffffffff⟩]
      [⟨5 * CTransaction.cent, CScript.push key.getPubKey ++ [CScript.OP_CHECKSIG]⟩] 5 with
    hashBlock := 1
    nIndex := 0 }

def funded : WalletState :=
  { wallet with
    mapWallet := (∅ : TreeMap uint256 CWalletTx).insert 5 payment
    pindexBest := some BalanceSample.tip }

theorem eq_payment {hash : uint256} {wtx : CWalletTx} (h : funded.mapWallet[hash]? = some wtx) :
    wtx = payment := by
  change ((∅ : TreeMap uint256 CWalletTx).insert 5 payment)[hash]? = some wtx at h
  rw [TreeMap.getElem?_insert] at h
  split at h
  · exact (Option.some.inj h).symm
  · cases h

theorem cachesValid : funded.CachesValid := by
  intro hash wtx h
  rw [eq_payment h]
  exact ⟨Memo.valid_none, Memo.valid_none, Memo.valid_none, Memo.valid_none, Memo.valid_none⟩

theorem acyclic : funded.Acyclic fun hash => hash.toNat := by
  intro hash wtx h mtx hmem
  rw [eq_payment h] at hmem
  obtain rfl := List.mem_singleton.mp hmem
  exact ⟨by decide +kernel, by decide +kernel⟩

def Before (a b : OutputKey) : Prop :=
  a.1.toNat < b.1.toNat ∨ a.1.toNat = b.1.toNat ∧ a.2 ≤ b.2

instance : DecidableRel Before := fun _ _ => inferInstanceAs (Decidable (_ ∨ _))

instance : IsTrans OutputKey Before := ⟨fun a b c hab hbc => by grind [Before]⟩

instance : Std.Antisymm Before := ⟨fun a b hab hba => by
  have hhash : a.1.toNat = b.1.toNat := by grind [Before]
  have hn : a.2 = b.2 := by grind [Before]
  exact Prod.ext (BitVec.eq_of_toNat_eq hhash) hn⟩

instance : Std.Total Before := ⟨fun a b => by grind [Before]⟩

def signer : Signer where
  sign _ txTo nIn := (true, txTo.setScriptSig nIn [0x51])
  sign_eq _ _ _ := ⟨[0x51], rfl⟩

def draws : Draws where
  selection _ := CoinSample.choices
  order setCoins := setCoins.sort Before
  order_nodup setCoins := setCoins.sort_nodup Before
  order_toFinset setCoins := setCoins.sort_toFinset Before
  reservedKey := key.getPubKey
  getRandInt _ := 0
  getRandInt_lt _ h := h
  signer := signer

def env : CreateEnv where
  nAdjustedTime := 0
  setLockedCoins := []
  nTransactionFee := 0
  allowFree _ _ := false

def wtxNew : CTransaction := ⟨1, [], [], 0⟩

def vecSend : List (CScript × Int) := [([], 2 * CTransaction.cent)]

theorem availableCoins_eq (fuel : Nat) :
    funded.availableCoins env fuel true = funded.availableCoins env 0 true := by
  have hlist : funded.mapWallet.toList = [(5, payment)] := rfl
  have hof : funded.availableOf env fuel true 5 payment =
      funded.availableOf env 0 true 5 payment := by
    have hconfirmed : ∀ fuel, funded.isConfirmed env.nAdjustedTime fuel payment = some true :=
      fun _ => WalletState.isConfirmed_of_depth (by decide +kernel) (by decide +kernel)
    rw [WalletState.availableOf, hconfirmed, WalletState.availableOf, hconfirmed]
  rw [WalletState.availableCoins, hlist, WalletState.availableCoins, hlist]
  simp only [List.mapM_cons, hof, List.mapM_nil]

theorem amountsFit : funded.AmountsFit env vecSend where
  positive := by decide
  payments := by decide
  coins fuel vCoins h := by
    rw [availableCoins_eq] at h
    have hvalues : (funded.availableCoins env 0 true).map (fun vCoins =>
        (vCoins.map COutput.nValue).sum) = some (5 * CTransaction.cent) := by decide +kernel
    rw [h, Option.map_some, Option.some.injEq] at hvalues
    rw [hvalues]
    decide

/-- With enough fuel a call returns what it returns with 3. -/
theorem createTransaction_of_le {fuel : Nat} (hfuel : 3 ≤ fuel) (vecSend : List (CScript × Int))
    {r : Option Created}
    (h : funded.createTransaction env 3 wtxNew vecSend (fun _ => draws) = some r) :
    funded.createTransaction env fuel wtxNew vecSend (fun _ => draws) = some r := by
  have hround : ∀ nValue nFeeRet, funded.createRound env fuel wtxNew vecSend nValue draws nFeeRet =
      funded.createRound env 3 wtxNew vecSend nValue draws nFeeRet := by
    intro nValue nFeeRet
    rw [WalletState.createRound, availableCoins_eq fuel, WalletState.createRound,
      availableCoins_eq 3]
  rw [WalletState.createTransaction] at h ⊢
  simp only [hround]
  cases hsum : WalletState.sumPayments 0 vecSend with
  | none => rwa [hsum] at h
  | some nValue =>
    rw [hsum] at h
    dsimp only at h ⊢
    split at h
    · next hinvalid => rwa [if_pos hinvalid]
    · next hvalid =>
      rw [if_neg hvalid]
      exact WalletState.createLoop_of_le hfuel h

/-- The largest `int64`, with which the fee wraps around. -/
def vecWrap : List (CScript × Int) := [([], 2 ^ 63 - 1)]

end CreateSample

end Terracoin
