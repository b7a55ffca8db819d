import Terracoin.Lib.DoubleEntry
import Terracoin.Mempool.Pool
import Terracoin.Wallet.Recorded

/-!
# The balance of a wallet

`GetBalance` sums up the unspent outputs of confirmed transactions, and `getbalance "*"` what was
received and sent by all of them. Every output that is mine is spent as often as a transaction of
the wallet spends it, so the two differ by what one of them counts alone: immature coinbases,
unconfirmed change, and what is in transactions that are not final.
-/

namespace Terracoin

open Std (TreeMap)
open Memo CWalletTx

def sumOption {α : Type} (f : α → Option Int) (l : List α) : Option Int :=
  l.foldlM (fun n a => (f a).map fun v => n + v) 0

theorem sumOption_eq {α : Type} {f : α → Option Int} {g : α → Int} {l : List α}
    (h : ∀ a ∈ l, f a = some (g a)) : sumOption f l = some (l.map g).sum := by
  have hfold : ∀ n : Int, l.foldlM (fun n a => (f a).map fun v => n + v) n =
      some (n + (l.map g).sum) := by
    induction l with
    | nil => simp
    | cons a l ih =>
      intro n
      rw [List.foldlM_cons, h a List.mem_cons_self, Option.map_some, List.map_cons, List.sum_cons,
        ← Int.add_assoc]
      exact ih (fun b hb => h b (List.mem_cons_of_mem _ hb)) (n + g a)
  rw [sumOption, hfold, Int.zero_add]

section

variable [EllipticCurve] [ByteHashing160] [Hashing]

/-! ## `IsConfirmed` -/

namespace WalletState

def nBestHeight (w : WalletState) : Int :=
  match w.pindexBest with
  | none => -1
  | some pindex => pindex.nHeight

/-- `IsFinal()`, at the time that `GetAdjustedTime` gives. -/
def isFinal (w : WalletState) (nAdjustedTime : Int) (tx : CTransaction) : Bool :=
  tx.isFinalAt w.nBestHeight nAdjustedTime

/-- The depth of a transaction. The getters leave it as it is. -/
def depth (w : WalletState) (mtx : CMerkleTx) : Nat := (mtx.getDepthInMainChain w.pindexBest).1

/-- `mapPrev[hash]`. -/
def findPrev (vtxPrev : List CMerkleTx) (hash : uint256) : Option CMerkleTx :=
  vtxPrev.reverse.find? fun mtx => mtx.tx.getHash = hash

/-- The loop of `IsConfirmed` from an entry of `vWorkQueue` on, for so many entries. -/
def confirmQueue (w : WalletState) (nAdjustedTime : Int) (vtxPrev : List CMerkleTx) :
    Nat → List CMerkleTx → Option Bool
  | 0, _ => none
  | _ + 1, [] => some true
  | fuel + 1, ptx :: vWorkQueue =>
    if !w.isFinal nAdjustedTime ptx.tx then some false
    else if 1 ≤ w.depth ptx then w.confirmQueue nAdjustedTime vtxPrev fuel vWorkQueue
    else
      match w.debit ptx.tx with
      | none => none
      | some nDebit =>
        if nDebit ≤ 0 then some false
        else
          match ptx.tx.vin.mapM fun txin => findPrev vtxPrev txin.prevout.hash with
          | none => some false
          | some prevs => w.confirmQueue nAdjustedTime vtxPrev fuel (vWorkQueue ++ prevs)

def isConfirmed (w : WalletState) (nAdjustedTime : Int) (fuel : Nat) (wtx : CWalletTx) :
    Option Bool :=
  -- Quick answer in most cases
  if !w.isFinal nAdjustedTime wtx.tx then some false
  else if 1 ≤ w.depth wtx.toCMerkleTx then some true
  else
    match (wtx.getDebit w).1 with
    | none => none
    | some nDebit =>
      if nDebit ≤ 0 then some false
      else w.confirmQueue nAdjustedTime wtx.vtxPrev fuel [wtx.toCMerkleTx]

/-! ## The balances -/

/-- What `GetBalance` counts of a transaction. -/
def balanceOf (w : WalletState) (nAdjustedTime : Int) (fuel : Nat) (wtx : CWalletTx) : Option Int :=
  if w.isFinal nAdjustedTime wtx.tx then
    match w.isConfirmed nAdjustedTime fuel wtx with
    | none => none
    | some true => (wtx.getAvailableCredit w true).1
    | some false => some 0
  else some 0

def getBalance (w : WalletState) (nAdjustedTime : Int) (fuel : Nat) : Option Int :=
  sumOption (fun p => w.balanceOf nAdjustedTime fuel p.2) w.mapWallet.toList

/-- An output in the lists of `GetAmounts`. -/
def amountOf (txout : CTxOut) : Option CTxDestination × Int :=
  (extractDestination txout.scriptPubKey, txout.nValue)

/-- `GetAmounts`: `listReceived`, `listSent` and `nFee`. -/
def getAmounts (w : WalletState) (wtx : CWalletTx) :
    Option (List (Option CTxDestination × Int) × List (Option CTxDestination × Int) × Int) := do
  let nDebit ← (wtx.getDebit w).1
  -- debit>0 means we signed/sent this transaction
  let fSent := decide (0 < nDebit)
  let nFee ← if fSent then wtx.tx.getValueOut.toOption.map fun nValueOut => nDebit - nValueOut
    else some 0
  -- Don't report 'change' txouts
  let vout := wtx.tx.vout.filter fun txout => !(fSent && w.isChange txout)
  some ((vout.filter w.isMine).map amountOf, if fSent then vout.map amountOf else [], nFee)

/-- What `getbalance "*"` counts of a transaction. -/
def flowOf (w : WalletState) (nAdjustedTime : Int) (nMinDepth : Int) (wtx : CWalletTx) :
    Option Int :=
  if w.isFinal nAdjustedTime wtx.tx then do
    let (listReceived, listSent, allFee) ← w.getAmounts wtx
    let nReceived :=
      if nMinDepth ≤ w.depth wtx.toCMerkleTx then (listReceived.map Prod.snd).sum else 0
    some (nReceived - (listSent.map Prod.snd).sum - allFee)
  else some 0

/-- `getbalance "*"`. -/
def getBalanceAll (w : WalletState) (nAdjustedTime : Int) (nMinDepth : Int) : Option Int :=
  sumOption (fun p => w.flowOf nAdjustedTime nMinDepth p.2) w.mapWallet.toList

/-! ## What a transaction is worth -/

def valueOf (p : CTxOut → Bool) (vout : List CTxOut) : Int :=
  ((vout.filter p).map CTxOut.nValue).sum

def debitSum (w : WalletState) (tx : CTransaction) : Int := (tx.vin.map w.debitOf).sum

def mineSum (w : WalletState) (tx : CTransaction) : Int := (tx.vout.map w.mineValue).sum

/-- The outputs that are mine and marked as spent. -/
def spentSum (w : WalletState) (wtx : CWalletTx) : Int :=
  ((wtx.tx.vout.zipIdx.filter fun p => wtx.isSpent p.2).map fun p => w.mineValue p.1).sum

variable {w : WalletState} {wtx : CWalletTx} {tx : CTransaction}

omit [EllipticCurve] [ByteHashing160] [Hashing] in
theorem sum_filter_add_sum_filter_not {α : Type} (p : α → Bool) (g : α → Int) (l : List α) :
    ((l.filter p).map g).sum + ((l.filter fun a => !p a).map g).sum = (l.map g).sum := by
  induction l with
  | nil => rfl
  | cons a l ih =>
    cases hp : p a <;> simp [hp] <;> omega

omit [Hashing] in
theorem mineSum_eq (tx : CTransaction) : w.mineSum tx = valueOf w.isMine tx.vout := by
  unfold mineSum valueOf
  induction tx.vout with
  | nil => rfl
  | cons txout vout ih =>
    rw [List.map_cons, List.sum_cons, ih, mineValue]
    cases hmine : w.isMine txout <;> simp [hmine]

omit [Hashing] in
theorem sum_unspent (w : WalletState) (wtx : CWalletTx) :
    (wtx.unspent.map w.mineValue).sum = w.mineSum wtx.tx - w.spentSum wtx := by
  have hsplit := sum_filter_add_sum_filter_not (fun p : CTxOut × Nat => wtx.isSpent p.2)
    (fun p => w.mineValue p.1) wtx.tx.vout.zipIdx
  have hall : (wtx.tx.vout.zipIdx.map fun p => w.mineValue p.1) = wtx.tx.vout.map w.mineValue := by
    have hfst : (fun p : CTxOut × Nat => w.mineValue p.1) = w.mineValue ∘ Prod.fst := rfl
    rw [hfst, ← List.map_map, List.zipIdx_map_fst]
  rw [hall] at hsplit
  have hunspent : (wtx.unspent.map w.mineValue).sum =
      ((wtx.tx.vout.zipIdx.filter fun p => !wtx.isSpent p.2).map fun p => w.mineValue p.1).sum := by
    rw [unspent, List.map_map]
    rfl
  rw [hunspent, spentSum, mineSum]
  omega

omit [EllipticCurve] [ByteHashing160] [Hashing] in
/-- A sum that stays in range. -/
theorem eq_of_sumMoney {α : Type} {g : α → Int} {l : List α} {n : Int}
    (h : sumMoney (fun a => some (g a)) l = some n) : n = (l.map g).sum ∧ 0 ≤ n := by
  have hfold : ∀ m : Int, 0 ≤ m → l.foldlM (addMoney fun a => some (g a)) m = some n →
      n = m + (l.map g).sum ∧ 0 ≤ n := by
    clear h
    induction l with
    | nil =>
      intro m hm h
      obtain rfl := Option.some.inj h
      exact ⟨by simp, hm⟩
    | cons a l ih =>
      intro m hm h
      rw [List.foldlM_cons] at h
      obtain ⟨m', hm', h⟩ := Option.bind_eq_some_iff.mp h
      have hadd : (if moneyRange (m + g a) then some (m + g a) else none) = some m' := hm'
      split at hadd
      · rename_i hrange
        obtain rfl := Option.some.inj hadd
        obtain ⟨hsum, hnonneg⟩ := ih _ (moneyRange_iff.mp hrange).1 h
        rw [List.map_cons, List.sum_cons]
        exact ⟨by omega, hnonneg⟩
      · cases hadd
  obtain ⟨hsum, hnonneg⟩ := hfold 0 (Int.le_refl 0) h
  exact ⟨by omega, hnonneg⟩

omit [Hashing] in
theorem debit_eq_of_isSome (h : (w.debit tx).isSome) :
    w.debit tx = some (w.debitSum tx) ∧ 0 ≤ w.debitSum tx := by
  obtain ⟨n, hn⟩ := Option.isSome_iff_exists.mp h
  obtain ⟨hsum, hnonneg⟩ := eq_of_sumMoney hn
  rw [debitSum, ← hsum]
  exact ⟨hn, hnonneg⟩

omit [Hashing] in
theorem getDebit_eq (hvalid : wtx.CachesValid w) (hdebit : (w.debit wtx.tx).isSome) :
    (wtx.getDebit w).1 = some (w.debitSum wtx.tx) := by
  rw [hvalid.getDebit.value, ← (debit_eq_of_isSome hdebit).1]
  have htx : wtx.uncached.tx = wtx.tx := rfl
  rw [CWalletTx.getDebit, htx]
  split
  · rename_i hvin
    rw [debit, hvin]
    rfl
  · exact look_none_fst true

/-- `IsCoinBase() && GetBlocksToMaturity() > 0`. -/
def immature (w : WalletState) (wtx : CWalletTx) : Bool := (wtx.isImmature w).1

theorem getAvailableCredit_eq (hvalid : wtx.CachesValid w) (hchecked : wtx.tx.Checked) :
    (wtx.getAvailableCredit w true).1 =
      some (if w.immature wtx then 0 else w.mineSum wtx.tx - w.spentSum wtx) := by
  have hlook : ∀ wtx0 : CWalletTx, wtx0.tx = wtx.tx → wtx0.vfSpent = wtx.vfSpent →
      (wtx0.uncached.lookAvailableCredit w true).1 = w.availableCredit wtx := by
    intro wtx0 htx hspent
    refine (look_none_fst true).trans ?_
    have hunspent : wtx0.uncached.unspent = wtx.unspent :=
      unspent_congr htx fun i _ => congrArg (fun vfSpent : List Bool => vfSpent.getD i false) hspent
    rw [availableCredit, availableCredit, hunspent]
  have hsublist : wtx.unspent.Sublist wtx.tx.vout := by
    have hfst := List.filter_sublist (p := fun p : CTxOut × Nat => !wtx.isSpent p.2)
      (l := wtx.tx.vout.zipIdx) |>.map Prod.fst
    rwa [List.zipIdx_map_fst] at hfst
  have hcredit : w.availableCredit wtx = some (w.mineSum wtx.tx - w.spentSum wtx) := by
    rw [availableCredit, sumMoney_creditOf hchecked hsublist, sum_unspent]
  have hgate : (wtx.uncached.getAvailableCredit w true).1 =
      if w.immature wtx then some 0
      else ((wtx.isImmature w).2.uncached.lookAvailableCredit w true).1 := by
    unfold CWalletTx.getAvailableCredit
    dsimp only
    rw [(blind_isImmature w).uncached wtx]
    dsimp only
    rw [immature]
    split <;> rfl
  rw [(hvalid.getAvailableCredit true).value, hgate, hlook (wtx.isImmature w).2
    ((blind_isImmature w).tx_eq wtx) ((blind_isImmature w).vfSpent_eq wtx), hcredit]
  split <;> rfl

end WalletState

end

end Terracoin
