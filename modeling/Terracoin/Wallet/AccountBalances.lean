import Terracoin.Lib.Postings
import Terracoin.Wallet.Accounts
import Terracoin.Wallet.CryptoKeyStore

/-!
# The balances of accounts

`GetAccountBalance` tallies the transactions and the accounting entries for one account, `listaccounts`
for all of them at once. The amounts of a transaction are posted to the same accounts by both, but
`listaccounts` does so for transactions that are not final as well: the two report the same balance
exactly if what those post to the account cancels (`balance_iff`). Sums of amounts are computed as
`int64` and wrap around.
-/

namespace Terracoin

open Std (TreeMap)
open AcentryRecords (allAccounts)
open Postings

instance addCommGroupInt64 : AddCommGroup Int64 where
  add_assoc := Int64.add_assoc
  zero_add := Int64.zero_add
  add_zero := Int64.add_zero
  add_comm := Int64.add_comm
  neg_add_cancel := Int64.add_left_neg
  sub_eq_add_neg := Int64.sub_eq_add_neg
  nsmul := nsmulRec
  zsmul := zsmulRec

/-- The balances of accounts, `map<string, int64>`. -/
abbrev AccountBalances := TreeMap Text Int64

def AcentryRecords.getAccountCreditDebit (db : AcentryRecords) (strAccount : Text) : Int64 :=
  (db.listAccountCreditDebit strAccount).foldl (fun nCreditDebit e => nCreditDebit + e.nCreditDebit) 0

namespace AccountWallet

variable [EllipticCurve] [ByteHashing160] [Hashing]

/-- `wtx.GetAccountAmounts`: `nReceived`, `nSent` and `nFee`. -/
def getAccountAmounts (w : AccountWallet) (wtx : AccountTx) (strAccount : Text) :
    Option (Int64 × Int64 × Int64) := do
  let (listReceived, listSent, allFee, strSentAccount) ← w.getAmounts wtx
  let (nSent, nFee) :=
    if strAccount = strSentAccount then
      (listSent.foldl (fun nSent s => nSent + Int64.ofInt s.2) 0, Int64.ofInt allFee)
    else (0, 0)
  let nReceived := listReceived.foldl (fun nReceived r =>
    match w.findAccount r.1 with
    | some account => if account = strAccount then nReceived + Int64.ofInt r.2 else nReceived
    | none => if strAccount = [] then nReceived + Int64.ofInt r.2 else nReceived) 0
  pure (nReceived, nSent, nFee)

/-- The tally of one transaction in `GetAccountBalance`. -/
def tally (w : AccountWallet) (nAdjustedTime : Int) (strAccount : Text) (nMinDepth : Int32)
    (nBalance : Int64) (wtx : AccountTx) : Option Int64 :=
  if !w.toWalletState.isFinal nAdjustedTime wtx.tx then some nBalance
  else do
    let (nReceived, nSent, nFee) ← w.getAccountAmounts wtx strAccount
    let nBalance :=
      if nReceived ≠ 0 ∧ nMinDepth.toInt ≤ w.depth wtx then nBalance + nReceived else nBalance
    pure (nBalance - (nSent + nFee))

def getAccountBalance (w : AccountWallet) (nAdjustedTime : Int) (strAccount : Text)
    (nMinDepth : Int32) : Option Int64 := do
  -- Tally wallet transactions
  let nBalance ← w.mapWallet.toList.foldlM (fun nBalance p =>
    w.tally nAdjustedTime strAccount nMinDepth nBalance p.2) 0
  -- Tally internal accounting entries
  pure (nBalance + w.acentries.getAccountCreditDebit strAccount)

/-- The tally of one transaction in `listaccounts`. -/
def tallyAll (w : AccountWallet) (nMinDepth : Int32) (mapAccountBalances : AccountBalances)
    (wtx : AccountTx) : Option AccountBalances := do
  let (listReceived, listSent, nFee, strSentAccount) ← w.getAmounts wtx
  let mapAccountBalances := post mapAccountBalances strSentAccount (-Int64.ofInt nFee)
  let mapAccountBalances := listSent.foldl (fun balances s =>
    post balances strSentAccount (-Int64.ofInt s.2)) mapAccountBalances
  if nMinDepth.toInt ≤ w.depth wtx then
    pure (listReceived.foldl (fun balances r =>
      post balances (w.accountOf r.1) (Int64.ofInt r.2)) mapAccountBalances)
  else pure mapAccountBalances

/-- `listaccounts`, before the balances become amounts. -/
def listaccounts (w : AccountWallet) (nMinDepth : Int32) : Option AccountBalances := do
  let mapAccountBalances := w.mapAddressBook.foldl (fun balances entry =>
    -- This address belongs to me
    if entry.1.any w.keystore.isMineDest then balances.insert entry.2 0 else balances) ∅
  let mapAccountBalances ← w.mapWallet.toList.foldlM (fun balances p =>
    w.tallyAll nMinDepth balances p.2) mapAccountBalances
  pure ((w.acentries.listAccountCreditDebit allAccounts).foldl (fun balances entry =>
    post balances entry.strAccount entry.nCreditDebit) mapAccountBalances)

/-- What a transaction posts to accounts. -/
def postings (w : AccountWallet) (nMinDepth : Int32) (wtx : AccountTx) : List (Text × Int64) :=
  match w.getAmounts wtx with
  | none => []
  | some (listReceived, listSent, nFee, strSentAccount) =>
    (strSentAccount, -Int64.ofInt nFee) ::
      (listSent.map fun s => (strSentAccount, -Int64.ofInt s.2)) ++
        if nMinDepth.toInt ≤ w.depth wtx then
          listReceived.map fun r => (w.accountOf r.1, Int64.ofInt r.2)
        else []

def entryPostings (w : AccountWallet) : List (Text × Int64) :=
  w.acentries.records.toList.map fun r => (r.2.strAccount, r.2.nCreditDebit)

/-- No amount is out of range, and what the transactions that are not final post to the account
cancels. -/
structure NonFinalCancel (w : AccountWallet) (nAdjustedTime : Int) (nMinDepth : Int32)
    (strAccount : Text) : Prop where
  amounts : ∀ p ∈ w.mapWallet.toList, (w.getAmounts p.2).isSome = true
  cancels : (((w.mapWallet.toList.filter fun p =>
    !w.toWalletState.isFinal nAdjustedTime p.2.tx).map fun p =>
      posted (· = strAccount) (w.postings nMinDepth p.2)).sum) = 0

/-! ## `listaccounts` -/

section

omit [EllipticCurve] [ByteHashing160] [Hashing]

theorem foldlM_eq_some {α β : Type} {f : β → α → Option β} {g : β → α → β} {l : List α}
    (h : ∀ b, ∀ x ∈ l, f b x = some (g b x)) (b : β) : l.foldlM f b = some (l.foldl g b) := by
  induction l generalizing b with
  | nil => rfl
  | cons x l ih =>
    rw [List.foldlM_cons, h b x List.mem_cons_self]
    exact ih (fun b y hy => h b y (List.mem_cons_of_mem _ hy)) (g b x)

theorem isSome_of_foldlM {α β : Type} {f : β → α → Option β} {l : List α} {b b' : β}
    (h : l.foldlM f b = some b') : ∀ x ∈ l, ∃ b, (f b x).isSome = true := by
  induction l generalizing b with
  | nil => exact fun _ hx => absurd hx List.not_mem_nil
  | cons x l ih =>
    rw [List.foldlM_cons] at h
    obtain ⟨b1, h1, h2⟩ := Option.bind_eq_some_iff.mp h
    intro y hy
    rcases List.mem_cons.mp hy with rfl | hy
    · exact ⟨b, by rw [h1]; rfl⟩
    · exact ih h2 y hy

end

variable {w : AccountWallet} {wtx : AccountTx} {nMinDepth : Int32} {nAdjustedTime : Int}
  {strAccount : Text} {balances : AccountBalances}

theorem tallyAll_eq (hamounts : (w.getAmounts wtx).isSome = true) :
    w.tallyAll nMinDepth balances wtx = some (postAll balances (w.postings nMinDepth wtx)) := by
  obtain ⟨⟨listReceived, listSent, nFee, strSentAccount⟩, hget⟩ :=
    Option.isSome_iff_exists.mp hamounts
  rw [tallyAll, postings, hget]
  simp only [Option.bind_eq_bind, Option.bind_some, foldl_post]
  split
  · rw [List.cons_append, postAll_cons, postAll_append]
    rfl
  · rw [List.append_nil, postAll_cons]
    rfl

/-- The accounts of the addresses, before anything is posted. -/
def zeros (w : AccountWallet) : List (Text × Int64) :=
  (w.mapAddressBook.filter fun entry => entry.1.any w.keystore.isMineDest).map fun entry =>
    (entry.2, 0)

omit [Hashing] in
theorem posted_zeros (p : Text → Bool) (w : AccountWallet) : posted p w.zeros = 0 := by
  rw [zeros]
  induction w.mapAddressBook.filter fun entry => entry.1.any w.keystore.isMineDest with
  | nil => rfl
  | cons entry l ih => rw [List.map_cons, posted_cons, ih, ite_self, add_zero]

omit [Hashing] in
/-- Setting a balance that is zero to zero posts nothing. -/
theorem foldl_insert_zero (w : AccountWallet) :
    w.mapAddressBook.foldl (fun balances entry =>
      if entry.1.any w.keystore.isMineDest then balances.insert entry.2 0 else balances) ∅ =
      postAll (∅ : AccountBalances) w.zeros := by
  have hfold : ∀ (l : List (Option CTxDestination × Text)) (balances : AccountBalances),
      (∀ a, balances.getD a 0 = 0) →
      l.foldl (fun balances entry =>
        if entry.1.any w.keystore.isMineDest then balances.insert entry.2 0 else balances)
        balances =
      postAll balances ((l.filter fun entry => entry.1.any w.keystore.isMineDest).map fun entry =>
        (entry.2, 0)) := by
    intro l
    induction l with
    | nil => exact fun _ _ => rfl
    | cons entry l ih =>
      intro balances hzero
      rw [List.foldl_cons]
      by_cases hmine : entry.1.any w.keystore.isMineDest = true
      · have hpost : balances.insert entry.2 0 = post balances entry.2 0 := by
          rw [post, hzero entry.2, add_zero]
        rw [if_pos hmine, List.filter_cons, if_pos hmine, List.map_cons, postAll_cons, hpost]
        apply ih
        intro a
        rw [getD_post, hzero a, ite_self, add_zero]
      · rw [if_neg hmine, List.filter_cons, if_neg hmine]
        exact ih balances hzero
  exact hfold _ ∅ fun a => TreeMap.getD_emptyc

theorem listaccounts_eq (hamounts : ∀ p ∈ w.mapWallet.toList, (w.getAmounts p.2).isSome = true) :
    w.listaccounts nMinDepth = some (postAll ∅ (w.zeros ++
      (w.mapWallet.toList.flatMap fun p => w.postings nMinDepth p.2) ++ w.entryPostings)) := by
  have htxs : ∀ balances : AccountBalances,
      w.mapWallet.toList.foldlM (fun balances p => w.tallyAll nMinDepth balances p.2) balances =
        some (postAll balances (w.mapWallet.toList.flatMap fun p => w.postings nMinDepth p.2)) := by
    intro balances
    rw [foldlM_eq_some (fun _ p hp => tallyAll_eq (hamounts p hp))]
    congr 1
    generalize w.mapWallet.toList = l
    induction l generalizing balances with
    | nil => rfl
    | cons p l ih => rw [List.foldl_cons, ih, List.flatMap_cons, postAll_append]
  rw [listaccounts, foldl_insert_zero, htxs, AcentryRecords.listAccountCreditDebit_all]
  simp only [Option.bind_eq_bind, Option.bind_some, foldl_post, List.map_map]
  rw [← postAll_append, ← postAll_append, ← List.append_assoc]
  rfl

theorem isSome_of_listaccounts (h : w.listaccounts nMinDepth = some balances) :
    ∀ p ∈ w.mapWallet.toList, (w.getAmounts p.2).isSome = true := by
  obtain ⟨balances1, hfold, -⟩ := Option.bind_eq_some_iff.mp h
  intro p hp
  obtain ⟨balances2, hsome⟩ := isSome_of_foldlM hfold p hp
  cases hget : w.getAmounts p.2 with
  | none =>
    rw [tallyAll, hget] at hsome
    cases hsome
  | some amounts => rfl

/-! ## `GetAccountBalance` -/

omit [Hashing] in
/-- What one account received. -/
theorem received_foldl (w : AccountWallet) (strAccount : Text)
    (listReceived : List (Option CTxDestination × Int)) :
    listReceived.foldl (fun nReceived r =>
      match w.findAccount r.1 with
      | some account => if account = strAccount then nReceived + Int64.ofInt r.2 else nReceived
      | none => if strAccount = [] then nReceived + Int64.ofInt r.2 else nReceived) 0 =
      posted (· = strAccount) (listReceived.map fun r => (w.accountOf r.1, Int64.ofInt r.2)) := by
  have hstep : ∀ (n : Int64) (r : Option CTxDestination × Int),
      (match w.findAccount r.1 with
        | some account => if account = strAccount then n + Int64.ofInt r.2 else n
        | none => if strAccount = [] then n + Int64.ofInt r.2 else n) =
      n + if w.accountOf r.1 = strAccount then Int64.ofInt r.2 else 0 := by
    intro n r
    rw [accountOf]
    cases w.findAccount r.1 with
    | none =>
      by_cases h : strAccount = []
      · simp [h]
      · simp [h, Ne.symm h]
    | some account =>
      by_cases h : account = strAccount <;> simp [h]
  simp only [hstep]
  rw [foldl_add, zero_add]
  induction listReceived with
  | nil => rfl
  | cons r l ih =>
    rw [List.map_cons, List.sum_cons, List.map_cons, posted_cons, ih]
    simp only [decide_eq_true_eq]

/-- A final transaction counts with what it posts to the account. -/
theorem tally_eq (hamounts : (w.getAmounts wtx).isSome = true) (nBalance : Int64) :
    w.tally nAdjustedTime strAccount nMinDepth nBalance wtx =
      some (nBalance + if w.toWalletState.isFinal nAdjustedTime wtx.tx then
        posted (· = strAccount) (w.postings nMinDepth wtx) else 0) := by
  obtain ⟨⟨listReceived, listSent, nFee, strSentAccount⟩, hget⟩ :=
    Option.isSome_iff_exists.mp hamounts
  cases hfinal : w.toWalletState.isFinal nAdjustedTime wtx.tx with
  | false => simp [tally, hfinal]
  | true =>
    rw [tally, getAccountAmounts, postings, hget]
    simp only [hfinal, Bool.not_true, Bool.false_eq_true, if_false, if_true, Option.bind_eq_bind,
      Option.bind_some, Option.pure_def, received_foldl, Option.some.injEq]
    generalize hreceived : posted (· = strAccount)
      (listReceived.map fun r => (w.accountOf r.1, Int64.ofInt r.2)) = nReceived
    have hdeep : posted (· = strAccount) (if nMinDepth.toInt ≤ w.depth wtx then
        listReceived.map fun r => (w.accountOf r.1, Int64.ofInt r.2) else []) =
        if nMinDepth.toInt ≤ w.depth wtx then nReceived else 0 := by
      split
      · exact hreceived
      · rfl
    have hadd : (if nReceived ≠ 0 ∧ nMinDepth.toInt ≤ w.depth wtx then nBalance + nReceived
        else nBalance) = nBalance + if nMinDepth.toInt ≤ w.depth wtx then nReceived else 0 := by
      by_cases hzero : nReceived = 0
      · simp [hzero]
      · by_cases hdepth : nMinDepth.toInt ≤ w.depth wtx <;> simp [hzero, hdepth]
    have hneg : (listSent.map fun s => -Int64.ofInt s.2).sum =
        -(listSent.map fun s => Int64.ofInt s.2).sum := by
      rw [List.sum_neg, List.map_map]
      rfl
    rw [hadd, posted_append, posted_cons, posted_map_const, hdeep, hneg, foldl_add, zero_add]
    by_cases haccount : strAccount = strSentAccount
    · simp only [haccount, if_true, decide_true]
      abel
    · simp only [haccount, Ne.symm haccount, if_false, decide_false, Bool.false_eq_true]
      abel

theorem getAccountBalance_eq (hamounts : ∀ p ∈ w.mapWallet.toList, (w.getAmounts p.2).isSome = true)
    (nAdjustedTime : Int) (nMinDepth : Int32) (strAccount : Text) :
    w.getAccountBalance nAdjustedTime strAccount nMinDepth =
      some ((w.mapWallet.toList.map fun p =>
        if w.toWalletState.isFinal nAdjustedTime p.2.tx then
          posted (· = strAccount) (w.postings nMinDepth p.2) else 0).sum +
        w.acentries.getAccountCreditDebit strAccount) := by
  rw [getAccountBalance, foldlM_eq_some fun _ p hp => tally_eq (hamounts p hp) _, foldl_add, zero_add]
  rfl

omit [Hashing] in
theorem getAccountCreditDebit_eq (hne : strAccount ≠ allAccounts) (hsize : strAccount.length < 2 ^ 64) :
    w.acentries.getAccountCreditDebit strAccount = posted (· = strAccount) w.entryPostings := by
  rw [AcentryRecords.getAccountCreditDebit, foldl_add, zero_add,
    w.acentries.listAccountCreditDebit_eq w.size_lt hne hsize, posted, entryPostings,
    List.filter_map, List.filter_map, List.map_map, List.map_map]
  rfl

/-- `listaccounts` reports the balance of `GetAccountBalance`, zero for an account that is not listed,
exactly if what it counts of transactions that are not final cancels. -/
theorem balance_iff (hne : strAccount ≠ allAccounts) (hsize : strAccount.length < 2 ^ 64) :
    (∃ balances, w.listaccounts nMinDepth = some balances ∧
      w.getAccountBalance nAdjustedTime strAccount nMinDepth = some (balances.getD strAccount 0)) ↔
      w.NonFinalCancel nAdjustedTime nMinDepth strAccount := by
  have hsum := sum_filter_add (fun p => w.toWalletState.isFinal nAdjustedTime p.2.tx)
    (fun p => posted (· = strAccount) (w.postings nMinDepth p.2)) w.mapWallet.toList
  have hbalance : ∀ hamounts : ∀ p ∈ w.mapWallet.toList, (w.getAmounts p.2).isSome = true,
      (∃ balances, w.listaccounts nMinDepth = some balances ∧
        w.getAccountBalance nAdjustedTime strAccount nMinDepth =
          some (balances.getD strAccount 0)) ↔
      ((w.mapWallet.toList.filter fun p =>
        !w.toWalletState.isFinal nAdjustedTime p.2.tx).map fun p =>
          posted (· = strAccount) (w.postings nMinDepth p.2)).sum = 0 := by
    intro hamounts
    rw [listaccounts_eq hamounts, getAccountBalance_eq hamounts]
    simp only [Option.some.injEq, exists_eq_left', getD_postAll, posted_append, posted_zeros,
      posted_flatMap, TreeMap.getD_emptyc, getAccountCreditDebit_eq hne hsize, ← hsum, zero_add]
    rw [add_left_inj, left_eq_add]
  constructor
  · rintro ⟨balances, hlist, hget⟩
    have hamounts := isSome_of_listaccounts hlist
    exact ⟨hamounts, (hbalance hamounts).mp ⟨balances, hlist, hget⟩⟩
  · intro h
    exact (hbalance h.amounts).mpr h.cancels

end AccountWallet

end Terracoin
