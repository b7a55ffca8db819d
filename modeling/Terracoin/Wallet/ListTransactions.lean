import Mathlib.Data.List.Sort
import Terracoin.Lib.CheckedInt
import Terracoin.Lib.Pages
import Terracoin.Wallet.Accounts
import Terracoin.Wallet.CryptoKeyStore

/-!
# The list of transactions

`listtransactions` collects the entries of an account, the newest first, until it has those that were
asked for, and cuts the list to the page. The end of the page is computed with an `int`, which
overflows for a page that nobody can reach; otherwise, as long as the number of entries is an `int`,
the page is right (`listtransactions_spec`).
-/

namespace Terracoin

open AcentryRecords (allAccounts)
open Checked Pages

/-! ## Entries -/

/-- What `WalletTxToJSON` adds to an entry. -/
structure WalletTxDetails where
  confirmations : Nat
  generated : Bool
  /-- `blockhash`, `blockindex` and `blocktime`. -/
  block : Option (uint256 × Int × Option UInt32)
  txid : uint256
  time : Int
  timereceived : Int
  mapValue : List (Text × Text)

inductive ReceivedCategory
  | orphan
  | immature
  | generate
  | receive

/-- An entry of the list. Amounts are in the smallest unit. -/
inductive ListEntry
  | send (account : Text) (address : Option CTxDestination) (amount fee : Int)
      (details : Option WalletTxDetails)
  | received (account : Text) (address : Option CTxDestination) (category : ReceivedCategory)
      (amount : Int) (details : Option WalletTxDetails)
  | move (account : Text) (time : Int64) (amount : Int64) (otheraccount comment : Text)

/-- An item of `OrderedTxItems`. -/
inductive AccountItem
  | wtx (pwtx : AccountTx)
  | acentry (pacentry : CAccountingEntry)

def AccountItem.nOrderPos : AccountItem → Int64
  | wtx pwtx => pwtx.nOrderPos
  | acentry pacentry => pacentry.nOrderPos

/-- Why there is no list. -/
inductive ListFailure
  | jsonRPCError (e : JSONRPCError)
  /-- An amount is out of range. -/
  | runtimeError
  /-- A sum overflows, or an iterator is moved out of the array. -/
  | undefined
deriving DecidableEq

namespace AccountWallet

section

variable [EllipticCurve] [ByteHashing160] [Hashing]

def walletTxToJSON (w : AccountWallet) (wtx : AccountTx) : WalletTxDetails where
  confirmations := w.depth wtx
  generated := wtx.tx.isCoinBase
  block :=
    if w.depth wtx ≠ 0 then
      let pindex := (CBlockIndex.chainOf w.pindexBest).find? fun p => p.getBlockHash = wtx.hashBlock
      some (wtx.hashBlock, wtx.nIndex, pindex.map fun p => p.header.nTime)
    else none
  txid := wtx.tx.getHash
  time := wtx.getTxTime
  timereceived := wtx.nTimeReceived.toNat
  mapValue := wtx.mapValue.toList

def receivedCategory (w : AccountWallet) (wtx : AccountTx) : ReceivedCategory :=
  if wtx.tx.isCoinBase then
    if w.depth wtx < 1 then .orphan
    else if 0 < (wtx.toCMerkleTx.getBlocksToMaturity w.pindexBest).1 then .immature
    else .generate
  else .receive

def listTransactions (w : AccountWallet) (wtx : AccountTx) (strAccount : Text) (nMinDepth : Int32)
    (fLong : Bool) : Option (List ListEntry) := do
  let (listReceived, listSent, nFee, strSentAccount) ← w.getAmounts wtx
  let fAllAccounts := strAccount = allAccounts
  let details := if fLong then some (w.walletTxToJSON wtx) else none
  -- Sent
  let sent :=
    if (listSent ≠ [] ∨ nFee ≠ 0) ∧ (fAllAccounts ∨ strAccount = strSentAccount) then
      listSent.map fun s => ListEntry.send strSentAccount s.1 (-s.2) (-nFee) details
    else []
  -- Received
  let received :=
    if 0 < listReceived.length ∧ nMinDepth.toInt ≤ w.depth wtx then
      (listReceived.filter fun r => fAllAccounts ∨ w.accountOf r.1 = strAccount).map fun r =>
        ListEntry.received (w.accountOf r.1) r.1 (w.receivedCategory wtx) r.2 details
    else []
  pure (sent ++ received)

/-- `OrderedTxItems`: the transactions and the accounting entries in a sorted-by-order multimap. -/
def orderedTxItems (w : AccountWallet) (strAccount : Text) : List AccountItem :=
  (w.mapWallet.toList.map (fun p => AccountItem.wtx p.2) ++
    (w.acentries.listAccountCreditDebit strAccount).map AccountItem.acentry).insertionSort
      fun item item' => item.nOrderPos ≤ item'.nOrderPos

end

def acentryToJSON (acentry : CAccountingEntry) (strAccount : Text) : List ListEntry :=
  if strAccount = allAccounts ∨ acentry.strAccount = strAccount then
    [.move acentry.strAccount acentry.nTime acentry.nCreditDebit acentry.strOtherAccount
      acentry.strComment]
  else []

/-- The loop of `listtransactions`, from an item on, for the entries of each item. -/
def collect (entriesOf : AccountItem → Option (List ListEntry)) (nCount nFrom : Int32) :
    List AccountItem → List ListEntry → Except ListFailure (List ListEntry)
  | [], ret => .ok ret
  | item :: items, ret => do
    let entries ← Checked.get (entriesOf item) .runtimeError
    let ret := ret ++ entries
    let nEnd ← Checked.get (int32 (nCount.toInt + nFrom.toInt)) .undefined
    if nEnd ≤ Int32.ofNat ret.length then .ok ret else collect entriesOf nCount nFrom items ret

/-- The end of `listtransactions`: the page, the oldest entry first. -/
def cutPage (nCount nFrom : Int32) (ret : List ListEntry) : Except ListFailure (List ListEntry) := do
  let size := Int32.ofNat ret.length
  let nFrom := if size < nFrom then size else nFrom
  let nEnd ← Checked.get (int32 (nFrom.toInt + nCount.toInt)) .undefined
  -- The difference is computed without a sign
  let nCount := if size < nEnd then Int32.ofInt (ret.length - nFrom.toInt) else nCount
  let nLast ← Checked.get (int32 (nFrom.toInt + nCount.toInt)) .undefined
  Checked.require (0 ≤ nFrom ∧ nFrom ≤ nLast ∧ nLast.toInt ≤ ret.length) .undefined
  pure ((ret.take nLast.toInt.toNat).drop nFrom.toInt.toNat).reverse

variable [EllipticCurve] [ByteHashing160] [Hashing]

/-- What an item puts behind the entries that there are. -/
def entriesOf (w : AccountWallet) (strAccount : Text) : AccountItem → Option (List ListEntry)
  | .wtx pwtx => w.listTransactions pwtx strAccount 0 true
  | .acentry pacentry => some (acentryToJSON pacentry strAccount)

/-- `listtransactions [account] [count=10] [from=0]`. -/
def listtransactions (w : AccountWallet) (strAccount : Option Text) (nCount nFrom : Option Int32) :
    Except ListFailure (List ListEntry) := do
  let strAccount := strAccount.getD allAccounts
  let nCount := nCount.getD 10
  let nFrom := nFrom.getD 0
  if nCount < 0 then throw (.jsonRPCError ⟨-8, "Negative count"⟩)
  if nFrom < 0 then throw (.jsonRPCError ⟨-8, "Negative from"⟩)
  -- iterate backwards until we have nCount items to return
  let ret ← collect (w.entriesOf strAccount) nCount nFrom (w.orderedTxItems strAccount).reverse []
  cutPage nCount nFrom ret

/-- The full list of an account, from the newest entry to the oldest. -/
def fullList (w : AccountWallet) (strAccount : Text) : Option (List ListEntry) :=
  ((w.orderedTxItems strAccount).reverse.mapM (w.entriesOf strAccount)).map List.flatten

/-! ## When the page is right -/

/-- The number of entries when the loop stops, if the items have so many each. -/
def collected (nEnd : Int32) : List Nat → Nat → Nat
  | [], n => n
  | size :: sizes, n =>
    if nEnd ≤ Int32.ofNat (n + size) then n + size else collected nEnd sizes (n + size)

/-- The number of entries of each item, the newest first. -/
def entryCounts (w : AccountWallet) (strAccount : Text) : List Nat :=
  (w.orderedTxItems strAccount).reverse.map fun item =>
    ((w.entriesOf strAccount item).getD []).length

/-- No amount is out of range, the end of the page is an `int` if there is anything to list, and so is
the number of the entries, unless the entries of the newest items reach that end as an `int`. The
empty page needs only that their number is not negative as one. -/
structure PageFits (w : AccountWallet) (strAccount : Text) (nCount nFrom : Int32) : Prop where
  amounts : ∀ p ∈ w.mapWallet.toList, (w.getAmounts p.2).isSome = true
  sum : w.orderedTxItems strAccount = [] ∨ Int32Range (nCount.toInt + nFrom.toInt)
  counted : (w.entryCounts strAccount).sum < 2 ^ 31 ∨
    (∃ k, 0 < k ∧ k ≤ (w.entryCounts strAccount).length ∧
      nCount + nFrom ≤ Int32.ofNat ((w.entryCounts strAccount).take k).sum) ∨
    nCount = 0 ∧ 0 ≤ Int32.ofNat (w.entryCounts strAccount).sum

section

omit [EllipticCurve] [ByteHashing160] [Hashing]

variable {f : AccountItem → Option (List ListEntry)} {items : List AccountItem}
  {nCount nFrom : Int32} {ret : List ListEntry}

/-- The loop collects a beginning of the full list. -/
theorem collect_spec (hsum : Int32Range (nCount.toInt + nFrom.toInt))
    (hsome : ∀ item ∈ items, (f item).isSome = true) (ret : List ListEntry) :
    ∃ ret' rest, collect f nCount nFrom items ret = .ok ret' ∧
      ret ++ (items.map fun item => (f item).getD []).flatten = ret' ++ rest ∧
      ret'.length = collected (nCount + nFrom)
        (items.map fun item => ((f item).getD []).length) ret.length := by
  have hend : int32 (nCount.toInt + nFrom.toInt) = some (nCount + nFrom) := by
    rw [int32_of_range hsum, Int32.ofInt_add, Int32.ofInt_toInt, Int32.ofInt_toInt]
  induction items generalizing ret with
  | nil => exact ⟨ret, [], rfl, by simp, rfl⟩
  | cons item items ih =>
    obtain ⟨entries, hentries⟩ := Option.isSome_iff_exists.mp (hsome item List.mem_cons_self)
    have hloop : collect f nCount nFrom (item :: items) ret =
        if nCount + nFrom ≤ Int32.ofNat (ret ++ entries).length then .ok (ret ++ entries)
        else collect f nCount nFrom items (ret ++ entries) := by
      rw [collect, hentries, hend]
      rfl
    rw [hloop]
    simp only [List.map_cons, hentries, Option.getD_some, collected, List.flatten_cons,
      ← List.append_assoc, ← List.length_append]
    split
    · exact ⟨ret ++ entries, _, rfl, rfl, rfl⟩
    · exact ih (fun item hitem => hsome item (List.mem_cons_of_mem _ hitem)) (ret ++ entries)

theorem collect_ne_ok (hsum : ¬ Int32Range (nCount.toInt + nFrom.toInt)) (hitems : items ≠ [])
    (ret' : List ListEntry) : collect f nCount nFrom items ret ≠ .ok ret' := by
  cases items with
  | nil => exact absurd rfl hitems
  | cons item items =>
    intro h
    rw [collect, int32_eq_none.mpr hsum] at h
    obtain ⟨entries, -, h⟩ := bind_ok.mp h
    cases h

theorem toInt_ofNat_le (n : Nat) : (Int32.ofNat n).toInt ≤ n := by
  rw [Int32.toInt_ofNat', Int.bmod_def, show Int32.size = 2 ^ 32 from rfl]
  omega

theorem toInt_ofInt_sub {n : Nat} {k : Int} (hk : 0 ≤ k) (hle : k ≤ (Int32.ofNat n).toInt) :
    (Int32.ofInt (n - k)).toInt = (Int32.ofNat n).toInt - k := by
  rw [Int32.toInt_ofNat', Int.bmod_def, show Int32.size = 2 ^ 32 from rfl] at hle ⊢
  rw [Int32.toInt_ofInt, Int.bmod_def, show Int32.size = 2 ^ 32 from rfl]
  omega

theorem toInt_clamp (size n : Int32) :
    (if size < n then size else n).toInt = min n.toInt size.toInt := by
  split
  · rename_i hlt
    rw [Int32.lt_iff_toInt_lt] at hlt
    exact (min_eq_right hlt.le).symm
  · rename_i hlt
    rw [Int32.lt_iff_toInt_lt, not_lt] at hlt
    exact (min_eq_left hlt).symm

/-- The page is cut from as many entries as their number as an `int` says. -/
theorem cutPage_eq (hcount : 0 ≤ nCount.toInt) (hfrom : 0 ≤ nFrom.toInt)
    (hsize : 0 ≤ (Int32.ofNat ret.length).toInt)
    (hsum : Int32Range (min nFrom.toInt (Int32.ofNat ret.length).toInt + nCount.toInt)) :
    cutPage nCount nFrom ret =
      .ok (page nCount.toInt.toNat nFrom.toInt.toNat
        (ret.take (Int32.ofNat ret.length).toInt.toNat)).reverse := by
  obtain ⟨size, hsize_eq⟩ : ∃ size, size = Int32.ofNat ret.length := ⟨_, rfl⟩
  have hle : size.toInt ≤ ret.length := hsize_eq ▸ toInt_ofNat_le ret.length
  rw [cutPage]
  simp only [← hsize_eq] at hsize hsum ⊢
  obtain ⟨nFrom', hnFrom'⟩ : ∃ nFrom', nFrom' = if size < nFrom then size else nFrom := ⟨_, rfl⟩
  have hfrom' : nFrom'.toInt = min nFrom.toInt size.toInt := hnFrom' ▸ toInt_clamp size nFrom
  rw [← hfrom'] at hsum
  have hmin := min_le_right nFrom.toInt size.toInt
  have hnonneg : 0 ≤ nFrom'.toInt := by omega
  obtain ⟨nEnd, hnEnd⟩ : ∃ nEnd, int32 (nFrom'.toInt + nCount.toInt) = some nEnd :=
    ⟨_, int32_of_range hsum⟩
  have hend : nEnd.toInt = nFrom'.toInt + nCount.toInt := int32_eq_some.mp hnEnd
  obtain ⟨nCount', hnCount'⟩ : ∃ nCount', nCount' =
      if size < nEnd then Int32.ofInt (ret.length - nFrom'.toInt) else nCount := ⟨_, rfl⟩
  have hcount' : nFrom'.toInt + nCount'.toInt = min nEnd.toInt size.toInt := by
    rw [hnCount']
    split
    · rename_i hlt
      rw [Int32.lt_iff_toInt_lt] at hlt
      rw [toInt_ofInt_sub (by omega) (by rw [← hsize_eq]; omega), ← hsize_eq]
      omega
    · rename_i hlt
      rw [Int32.lt_iff_toInt_lt] at hlt
      omega
  have hlast_range : Int32Range (nFrom'.toInt + nCount'.toInt) := by
    have hsize_range := int32Range_toInt size
    unfold Int32Range at hsum hsize_range ⊢
    omega
  obtain ⟨nLast, hnLast⟩ : ∃ nLast, int32 (nFrom'.toInt + nCount'.toInt) = some nLast :=
    ⟨_, int32_of_range hlast_range⟩
  have hlast : nLast.toInt = nFrom'.toInt + nCount'.toInt := int32_eq_some.mp hnLast
  rw [← hnFrom']
  refine bind_ok.mpr ⟨nEnd, get_ok.mpr hnEnd, ?_⟩
  rw [← hnCount']
  refine bind_ok.mpr ⟨nLast, get_ok.mpr hnLast, bind_ok.mpr ⟨(), ?_, ?_⟩⟩
  · apply require_ok.mpr
    rw [decide_eq_true_eq, Int32.le_iff_toInt_le, Int32.le_iff_toInt_le, Int32.toInt_zero]
    omega
  · apply pure_ok.mpr
    congr 1
    have hlength : (ret.take size.toInt.toNat).length = size.toInt.toNat := by
      rw [List.length_take]
      omega
    rw [← drop_take_min, hlength, List.take_take]
    congr 1
    · omega
    · congr 1
      omega

theorem cutPage_ne_ok (hfrom : 0 ≤ nFrom.toInt) (hsize : (Int32.ofNat ret.length).toInt < 0)
    (ret' : List ListEntry) : cutPage nCount nFrom ret ≠ .ok ret' := by
  intro h
  have hlt : Int32.ofNat ret.length < nFrom := Int32.lt_iff_toInt_lt.mpr (by omega)
  rw [cutPage] at h
  simp only [if_pos hlt] at h
  obtain ⟨nEnd, -, h⟩ := bind_ok.mp h
  obtain ⟨nLast, -, h⟩ := bind_ok.mp h
  obtain ⟨_, hrequire, -⟩ := bind_ok.mp h
  have hnonneg := (decide_eq_true_eq.mp (require_ok.mp hrequire)).1
  rw [Int32.le_iff_toInt_le, Int32.toInt_zero] at hnonneg
  omega

theorem cutPage_page_iff {rest : List ListEntry} (hcount : 0 ≤ nCount.toInt)
    (hfrom : 0 ≤ nFrom.toInt)
    (hsum : Int32Range (min nFrom.toInt (Int32.ofNat ret.length).toInt + nCount.toInt)) :
    cutPage nCount nFrom ret =
        .ok (page nCount.toInt.toNat nFrom.toInt.toNat (ret ++ rest)).reverse ↔
      0 ≤ (Int32.ofNat ret.length).toInt ∧
        (nCount = 0 ∨ ((ret ++ rest).length : Int) ≤ nFrom.toInt ∨
          min (nFrom.toInt + nCount.toInt) (ret ++ rest).length ≤
            (Int32.ofNat ret.length).toInt) := by
  by_cases hsize : (Int32.ofNat ret.length).toInt < 0
  · have hnot : ∀ ret', cutPage nCount nFrom ret ≠ .ok ret' := cutPage_ne_ok hfrom hsize
    exact ⟨fun h => absurd h (hnot _), fun h => absurd h.1 (not_le.mpr hsize)⟩
  · have hnonneg := not_lt.mp hsize
    have hle := toInt_ofNat_le ret.length
    have hbeginning : ret.take (Int32.ofNat ret.length).toInt.toNat =
        (ret ++ rest).take (Int32.ofNat ret.length).toInt.toNat :=
      (List.take_append_of_le_length (by omega)).symm
    rw [cutPage_eq hcount hfrom hnonneg hsum, Except.ok.injEq, List.reverse_inj, hbeginning,
      page_take_iff (by rw [List.length_append]; omega), ← Int32.toInt_inj, Int32.toInt_zero]
    omega

/-- The loop stops where the end is reached, or behind the last item. -/
theorem collected_cases (nEnd : Int32) (sizes : List Nat) (n : Nat) :
    (nEnd ≤ Int32.ofNat (collected nEnd sizes n) ∧ ∃ k, 0 < k ∧ k ≤ sizes.length ∧
        collected nEnd sizes n = n + (sizes.take k).sum) ∨
      collected nEnd sizes n = n + sizes.sum ∧ ∀ k, 0 < k → k ≤ sizes.length →
        ¬ nEnd ≤ Int32.ofNat (n + (sizes.take k).sum) := by
  induction sizes generalizing n with
  | nil =>
    refine .inr ⟨rfl, fun k hpos hle => ?_⟩
    exact absurd hpos (not_lt.mpr hle)
  | cons size sizes ih =>
    rw [collected]
    split
    · rename_i hreached
      refine .inl ⟨hreached, 1, Nat.one_pos, Nat.succ_le_succ (Nat.zero_le _), ?_⟩
      simp
    · rename_i hnot
      rcases ih (n + size) with ⟨hreached, k, hpos, hle, hk⟩ | ⟨hall, hnone⟩
      · refine .inl ⟨hreached, k + 1, Nat.succ_pos k, Nat.succ_le_succ hle, ?_⟩
        rw [hk, List.take_succ_cons, List.sum_cons, Nat.add_assoc]
      · refine .inr ⟨?_, fun k hpos hle => ?_⟩
        · rw [hall, List.sum_cons, Nat.add_assoc]
        · obtain ⟨k, rfl⟩ := Nat.exists_eq_succ_of_ne_zero hpos.ne'
          rw [List.take_succ_cons, List.sum_cons, ← Nat.add_assoc]
          cases k with
          | zero => simpa using hnot
          | succ k => exact hnone (k + 1) (Nat.succ_pos k) (Nat.le_of_succ_le_succ hle)

/-- When enough has been collected for the page. -/
theorem collected_iff {sizes : List Nat} (hcount : 0 ≤ nCount.toInt) (hfrom : 0 ≤ nFrom.toInt)
    (hsum : sizes = [] ∨ Int32Range (nCount.toInt + nFrom.toInt)) :
    (0 ≤ (Int32.ofNat (collected (nCount + nFrom) sizes 0)).toInt ∧
      (nCount = 0 ∨ (sizes.sum : Int) ≤ nFrom.toInt ∨ min (nFrom.toInt + nCount.toInt) sizes.sum ≤
        (Int32.ofNat (collected (nCount + nFrom) sizes 0)).toInt)) ↔
      sizes.sum < 2 ^ 31 ∨
        (∃ k, 0 < k ∧ k ≤ sizes.length ∧ nCount + nFrom ≤ Int32.ofNat (sizes.take k).sum) ∨
        nCount = 0 ∧ 0 ≤ Int32.ofNat sizes.sum := by
  rcases hsum with rfl | hsum
  · exact iff_of_true ⟨le_rfl, .inr (.inl hfrom)⟩ (.inl (by simp))
  have hend : (nCount + nFrom).toInt = nCount.toInt + nFrom.toInt := by
    rw [← toInt_ofInt hsum, Int32.ofInt_add, Int32.ofInt_toInt, Int32.ofInt_toInt]
  rcases collected_cases (nCount + nFrom) sizes 0 with ⟨hreached, k, hpos, hle, hk⟩ | ⟨hall, hnone⟩
  · rw [Nat.zero_add] at hk
    refine iff_of_true ?_ (.inr (.inl ⟨k, hpos, hle, hk ▸ hreached⟩))
    rw [Int32.le_iff_toInt_le, hend] at hreached
    exact ⟨by omega, .inr (.inr (by omega))⟩
  · simp only [Nat.zero_add] at hall hnone
    have hnot : ¬ ∃ k, 0 < k ∧ k ≤ sizes.length ∧
        nCount + nFrom ≤ Int32.ofNat (sizes.take k).sum := by
      rintro ⟨k, hpos, hle, hreached⟩
      exact hnone k hpos hle hreached
    have hbelow : sizes = [] ∨ (Int32.ofNat sizes.sum).toInt < nCount.toInt + nFrom.toInt := by
      by_cases hnil : sizes = []
      · exact .inl hnil
      · have hlast := hnone sizes.length (List.length_pos_iff.mpr hnil) le_rfl
        rw [List.take_length, Int32.le_iff_toInt_le, hend] at hlast
        exact .inr (not_le.mp hlast)
    have hint := toInt_ofNat_le sizes.sum
    have hrange := int32Range_toInt (Int32.ofNat sizes.sum)
    have hfrom_range := int32Range_toInt nFrom
    unfold Int32Range at hrange hfrom_range
    rw [hall, or_iff_right hnot, Int32.le_iff_toInt_le, Int32.toInt_zero]
    constructor
    · rintro ⟨hnonneg, hzero | hempty | hmin⟩
      · exact .inr ⟨hzero, hnonneg⟩
      · exact .inl (by omega)
      · rcases hbelow with rfl | hbelow
        · exact .inl (by simp)
        · exact .inl (by omega)
    · rintro (hlt | ⟨hzero, hnonneg⟩)
      · have hexact : (Int32.ofNat sizes.sum).toInt = sizes.sum := by
          rw [Int32.toInt_ofNat', Int.bmod_def, show Int32.size = 2 ^ 32 from rfl]
          omega
        exact ⟨by omega, .inr (.inr (by omega))⟩
      · exact ⟨hnonneg, .inl hzero⟩

end

/-! ## Pages of the list -/

variable {w : AccountWallet} {strAccount : Text} {nCount nFrom : Int32} {item : AccountItem}

omit [Hashing] in
theorem mem_orderedTxItems :
    item ∈ w.orderedTxItems strAccount ↔
      (∃ p ∈ w.mapWallet.toList, AccountItem.wtx p.2 = item) ∨
        ∃ e ∈ w.acentries.listAccountCreditDebit strAccount, AccountItem.acentry e = item := by
  rw [orderedTxItems, List.mem_insertionSort, List.mem_append, List.mem_map, List.mem_map]

theorem isSome_listTransactions (w : AccountWallet) (wtx : AccountTx) (strAccount : Text)
    (nMinDepth : Int32) (fLong : Bool) :
    (w.listTransactions wtx strAccount nMinDepth fLong).isSome = (w.getAmounts wtx).isSome := by
  rw [listTransactions]
  cases w.getAmounts wtx with
  | none => rfl
  | some amounts => rfl

theorem isSome_entriesOf (w : AccountWallet) (strAccount : Text) :
    (∀ item ∈ w.orderedTxItems strAccount, (w.entriesOf strAccount item).isSome = true) ↔
      ∀ p ∈ w.mapWallet.toList, (w.getAmounts p.2).isSome = true := by
  constructor
  · intro h p hp
    rw [← isSome_listTransactions w p.2 strAccount 0 true]
    exact h (.wtx p.2) (mem_orderedTxItems.mpr (.inl ⟨p, hp, rfl⟩))
  · intro h item hitem
    rcases mem_orderedTxItems.mp hitem with ⟨p, hp, rfl⟩ | ⟨e, -, rfl⟩
    · exact (isSome_listTransactions w p.2 strAccount 0 true).trans (h p hp)
    · rfl

section

omit [EllipticCurve] [ByteHashing160] [Hashing]

variable {f : AccountItem → Option (List ListEntry)} {items : List AccountItem}
  {lists : List (List ListEntry)}

theorem mapM_eq_some :
    items.mapM f = some lists ↔
      (∀ item ∈ items, (f item).isSome = true) ∧ lists = items.map fun item => (f item).getD [] := by
  induction items generalizing lists with
  | nil =>
    rw [List.mapM_nil, Option.pure_def, Option.some.injEq]
    constructor
    · rintro rfl
      exact ⟨fun _ h => (nomatch h), rfl⟩
    · rintro ⟨-, rfl⟩
      rfl
  | cons item items ih =>
    rw [List.mapM_cons]
    cases hitem : f item with
    | none => simp [hitem]
    | some entries =>
      simp only [Option.bind_eq_bind, Option.bind_some, Option.bind_eq_some_iff, ih, Option.pure_def,
        Option.some.injEq, List.forall_mem_cons, hitem, Option.isSome_some, true_and, List.map_cons,
        Option.getD_some]
      constructor
      · rintro ⟨_, ⟨hall, rfl⟩, rfl⟩
        exact ⟨hall, rfl⟩
      · rintro ⟨hall, rfl⟩
        exact ⟨_, ⟨hall, rfl⟩, rfl⟩

end

theorem fullList_eq_some {full : List ListEntry} :
    w.fullList strAccount = some full ↔
      (∀ p ∈ w.mapWallet.toList, (w.getAmounts p.2).isSome = true) ∧
        full = ((w.orderedTxItems strAccount).reverse.map fun item =>
          (w.entriesOf strAccount item).getD []).flatten := by
  rw [fullList, Option.map_eq_some_iff, ← isSome_entriesOf w strAccount]
  simp only [mapM_eq_some, List.mem_reverse]
  constructor
  · rintro ⟨lists, ⟨hall, rfl⟩, rfl⟩
    exact ⟨hall, rfl⟩
  · rintro ⟨hall, rfl⟩
    exact ⟨_, ⟨hall, rfl⟩, rfl⟩

theorem length_fullList {full : List ListEntry} (h : w.fullList strAccount = some full) :
    full.length = (w.entryCounts strAccount).sum := by
  rw [(fullList_eq_some.mp h).2, List.length_flatten, entryCounts, List.map_map]
  rfl

theorem listtransactions_eq (hcount : 0 ≤ nCount.toInt) (hfrom : 0 ≤ nFrom.toInt) :
    w.listtransactions (some strAccount) (some nCount) (some nFrom) =
      collect (w.entriesOf strAccount) nCount nFrom (w.orderedTxItems strAccount).reverse [] >>=
        cutPage nCount nFrom := by
  have hcount' : ¬ nCount < 0 := by
    rw [Int32.lt_iff_toInt_lt, Int32.toInt_zero]
    omega
  have hfrom' : ¬ nFrom < 0 := by
    rw [Int32.lt_iff_toInt_lt, Int32.toInt_zero]
    omega
  rw [listtransactions]
  simp [hcount', hfrom']

/-- What is collected if the end of the page is an `int`. -/
theorem exists_collect (hcount : 0 ≤ nCount.toInt)
    (hamounts : ∀ p ∈ w.mapWallet.toList, (w.getAmounts p.2).isSome = true)
    (hsum : w.orderedTxItems strAccount = [] ∨ Int32Range (nCount.toInt + nFrom.toInt)) :
    ∃ ret rest,
      collect (w.entriesOf strAccount) nCount nFrom (w.orderedTxItems strAccount).reverse [] =
        .ok ret ∧
      w.fullList strAccount = some (ret ++ rest) ∧
      ret.length = collected (nCount + nFrom) (w.entryCounts strAccount) 0 ∧
      Int32Range (min nFrom.toInt (Int32.ofNat ret.length).toInt + nCount.toInt) := by
  have hcount_range := int32Range_toInt nCount
  have hfrom_range := int32Range_toInt nFrom
  rcases hsum with hnil | hsum
  · refine ⟨[], [], ?_, ?_, ?_, ?_⟩
    · rw [hnil]
      rfl
    · apply fullList_eq_some.mpr
      refine ⟨hamounts, ?_⟩
      rw [hnil]
      rfl
    · rw [entryCounts, hnil]
      rfl
    · rw [show (Int32.ofNat ([] : List ListEntry).length).toInt = 0 from rfl]
      unfold Int32Range at hcount_range hfrom_range ⊢
      omega
  · have hsome := (isSome_entriesOf w strAccount).mpr hamounts
    obtain ⟨ret, rest, hret, hfull, hlength⟩ := collect_spec hsum
      (fun item hitem => hsome item (List.mem_reverse.mp hitem)) []
    refine ⟨ret, rest, hret, fullList_eq_some.mpr ⟨hamounts, ?_⟩, hlength, ?_⟩
    · rw [← hfull, List.nil_append]
    · have hsize_range := int32Range_toInt (Int32.ofNat ret.length)
      unfold Int32Range at hsum hsize_range hfrom_range ⊢
      omega

/-- The answer is the page of the full list exactly if the page fits. -/
theorem page_iff (hcount : 0 ≤ nCount.toInt) (hfrom : 0 ≤ nFrom.toInt) :
    (∃ full, w.fullList strAccount = some full ∧
      w.listtransactions (some strAccount) (some nCount) (some nFrom) =
        .ok (page nCount.toInt.toNat nFrom.toInt.toNat full).reverse) ↔
      w.PageFits strAccount nCount nFrom := by
  rw [listtransactions_eq hcount hfrom]
  have hitems : w.orderedTxItems strAccount = [] ↔ w.entryCounts strAccount = [] := by
    rw [entryCounts, List.map_eq_nil_iff, List.reverse_eq_nil_iff]
  constructor
  · rintro ⟨full, hfull, hlist⟩
    obtain ⟨ret', hret', hcut⟩ := bind_ok.mp hlist
    have hamounts := (fullList_eq_some.mp hfull).1
    have hsum : w.orderedTxItems strAccount = [] ∨ Int32Range (nCount.toInt + nFrom.toInt) := by
      by_contra hnot
      obtain ⟨hne, hsum⟩ := not_or.mp hnot
      exact collect_ne_ok hsum (by simpa using hne) ret' hret'
    obtain ⟨ret, rest, hret, hfull', hlength, hrange⟩ := exists_collect hcount hamounts hsum
    obtain rfl := Except.ok.inj (hret.symm.trans hret')
    obtain rfl := Option.some.inj (hfull.symm.trans hfull')
    rw [cutPage_page_iff hcount hfrom hrange, length_fullList hfull, hlength,
      collected_iff hcount hfrom (hsum.imp_left hitems.mp)] at hcut
    exact ⟨hamounts, hsum, hcut⟩
  · rintro ⟨hamounts, hsum, hcounted⟩
    obtain ⟨ret, rest, hret, hfull, hlength, hrange⟩ := exists_collect hcount hamounts hsum
    refine ⟨ret ++ rest, hfull, bind_ok.mpr ⟨ret, hret, ?_⟩⟩
    rw [cutPage_page_iff hcount hfrom hrange, length_fullList hfull, hlength,
      collected_iff hcount hfrom (hsum.imp_left hitems.mp)]
    exact hcounted

/-- Pages of one size, one after the other. -/
theorem flatMap_pages {full : List ListEntry} (hcount : 0 ≤ nCount.toInt)
    (hfull : w.fullList strAccount = some full) (k : Nat)
    (hfits : ∀ i < k, i * nCount.toInt < 2 ^ 31 ∧
      w.PageFits strAccount nCount (Int32.ofInt (i * nCount.toInt))) :
    ∃ pages : List (List ListEntry),
      ((List.range k).map fun i : Nat => w.listtransactions (some strAccount) (some nCount)
        (some (Int32.ofInt (i * nCount.toInt)))) = pages.map Except.ok ∧
      pages.flatMap List.reverse = full.take (k * nCount.toInt.toNat) := by
  refine ⟨(List.range k).map fun i =>
    (page nCount.toInt.toNat (i * nCount.toInt.toNat) full).reverse, ?_, ?_⟩
  · rw [List.map_map]
    apply List.map_congr_left
    intro i hi
    obtain ⟨hlt, hpage⟩ := hfits i (List.mem_range.mp hi)
    have hstart : 0 ≤ i * nCount.toInt := Int.mul_nonneg (Int.natCast_nonneg i) hcount
    have hfrom : (Int32.ofInt (i * nCount.toInt)).toInt = i * nCount.toInt :=
      toInt_ofInt ⟨by omega, hlt⟩
    obtain ⟨full', hfull', hlist⟩ := (page_iff hcount (by rw [hfrom]; exact hstart)).mpr hpage
    obtain rfl := Option.some.inj (hfull.symm.trans hfull')
    rw [hlist, hfrom, Int.toNat_mul (Int.natCast_nonneg i) hcount, Int.toNat_natCast]
    rfl
  · rw [List.flatMap_map, ← flatMap_page]
    simp only [List.reverse_reverse]

/-- The answer is the page that was asked for exactly if the page fits, and as long as pages of one
size do, they are the beginning of the full list. -/
theorem listtransactions_spec (w : AccountWallet) (strAccount : Text) (nCount : Int32)
    (hcount : 0 ≤ nCount.toInt) :
    (∀ nFrom : Int32, 0 ≤ nFrom.toInt →
      ((∃ full, w.fullList strAccount = some full ∧
        w.listtransactions (some strAccount) (some nCount) (some nFrom) =
          .ok (page nCount.toInt.toNat nFrom.toInt.toNat full).reverse) ↔
        w.PageFits strAccount nCount nFrom)) ∧
    ∀ full, w.fullList strAccount = some full → ∀ k : Nat,
      (∀ i < k, i * nCount.toInt < 2 ^ 31 ∧
        w.PageFits strAccount nCount (Int32.ofInt (i * nCount.toInt))) →
      ∃ pages : List (List ListEntry),
        ((List.range k).map fun i : Nat => w.listtransactions (some strAccount) (some nCount)
          (some (Int32.ofInt (i * nCount.toInt)))) = pages.map Except.ok ∧
        pages.flatMap List.reverse = full.take (k * nCount.toInt.toNat) :=
  ⟨fun _ hfrom => page_iff hcount hfrom, fun _ hfull k hfits => flatMap_pages hcount hfull k hfits⟩

end AccountWallet

namespace ListSample

open KeySample Sample

/-- A payment to the key, in the order of its lock time. -/
def payment (nValue : Int) (n : Nat) : AccountTx :=
  { WalletSample.transaction [⟨⟨7, 0⟩, [], 0⟩]
      [⟨nValue, CScript.push key.getPubKey ++ [CScript.OP_CHECKSIG]⟩] (UInt32.ofNat n) with
    strFromAccount := []
    nOrderPos := Int64.ofNat n
    nTimeReceived := 1400000000
    nTimeSmart := 1400000000
    mapValue := ∅ }

def wallet : AccountWallet where
  keystore := CBasicKeyStore.empty.addKey key
  vchDefaultKey := []
  mapAddressBook := []
  mapWallet := (((∅ : Std.TreeMap uint256 AccountTx).insert 1 (payment 50 1)).insert 2
    (payment 60 2)).insert 3 (payment 70 3)
  pindexBest := none
  nOrderPosNext := 4
  acentries := .empty
  size_lt _ _ h := by simp at h
  nAccountingEntryNumber := 0

/-- A page of two entries and one of the other. -/
theorem listtransactions_spec_sample : ∃ full, wallet.fullList allAccounts = some full ∧
    full.length = 3 ∧ ∃ pages : List (List ListEntry), pages.map List.length = [2, 1] ∧
      ((List.range 2).map fun i : Nat => wallet.listtransactions (some allAccounts) (some 2)
        (some (Int32.ofInt (i * (2 : Int32).toInt)))) = pages.map Except.ok ∧
      pages.flatMap List.reverse = full := by
  have hlength : (wallet.fullList allAccounts).map List.length = some 3 := by decide +kernel
  obtain ⟨full, hfull, hlength⟩ := Option.map_eq_some_iff.mp hlength
  have hfits : ∀ nFrom : Int32, Int32Range ((2 : Int32).toInt + nFrom.toInt) →
      wallet.PageFits allAccounts 2 nFrom := fun nFrom hsum =>
    ⟨by decide +kernel, .inr hsum, .inl (by decide +kernel)⟩
  obtain ⟨pages, hpages, hall⟩ :=
    (AccountWallet.listtransactions_spec wallet allAccounts 2 (by decide)).2 full hfull 2
      fun i hi => by
        obtain rfl | rfl : i = 0 ∨ i = 1 := by omega
        · exact ⟨by decide, hfits _ (by decide)⟩
        · exact ⟨by decide, hfits _ (by decide)⟩
  have hlengths : (((List.range 2).map fun i : Nat => wallet.listtransactions (some allAccounts)
      (some 2) (some (Int32.ofInt (i * (2 : Int32).toInt)))).map fun r =>
        (r.toOption.getD []).length) = [2, 1] := by
    decide +kernel
  rw [hpages, List.map_map] at hlengths
  refine ⟨full, hfull, hlength, pages, hlengths, hpages, ?_⟩
  rw [hall, List.take_of_length_le (by rw [hlength]; decide)]

/-- The end of a page of 2147483647 entries from the second one on is not an `int`. -/
theorem not_listtransactions_page :
    ¬ ∀ (w : AccountWallet) (strAccount : Text) (nCount nFrom : Int32), 0 ≤ nCount.toInt →
      0 ≤ nFrom.toInt → ∃ full, w.fullList strAccount = some full ∧
        w.listtransactions (some strAccount) (some nCount) (some nFrom) =
          .ok (page nCount.toInt.toNat nFrom.toInt.toNat full).reverse := by
  intro hall
  have hpage := hall wallet allAccounts 2147483647 1 (by decide) (by decide)
  have hfits := (AccountWallet.page_iff (by decide) (by decide)).mp hpage
  rcases hfits.sum with hnil | hsum
  · obtain ⟨wtx, hwtx⟩ : ∃ wtx, wallet.mapWallet[(3 : uint256)]? = some wtx :=
      ⟨_, Std.TreeMap.getElem?_insert_self⟩
    have hmem := Std.TreeMap.mem_toList_iff_getElem?_eq_some.mpr hwtx
    have hitem : AccountItem.wtx wtx ∈ wallet.orderedTxItems allAccounts :=
      AccountWallet.mem_orderedTxItems.mpr (.inl ⟨_, hmem, rfl⟩)
    rw [hnil] at hitem
    exact absurd hitem List.not_mem_nil
  · exact absurd hsum (by decide)

end ListSample

end Terracoin
