import Terracoin.Lib.Run
import Terracoin.Wallet.AccountBalances
import Terracoin.Wallet.ListTransactions
import Terracoin.Wallet.ReorderTransactions

/-!
# Moves between accounts

The command `move` writes two accounting entries that cancel, each with a number of its own. It does
not look at whether they are written; if both are, or neither, the sum of the balances stays the same
(`listaccounts_spec`).
-/

namespace Terracoin

open Std (ExtTreeMap)
open AcentryRecords (allAccounts)
open Postings

/-! ## The command -/

/-- What the database does in the course of a move. -/
structure MoveWrites where
  txnBegin : Bool
  writeDebit : Bool
  writeCredit : Bool
  txnCommit : Bool

/-- The parameters of a move. -/
structure Move where
  strFrom : Text
  strTo : Text
  from_lt : strFrom.length < 2 ^ 64
  to_lt : strTo.length < 2 ^ 64
  nAmount : Int64
  strComment : Text
  /-- `GetAdjustedTime()`. -/
  nNow : Int64
  db : MoveWrites

def moveEntry (strAccount : Text) (nCreditDebit : Int64) (strOtherAccount : Text) (m : Move)
    (nOrderPos : Int64) : CAccountingEntry where
  strAccount := strAccount
  nCreditDebit := nCreditDebit
  nTime := m.nNow
  strOtherAccount := strOtherAccount
  strComment := m.strComment
  mapValue := ∅
  nOrderPos := nOrderPos
  nEntryNo := 0
  ssExtra := []

namespace AccountWallet

variable [EllipticCurve] [ByteHashing160]

def incOrderPosNext (w : AccountWallet) : Option (Int64 × AccountWallet) := do
  let nOrderPosNext ← checkedInt64 (w.nOrderPosNext.toInt + 1)
  pure (w.nOrderPosNext, { w with nOrderPosNext })

theorem size_lt_write (w : AccountWallet) {acentry : CAccountingEntry}
    (hsize : acentry.strAccount.length < 2 ^ 64) (nEntryNo : UInt64) (key : Text)
    (e : CAccountingEntry) (h : (w.acentries.write nEntryNo acentry).records[key]? = some e) :
    e.strAccount.length < 2 ^ 64 := by
  rw [AcentryRecords.write, ExtTreeMap.getElem?_insert] at h
  split at h
  · obtain rfl := Option.some.inj h
    exact hsize
  · exact w.size_lt key e h

def writeAccountingEntry (w : AccountWallet) (acentry : CAccountingEntry)
    (hsize : acentry.strAccount.length < 2 ^ 64) (fWritten : Bool) : AccountWallet :=
  let nAccountingEntryNumber := w.nAccountingEntryNumber + 1
  if fWritten then
    { w with
      nAccountingEntryNumber
      acentries := w.acentries.write nAccountingEntryNumber acentry
      size_lt := w.size_lt_write hsize nAccountingEntryNumber }
  else { w with nAccountingEntryNumber }

/-- `move`. It is not defined if an order position overflows. -/
def movecmd (w : AccountWallet) (m : Move) : Option (Except JSONRPCError Unit × AccountWallet) :=
  if m.strFrom = allAccounts ∨ m.strTo = allAccounts then
    some (.error ⟨-11, "Invalid account name"⟩, w)
  else if !moneyRange m.nAmount.toInt then some (.error ⟨-3, "Invalid amount"⟩, w)
  else if !m.db.txnBegin then some (.error ⟨-20, "database error"⟩, w)
  else do
    -- Debit
    let (nOrderPos, w1) ← w.incOrderPosNext
    let debit := moveEntry m.strFrom (-m.nAmount) m.strTo m nOrderPos
    let w1 := w1.writeAccountingEntry debit m.from_lt m.db.writeDebit
    -- Credit
    let (nOrderPos, w2) ← w1.incOrderPosNext
    let credit := moveEntry m.strTo m.nAmount m.strFrom m nOrderPos
    let w2 := w2.writeAccountingEntry credit m.to_lt m.db.writeCredit
    if m.db.txnCommit then pure (.ok (), w2)
    else
      -- The file is as it was before
      pure (.error ⟨-20, "database error"⟩,
        { w2 with acentries := w.acentries, size_lt := w.size_lt })

def step (w : AccountWallet) (m : Move) : Option AccountWallet := (w.movecmd m).map Prod.snd

/-- No entry has a number above the last one, as `LoadWallet` reads them all. -/
def Numbered (w : AccountWallet) : Prop :=
  ∀ (key : Text) e, w.acentries.records[key]? = some e → e.nEntryNo ≤ w.nAccountingEntryNumber

/-- If a move is committed, both entries are written or neither is; and there are numbers left. -/
structure Written (w : AccountWallet) (m : Move) : Prop where
  both : m.db.txnCommit = true → m.db.writeDebit = m.db.writeCredit
  numbers : w.nAccountingEntryNumber.toNat + 2 < 2 ^ 64

/-! ## One entry -/

omit [EllipticCurve] [ByteHashing160] in
theorem littleEndian_inj {n m : UInt64} (h : littleEndian 8 n.toNat = littleEndian 8 m.toNat) :
    n = m := by
  have hn := decodes_littleEndian (k := 8) n.toNat_lt []
  rw [h, decodes_littleEndian (k := 8) m.toNat_lt [], Option.some.injEq, Prod.mk.injEq] at hn
  exact (UInt64.toNat_inj.mp hn.1).symm

theorem Numbered.fresh {w : AccountWallet} (hw : w.Numbered)
    (hlt : w.nAccountingEntryNumber.toNat + 1 < 2 ^ 64) (strAccount : Text) :
    w.acentries.records[acentryKey strAccount (w.nAccountingEntryNumber + 1)]? = none := by
  cases hget : w.acentries.records[acentryKey strAccount (w.nAccountingEntryNumber + 1)]? with
  | none => rfl
  | some e =>
    have hkey := w.acentries.key_eq _ e hget
    have hnumber := littleEndian_inj (List.append_inj_right' hkey (by
      rw [length_littleEndian, length_littleEndian]))
    have hle := UInt64.le_iff_toNat_le.mp (hw _ e hget)
    rw [← hnumber, UInt64.toNat_add] at hle
    have hone : (1 : UInt64).toNat = 1 := rfl
    omega

end AccountWallet

namespace AcentryRecords

theorem nodup_toList (db : AcentryRecords) : db.records.toList.Nodup :=
  ExtTreeMap.distinct_keys_toList.imp fun hne heq =>
    hne (Std.LawfulEqCmp.compare_eq_iff_eq.mpr (congrArg Prod.fst heq))

/-- A record that is new is one more. -/
theorem write_perm {db : AcentryRecords} {nEntryNo : UInt64} {acentry : CAccountingEntry}
    (hfresh : db.records[acentryKey acentry.strAccount nEntryNo]? = none) :
    (db.write nEntryNo acentry).records.toList.Perm
      ((acentryKey acentry.strAccount nEntryNo, { acentry with nEntryNo }) ::
        db.records.toList) := by
  have hnot : ∀ e, (acentryKey acentry.strAccount nEntryNo, e) ∉ db.records.toList := by
    intro e he
    rw [ExtTreeMap.mem_toList_iff_getElem?_eq_some.mp he] at hfresh
    cases hfresh
  apply (List.perm_ext_iff_of_nodup (nodup_toList _)
    (List.nodup_cons.mpr ⟨hnot _, db.nodup_toList⟩)).mpr
  rintro ⟨key, e⟩
  rw [ExtTreeMap.mem_toList_iff_getElem?_eq_some, write, ExtTreeMap.getElem?_insert, List.mem_cons,
    ExtTreeMap.mem_toList_iff_getElem?_eq_some]
  split
  · rename_i heq
    obtain rfl := Std.LawfulEqCmp.eq_of_compare heq
    simp [hfresh, eq_comm]
  · rename_i hne
    have hkey : key ≠ acentryKey acentry.strAccount nEntryNo := by
      rintro rfl
      exact hne Std.ReflCmp.compare_self
    simp [hkey]

end AcentryRecords

namespace AccountWallet

section

variable [EllipticCurve] [ByteHashing160] {w w1 w' : AccountWallet} {m : Move}
  {acentry : CAccountingEntry}

/-- Everything is the same but the order positions and the accounting entries. -/
structure SameTransactions (w w' : AccountWallet) : Prop where
  keystore : w'.keystore = w.keystore
  mapAddressBook : w'.mapAddressBook = w.mapAddressBook
  vchDefaultKey : w'.vchDefaultKey = w.vchDefaultKey
  mapWallet : w'.mapWallet = w.mapWallet
  pindexBest : w'.pindexBest = w.pindexBest

theorem SameTransactions.refl (w : AccountWallet) : SameTransactions w w := ⟨rfl, rfl, rfl, rfl, rfl⟩

theorem SameTransactions.trans (h : SameTransactions w w1) (h' : SameTransactions w1 w') :
    SameTransactions w w' :=
  ⟨h'.keystore.trans h.keystore, h'.mapAddressBook.trans h.mapAddressBook,
    h'.vchDefaultKey.trans h.vchDefaultKey, h'.mapWallet.trans h.mapWallet,
    h'.pindexBest.trans h.pindexBest⟩

theorem incOrderPosNext_spec {nOrderPos : Int64} (h : w.incOrderPosNext = some (nOrderPos, w1)) :
    SameTransactions w w1 ∧ w1.acentries = w.acentries ∧
      w1.nAccountingEntryNumber = w.nAccountingEntryNumber := by
  obtain ⟨nOrderPosNext, -, heq⟩ := Option.bind_eq_some_iff.mp h
  obtain ⟨-, rfl⟩ := Prod.mk.inj (Option.some.inj heq)
  exact ⟨⟨rfl, rfl, rfl, rfl, rfl⟩, rfl, rfl⟩

/-- An entry that is written is one more, with the next number. -/
theorem writeAccountingEntry_spec (hw : w.Numbered)
    (hlt : w.nAccountingEntryNumber.toNat + 1 < 2 ^ 64)
    (hsize : acentry.strAccount.length < 2 ^ 64) (fWritten : Bool) :
    SameTransactions w (w.writeAccountingEntry acentry hsize fWritten) ∧
      (w.writeAccountingEntry acentry hsize fWritten).Numbered ∧
      (w.writeAccountingEntry acentry hsize fWritten).nAccountingEntryNumber.toNat =
        w.nAccountingEntryNumber.toNat + 1 ∧
      ∀ p, posted p (w.writeAccountingEntry acentry hsize fWritten).entryPostings =
        (if fWritten && p acentry.strAccount then acentry.nCreditDebit else 0) +
          posted p w.entryPostings := by
  have hnumber : (w.nAccountingEntryNumber + 1).toNat = w.nAccountingEntryNumber.toNat + 1 := by
    rw [UInt64.toNat_add, show (1 : UInt64).toNat = 1 from rfl]
    exact Nat.mod_eq_of_lt hlt
  have hle : ∀ (key : Text) e, w.acentries.records[key]? = some e →
      e.nEntryNo ≤ w.nAccountingEntryNumber + 1 := by
    intro key e he
    have h := UInt64.le_iff_toNat_le.mp (hw key e he)
    rw [UInt64.le_iff_toNat_le, hnumber]
    omega
  cases fWritten with
  | false => exact ⟨⟨rfl, rfl, rfl, rfl, rfl⟩, hle, hnumber, fun p => (zero_add _).symm⟩
  | true =>
    refine ⟨⟨rfl, rfl, rfl, rfl, rfl⟩, ?_, hnumber, fun p => ?_⟩
    · intro key e he
      change (w.acentries.write (w.nAccountingEntryNumber + 1) acentry).records[key]? = some e at he
      rw [AcentryRecords.write, ExtTreeMap.getElem?_insert] at he
      split at he
      · obtain rfl := Option.some.inj he
        exact UInt64.le_refl _
      · exact hle key e he
    · have hperm := AcentryRecords.write_perm (hw.fresh hlt acentry.strAccount)
      have hposted := posted_perm (p := p) (hperm.map fun r => (r.2.strAccount, r.2.nCreditDebit))
      rw [Bool.true_and]
      exact hposted.trans (posted_cons p acentry.strAccount acentry.nCreditDebit w.entryPostings)

theorem addEntry_spec {nOrderPos : Int64} (hpos : w.incOrderPosNext = some (nOrderPos, w1))
    (hw : w.Numbered) (hlt : w.nAccountingEntryNumber.toNat + 1 < 2 ^ 64) (acentry : CAccountingEntry)
    (hsize : acentry.strAccount.length < 2 ^ 64) (fWritten : Bool) :
    SameTransactions w (w1.writeAccountingEntry acentry hsize fWritten) ∧
      (w1.writeAccountingEntry acentry hsize fWritten).Numbered ∧
      (w1.writeAccountingEntry acentry hsize fWritten).nAccountingEntryNumber.toNat =
        w.nAccountingEntryNumber.toNat + 1 ∧
      ∀ p, posted p (w1.writeAccountingEntry acentry hsize fWritten).entryPostings =
        (if fWritten && p acentry.strAccount then acentry.nCreditDebit else 0) +
          posted p w.entryPostings := by
  obtain ⟨hsame, hentries, hnumber⟩ := incOrderPosNext_spec hpos
  have hw1 : w1.Numbered := by
    rw [Numbered, hentries, hnumber]
    exact hw
  obtain ⟨hsame', hw', hnumber', hposted⟩ :=
    writeAccountingEntry_spec hw1 (hnumber ▸ hlt) hsize fWritten
  refine ⟨hsame.trans hsame', hw', hnumber ▸ hnumber', fun p => ?_⟩
  rw [hposted p, entryPostings, entryPostings, hentries]

/-! ## A move -/

/-- A move keeps the sum of what the entries post to the accounts. -/
theorem movecmd_spec {r : Except JSONRPCError Unit} (hw : w.Numbered) (hwritten : w.Written m)
    (h : w.movecmd m = some (r, w')) :
    SameTransactions w w' ∧ w'.Numbered ∧
      posted (· ≠ allAccounts) w'.entryPostings = posted (· ≠ allAccounts) w.entryPostings := by
  have hrefused : ∀ e, some (Except.error e, w) = some (r, w') → SameTransactions w w' ∧
      w'.Numbered ∧
      posted (· ≠ allAccounts) w'.entryPostings = posted (· ≠ allAccounts) w.entryPostings := by
    intro e heq
    obtain ⟨-, rfl⟩ := Prod.mk.inj (Option.some.inj heq)
    exact ⟨.refl w, hw, rfl⟩
  rw [movecmd] at h
  split at h
  · exact hrefused _ h
  rename_i haccounts
  split at h
  · exact hrefused _ h
  split at h
  · exact hrefused _ h
  obtain ⟨hfrom, hto⟩ := not_or.mp haccounts
  have hroom := hwritten.numbers
  obtain ⟨⟨nDebitPos, w1⟩, hdebit, h⟩ := Option.bind_eq_some_iff.mp h
  obtain ⟨hsame1, hw1, hnumber1, hposted1⟩ := addEntry_spec hdebit hw (by omega)
    (moveEntry m.strFrom (-m.nAmount) m.strTo m nDebitPos) m.from_lt m.db.writeDebit
  dsimp only at h
  generalize w1.writeAccountingEntry (moveEntry m.strFrom (-m.nAmount) m.strTo m nDebitPos) m.from_lt
    m.db.writeDebit = wDebit at *
  obtain ⟨⟨nCreditPos, w2⟩, hcredit, h⟩ := Option.bind_eq_some_iff.mp h
  obtain ⟨hsame2, hw2, hnumber2, hposted2⟩ := addEntry_spec hcredit hw1 (by omega)
    (moveEntry m.strTo m.nAmount m.strFrom m nCreditPos) m.to_lt m.db.writeCredit
  dsimp only at h
  generalize w2.writeAccountingEntry (moveEntry m.strTo m.nAmount m.strFrom m nCreditPos) m.to_lt
    m.db.writeCredit = wCredit at *
  have hsame := hsame1.trans hsame2
  split at h
  · rename_i hcommit
    obtain ⟨-, rfl⟩ := Prod.mk.inj (Option.some.inj h)
    refine ⟨hsame, hw2, ?_⟩
    rw [hposted2, hposted1, hwritten.both hcommit]
    -- The two amounts cancel, if they are there
    cases m.db.writeCredit with
    | false => simp
    | true =>
      simp only [moveEntry, hfrom, hto, Bool.true_and, ne_eq, not_false_eq_true, decide_true, if_true]
      abel
  · obtain ⟨-, rfl⟩ := Prod.mk.inj (Option.some.inj h)
    refine ⟨⟨hsame.keystore, hsame.mapAddressBook, hsame.vchDefaultKey, hsame.mapWallet,
      hsame.pindexBest⟩, ?_, rfl⟩
    intro key e he
    have hle := UInt64.le_iff_toNat_le.mp (hw key e he)
    rw [UInt64.le_iff_toNat_le, hnumber2, hnumber1]
    omega

end

section

variable [EllipticCurve] [ByteHashing160] [Hashing] {w w' : AccountWallet} {nMinDepth : Int32}
  {balances : AccountBalances}

theorem SameTransactions.postings (h : SameTransactions w w') :
    w'.getAmounts = w.getAmounts ∧ w'.postings = w.postings := by
  cases w
  cases w'
  obtain ⟨rfl, rfl, rfl, rfl, rfl⟩ := h
  exact ⟨rfl, rfl⟩

theorem total_listaccounts (h : w.listaccounts nMinDepth = some balances) (p : Text → Bool) :
    Postings.total p balances =
      posted p (w.mapWallet.toList.flatMap fun r => w.postings nMinDepth r.2) +
        posted p w.entryPostings := by
  rw [listaccounts_eq (isSome_of_listaccounts h), Option.some.injEq] at h
  rw [← h, total_postAll, posted_append, posted_append, posted_zeros, zero_add,
    show Postings.total p (∅ : AccountBalances) = 0 from rfl]
  exact zero_add _

theorem total_eq (hsame : SameTransactions w w') {p : Text → Bool}
    (hentries : posted p w'.entryPostings = posted p w.entryPostings)
    (hlist : w.listaccounts nMinDepth = some balances) :
    ∃ balances', w'.listaccounts nMinDepth = some balances' ∧
      Postings.total p balances' = Postings.total p balances := by
  obtain ⟨hgetAmounts, hpostings⟩ := hsame.postings
  have hamounts : ∀ r ∈ w'.mapWallet.toList, (w'.getAmounts r.2).isSome = true := by
    rw [hsame.mapWallet, hgetAmounts]
    exact isSome_of_listaccounts hlist
  refine ⟨_, listaccounts_eq hamounts, ?_⟩
  rw [total_listaccounts (listaccounts_eq hamounts), total_listaccounts hlist, hsame.mapWallet,
    hpostings, hentries]

/-- The balance that `listaccounts` reports for an account is that of `GetAccountBalance` exactly if
what the transactions that are not final post to it cancels. Moves of which both entries are written,
or neither, leave the sum of the balances as it is. -/
theorem listaccounts_spec (w : AccountWallet) (hw : w.Numbered) (nMinDepth : Int32) :
    (∀ (nAdjustedTime : Int) (strAccount : Text), strAccount ≠ allAccounts →
      strAccount.length < 2 ^ 64 →
      ((∃ balances, w.listaccounts nMinDepth = some balances ∧
        w.getAccountBalance nAdjustedTime strAccount nMinDepth =
          some (balances.getD strAccount 0)) ↔
        w.NonFinalCancel nAdjustedTime nMinDepth strAccount)) ∧
    ∀ moves w', Run.run step w moves = some w' → Run.Meets Written step w moves →
      ∀ balances, w.listaccounts nMinDepth = some balances →
        ∃ balances', w'.listaccounts nMinDepth = some balances' ∧
          Postings.total (· ≠ allAccounts) balances' = Postings.total (· ≠ allAccounts) balances := by
  refine ⟨fun nAdjustedTime strAccount hne hsize => balance_iff hne hsize, ?_⟩
  intro moves w' hrun hmeets balances hlist
  have hkept : SameTransactions w w' ∧ w'.Numbered ∧
      posted (· ≠ allAccounts) w'.entryPostings = posted (· ≠ allAccounts) w.entryPostings := by
    refine Run.run_invariant_of_meets (P := fun w1 => SameTransactions w w1 ∧ w1.Numbered ∧
      posted (· ≠ allAccounts) w1.entryPostings = posted (· ≠ allAccounts) w.entryPostings)
      ?_ hmeets ⟨.refl w, hw, rfl⟩ hrun
    rintro w1 m w2 hwritten ⟨hsame, hw1, hposted⟩ hstep
    obtain ⟨⟨r, _⟩, hmove, rfl⟩ := Option.map_eq_some_iff.mp hstep
    obtain ⟨hsame', hw2, hposted'⟩ := movecmd_spec hw1 hwritten hmove
    exact ⟨hsame.trans hsame', hw2, hposted'.trans hposted⟩
  exact total_eq hkept.1 hkept.2.2 hlist

end

end AccountWallet

namespace MoveSample

open KeySample Sample

/-- A payment from the account "" to the account "a". -/
def move : Move where
  strFrom := []
  strTo := [97]
  from_lt := by decide
  to_lt := by decide
  nAmount := 30
  strComment := []
  nNow := 1400000000
  db := ⟨true, true, true, true⟩

def after : AccountWallet := (ListSample.wallet.step move).get rfl

theorem listaccounts_spec_sample :
    ((∃ balances, ListSample.wallet.listaccounts 0 = some balances ∧
      ListSample.wallet.getAccountBalance 0 [97] 0 = some (balances.getD [97] 0)) ↔
      ListSample.wallet.NonFinalCancel 0 0 [97]) ∧
    ∀ balances, ListSample.wallet.listaccounts 0 = some balances →
      ∃ balances', after.listaccounts 0 = some balances' ∧
        Postings.total (· ≠ allAccounts) balances' = Postings.total (· ≠ allAccounts) balances := by
  have hnumbered : ListSample.wallet.Numbered := by
    intro key e he
    simp [ListSample.wallet] at he
  have hspec := AccountWallet.listaccounts_spec ListSample.wallet hnumbered 0
  refine ⟨hspec.1 0 [97] (by decide) (by decide), ?_⟩
  refine hspec.2 [move] after ?_ ⟨⟨fun _ => rfl, by decide⟩, fun _ _ => trivial⟩
  exact Run.run_cons.mpr ⟨after, (Option.some_get _).symm, rfl⟩

/-- The transactions of the wallet are not final. They count for one of the two calls. -/
theorem not_listaccounts_eq_getAccountBalance :
    ¬ ∀ (w : AccountWallet) (nAdjustedTime : Int) (nMinDepth : Int32) (strAccount : Text),
      w.Numbered → 0 ≤ nMinDepth.toInt → strAccount ≠ allAccounts → strAccount.length < 2 ^ 64 →
        ∃ balances, w.listaccounts nMinDepth = some balances ∧
          w.getAccountBalance nAdjustedTime strAccount nMinDepth =
            some (balances.getD strAccount 0) := by
  intro hall
  have hnumbered : ListSample.wallet.Numbered := by
    intro key e he
    simp [ListSample.wallet] at he
  obtain ⟨balances, hlist, hbalance⟩ :=
    hall ListSample.wallet 0 0 [] hnumbered (by decide) (by decide) (by decide)
  have hlisted : (ListSample.wallet.listaccounts 0).map (·.getD [] 0) = some 180 := by decide +kernel
  have hzero : ListSample.wallet.getAccountBalance 0 [] 0 = some 0 := by decide +kernel
  rw [hlist, Option.map_some, Option.some.injEq] at hlisted
  rw [hbalance, hlisted] at hzero
  exact absurd hzero (by decide)

end MoveSample

end Terracoin
