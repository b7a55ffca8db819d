import Mathlib.Data.List.Sort
import Terracoin.Lib.Renumber
import Terracoin.Wallet.AcentryRecords
import Terracoin.Wallet.WalletTxFile

/-!
# Reordering transactions

Old wallets didn't have any defined order for transactions. `ReorderTransactions` goes through the
transactions and the accounting entries in the order of time and puts those without a position in.
Every item gets the number that it has among those before it (`reorderLoop_spec`), and the entries of
named accounts are left out.
-/

namespace Terracoin

open Std (ExtTreeMap)
open Renumber

/-! ## `ReorderTransactions` -/

inductive DBErrors where
  | DB_LOAD_OK
  | DB_CORRUPT
  | DB_NONCRITICAL_ERROR
  | DB_TOO_NEW
  | DB_LOAD_FAIL
  | DB_NEED_REWRITE

/-- Whether the database takes what is written to it. -/
structure WalletDBWrites where
  writeTx : WalletFile.CWalletTx → Bool
  writeAccountingEntry : UInt64 → CAccountingEntry → Bool

/-- What of a wallet has an order: its transactions in memory, its accounting entries in the file. -/
structure OrderedWallet where
  mapWallet : ExtTreeMap uint256 WalletFile.CWalletTx
  nOrderPosNext : Int64
  acentries : AcentryRecords

inductive TxPair where
  | wtx (hash : uint256) (pwtx : WalletFile.CWalletTx)
  | acentry (pacentry : CAccountingEntry)

namespace TxPair

def time : TxPair → Int
  | wtx _ pwtx => pwtx.nTimeReceived.toNat
  | acentry pacentry => pacentry.nTime.toInt

def nOrderPos : TxPair → Int64
  | wtx _ pwtx => pwtx.nOrderPos
  | acentry pacentry => pacentry.nOrderPos

def isAcentry : TxPair → Bool
  | wtx _ _ => false
  | acentry _ => true

end TxPair

/-- An `int64`, unless it overflows. -/
def checkedInt64 (n : Int) : Option Int64 :=
  if -2 ^ 63 ≤ n ∧ n < 2 ^ 63 then some (Int64.ofInt n) else none

namespace OrderedWallet

/-- All `CWalletTx` and `CAccountingEntry` in a sorted-by-time multimap. -/
def txByTime (w : OrderedWallet) : List TxPair :=
  (w.mapWallet.toList.map (fun p => TxPair.wtx p.1 p.2) ++
    (w.acentries.listAccountCreditDebit []).map TxPair.acentry).insertionSort
      fun item item' => item.time ≤ item'.time

/-- Set the position of an item, and write it if `fWrite`. -/
def setOrderPos (db : WalletDBWrites) (w : OrderedWallet) (nOrderPos : Int64) (fWrite : Bool) :
    TxPair → DBErrors × OrderedWallet
  | .wtx hash pwtx =>
    let pwtx := { pwtx with nOrderPos }
    let w := { w with mapWallet := w.mapWallet.insert hash pwtx }
    if fWrite && !db.writeTx pwtx then (.DB_LOAD_FAIL, w) else (.DB_LOAD_OK, w)
  | .acentry pacentry =>
    let pacentry := { pacentry with nOrderPos }
    if !fWrite then (.DB_LOAD_OK, w)
    else if db.writeAccountingEntry pacentry.nEntryNo pacentry then
      (.DB_LOAD_OK, { w with acentries := w.acentries.write pacentry.nEntryNo pacentry })
    else (.DB_LOAD_FAIL, w)

/-- The loop over `txByTime`. It is not defined if an `int64` overflows. -/
def reorderLoop (db : WalletDBWrites) :
    List TxPair → OrderedWallet → List Int64 → Option (DBErrors × OrderedWallet)
  | [], w, _ => some (.DB_LOAD_OK, w)
  | item :: txByTime, w, nOrderPosOffsets => do
    if item.nOrderPos = -1 then
      let nOrderPos := w.nOrderPosNext
      let nOrderPosNext ← checkedInt64 (nOrderPos.toInt + 1)
      -- Have to write accounting regardless, since we don't keep it in memory
      match setOrderPos db { w with nOrderPosNext } nOrderPos item.isAcentry item with
      | (.DB_LOAD_OK, w) => reorderLoop db txByTime w (nOrderPosOffsets ++ [nOrderPos])
      | fail => some fail
    else
      let nOrderPosOff := nOrderPosOffsets.countP fun nOffsetStart => nOffsetStart ≤ item.nOrderPos
      let nOrderPos ← checkedInt64 (item.nOrderPos.toInt + nOrderPosOff)
      let nOrderPosEnd ← checkedInt64 (nOrderPos.toInt + 1)
      let w := { w with nOrderPosNext := max w.nOrderPosNext nOrderPosEnd }
      -- Since we're changing the order, write it back
      match setOrderPos db w nOrderPos (nOrderPosOff != 0) item with
      | (.DB_LOAD_OK, w) => reorderLoop db txByTime w nOrderPosOffsets
      | fail => some fail

def reorderTransactions (db : WalletDBWrites) (w : OrderedWallet) : Option (DBErrors × OrderedWallet) :=
  reorderLoop db w.txByTime { w with nOrderPosNext := 0 } []

/-! ## Positions -/

end OrderedWallet

/-- What has a position: a transaction by its hash, an accounting entry by its key. -/
inductive OrderedItem where
  | wtx (hash : uint256)
  | acentry (key : Text)
  deriving DecidableEq

def TxPair.item : TxPair → OrderedItem
  | .wtx hash _ => .wtx hash
  | .acentry pacentry => .acentry (acentryKey pacentry.strAccount pacentry.nEntryNo)

/-- The position before, of an item that has one. -/
def oldPos (nOrderPos : Int64) : Option Nat :=
  if nOrderPos = -1 then none else some nOrderPos.toInt.toNat

def WalletDBWrites.Succeed (db : WalletDBWrites) : Prop :=
  (∀ wtx, db.writeTx wtx = true) ∧ ∀ nEntryNo acentry, db.writeAccountingEntry nEntryNo acentry = true

namespace OrderedWallet

def posOf (w : OrderedWallet) : OrderedItem → Option Int64
  | .wtx hash => w.mapWallet[hash]?.map WalletFile.CWalletTx.nOrderPos
  | .acentry key => w.acentries.records[key]?.map CAccountingEntry.nOrderPos

variable {db : WalletDBWrites} {w : OrderedWallet} {item : TxPair} {nOrderPos : Int64}

/-- What is not written has its position already. -/
theorem setOrderPos_spec (hdb : db.Succeed) (w : OrderedWallet) (nOrderPos : Int64) (fWrite : Bool)
    (hitem : w.posOf item.item = some item.nOrderPos)
    (hwrite : fWrite = false → item.isAcentry = true → nOrderPos = item.nOrderPos) :
    ∃ w', setOrderPos db w nOrderPos fWrite item = (.DB_LOAD_OK, w') ∧
      w'.nOrderPosNext = w.nOrderPosNext ∧
      ∀ i, w'.posOf i = if i = item.item then some nOrderPos else w.posOf i := by
  cases item with
  | wtx hash pwtx =>
    refine ⟨{ w with mapWallet := w.mapWallet.insert hash { pwtx with nOrderPos } },
      by simp [setOrderPos, hdb.1], rfl, fun i => ?_⟩
    cases i with
    | wtx hash' =>
      rw [posOf, ExtTreeMap.getElem?_insert]
      by_cases h : hash' = hash
      · simp [h, TxPair.item]
      · simp [h, TxPair.item, posOf, Ne.symm h]
    | acentry key => simp [posOf, TxPair.item]
  | acentry pacentry =>
    cases fWrite with
    | false =>
      refine ⟨w, rfl, rfl, fun i => ?_⟩
      split_ifs with h
      · rw [h, hitem, hwrite rfl rfl]
      · rfl
    | true =>
      refine ⟨{ w with acentries := w.acentries.write pacentry.nEntryNo { pacentry with nOrderPos } },
        by simp [setOrderPos, hdb.2], rfl, fun i => ?_⟩
      cases i with
      | wtx hash => simp [posOf, TxPair.item]
      | acentry key =>
        dsimp only [posOf, AcentryRecords.write]
        rw [ExtTreeMap.getElem?_insert]
        by_cases h : key = acentryKey pacentry.strAccount pacentry.nEntryNo
        · simp [h, TxPair.item]
        · simp [h, TxPair.item, Ne.symm h]

/-! ## The loop -/

theorem toInt_of_checkedInt64 {n : Int} {m : Int64} (h : checkedInt64 n = some m) : m.toInt = n := by
  rw [checkedInt64] at h
  split at h
  · next hrange => rw [← Option.some.inj h, Int64.toInt_ofInt_of_le hrange.1 hrange.2]
  · cases h

theorem exists_checkedInt64 {n : Int} (h : 0 ≤ n) (hlt : n < 2 ^ 63) :
    ∃ m, checkedInt64 n = some m ∧ m.toInt = n := by
  have hm : checkedInt64 n = some (Int64.ofInt n) := if_pos ⟨by omega, hlt⟩
  exact ⟨_, hm, toInt_of_checkedInt64 hm⟩

theorem checkedInt64_of_le {n : Int} (h : 2 ^ 63 ≤ n) : checkedInt64 n = none :=
  if_neg fun hrange => absurd hrange.2 (Int.not_lt.mpr h)

/-- The state of the loop after items with these positions. -/
structure Numbered (nOrderPosNext : Int64) (nOrderPosOffsets : List Int64) (l : List (Option Nat)) :
    Prop where
  next : nOrderPosNext.toInt = behind l
  offsets : nOrderPosOffsets.map Int64.toInt = (starts l).reverse.map Nat.cast

variable {nOrderPosNext : Int64} {nOrderPosOffsets : List Int64} {l : List (Option Nat)}

theorem Numbered.countP (h : Numbered nOrderPosNext nOrderPosOffsets l) (hpos : 0 ≤ nOrderPos.toInt) :
    nOrderPosOffsets.countP (fun nOffsetStart => nOffsetStart ≤ nOrderPos) =
      shift l nOrderPos.toInt.toNat := by
  have hint : nOrderPosOffsets.countP (fun nOffsetStart => nOffsetStart ≤ nOrderPos) =
      (nOrderPosOffsets.map Int64.toInt).countP (fun s => s ≤ nOrderPos.toInt) := by
    rw [List.countP_map]
    refine List.countP_congr fun s _ => ?_
    simp [Int64.le_iff_toInt_le]
  rw [hint, h.offsets, List.countP_map, List.countP_reverse, shift]
  refine List.countP_congr fun s _ => ?_
  simp only [Function.comp_apply, decide_eq_true_eq]
  omega

theorem Numbered.insert (h : Numbered nOrderPosNext nOrderPosOffsets l) {next : Int64}
    (hnext : next.toInt = nOrderPosNext.toInt + 1) :
    Numbered next (nOrderPosOffsets ++ [nOrderPosNext]) (none :: l) where
  next := by rw [hnext, h.next, behind, Nat.cast_succ]
  offsets := by simp [h.offsets, h.next, starts]

theorem toInt_max (a b : Int64) : (max a b).toInt = max a.toInt b.toInt := by
  change (if a ≤ b then b else a).toInt = _
  split_ifs with h <;> rw [Int64.le_iff_toInt_le] at h <;> omega

theorem Numbered.move (h : Numbered nOrderPosNext nOrderPosOffsets l) {next : Int64} {p : Nat}
    (hnext : next.toInt = number (some p) l + 1) :
    Numbered (max nOrderPosNext next) nOrderPosOffsets (some p :: l) where
  next := by
    rw [toInt_max, h.next, hnext, behind_cons]
    omega
  offsets := by rw [h.offsets, starts]

theorem Numbered.behind_lt (h : Numbered nOrderPosNext nOrderPosOffsets l) : behind l < 2 ^ 63 := by
  have hnext := Int64.toInt_lt nOrderPosNext
  rw [h.next] at hnext
  exact_mod_cast hnext

/-- An item without a position is put behind all. -/
theorem reorderLoop_insert (hdb : db.Succeed) (items : List TxPair)
    (h : Numbered w.nOrderPosNext nOrderPosOffsets l) (hnew : item.nOrderPos = -1)
    (hitem : w.posOf item.item = some item.nOrderPos) :
    (behind l + 1 < 2 ^ 63 → ∃ w',
      reorderLoop db (item :: items) w nOrderPosOffsets =
        reorderLoop db items w' (nOrderPosOffsets ++ [w.nOrderPosNext]) ∧
      Numbered w'.nOrderPosNext (nOrderPosOffsets ++ [w.nOrderPosNext]) (none :: l) ∧
      ∀ i, w'.posOf i = if i = item.item then some w.nOrderPosNext else w.posOf i) ∧
    (2 ^ 63 ≤ behind l + 1 → reorderLoop db (item :: items) w nOrderPosOffsets = none) := by
  constructor
  · intro hfits
    obtain ⟨next, hnext, hvalue⟩ := exists_checkedInt64 (n := w.nOrderPosNext.toInt + 1)
      (by rw [h.next]; omega) (by rw [h.next]; omega)
    obtain ⟨w', hset, hkeep, hposOf⟩ := setOrderPos_spec hdb { w with nOrderPosNext := next }
      w.nOrderPosNext item.isAcentry hitem fun hno hyes => absurd (hno.symm.trans hyes) (by decide)
    refine ⟨w', by simp [reorderLoop, hnew, hnext, hset], ?_, hposOf⟩
    rw [hkeep]
    exact h.insert hvalue
  · intro hover
    have hnext := checkedInt64_of_le (n := w.nOrderPosNext.toInt + 1) (by rw [h.next]; omega)
    simp [reorderLoop, hnew, hnext]

/-- An item with a position is moved up by the offsets that are at most it. -/
theorem reorderLoop_move (hdb : db.Succeed) (items : List TxPair)
    (h : Numbered w.nOrderPosNext nOrderPosOffsets l) (hold : item.nOrderPos ≠ -1)
    (hpos : 0 ≤ item.nOrderPos.toInt) (hitem : w.posOf item.item = some item.nOrderPos) {p : Nat}
    (hp : item.nOrderPos.toInt.toNat = p) :
    (number (some p) l + 1 < 2 ^ 63 → ∃ w', ∃ nOrderPos : Int64,
      reorderLoop db (item :: items) w nOrderPosOffsets = reorderLoop db items w' nOrderPosOffsets ∧
      Numbered w'.nOrderPosNext nOrderPosOffsets (some p :: l) ∧
      nOrderPos.toInt = (number (some p) l : Nat) ∧
      ∀ i, w'.posOf i = if i = item.item then some nOrderPos else w.posOf i) ∧
    (2 ^ 63 ≤ number (some p) l + 1 → reorderLoop db (item :: items) w nOrderPosOffsets = none) := by
  have hoff := h.countP hpos
  rw [hp] at hoff
  have hvalue : item.nOrderPos.toInt + (shift l p : Nat) = (number (some p) l : Nat) := by
    rw [number]
    omega
  constructor
  · intro hfits
    obtain ⟨nOrderPos, hmoved, hnumber⟩ := exists_checkedInt64
      (n := item.nOrderPos.toInt + (shift l p : Nat)) (by omega) (by omega)
    obtain ⟨next, hnext, hend⟩ := exists_checkedInt64 (n := nOrderPos.toInt + 1) (by omega) (by omega)
    rw [hvalue] at hnumber
    obtain ⟨w', hset, hkeep, hposOf⟩ := setOrderPos_spec hdb
      { w with nOrderPosNext := max w.nOrderPosNext next } nOrderPos (shift l p != 0) hitem
      fun hno _ => by
        have hzero : shift l p = 0 := by simpa using hno
        exact Int64.toInt_inj.mp (by omega)
    refine ⟨w', nOrderPos, ?_, ?_, hnumber, hposOf⟩
    · simp only [reorderLoop, if_neg hold, hoff, hmoved, hnext, hset, Option.bind_eq_bind,
        Option.bind_some]
    · rw [hkeep]
      exact h.move (by rw [hend, hnumber])
  · intro hover
    by_cases hfar : 2 ^ 63 ≤ number (some p) l
    · have hmoved := checkedInt64_of_le (n := item.nOrderPos.toInt + (shift l p : Nat)) (by omega)
      simp only [reorderLoop, if_neg hold, hoff, hmoved]
      rfl
    · obtain ⟨nOrderPos, hmoved, hnumber⟩ := exists_checkedInt64
        (n := item.nOrderPos.toInt + (shift l p : Nat)) (by omega) (by omega)
      have hnext := checkedInt64_of_le (n := nOrderPos.toInt + 1) (by omega)
      simp only [reorderLoop, if_neg hold, hoff, hmoved]
      simp [hnext]

/-- One item more. -/
theorem reorderLoop_cons (hdb : db.Succeed) (items : List TxPair)
    (h : Numbered w.nOrderPosNext nOrderPosOffsets l)
    (hpos : item.nOrderPos = -1 ∨ 0 ≤ item.nOrderPos.toInt)
    (hitem : w.posOf item.item = some item.nOrderPos) :
    (behind (oldPos item.nOrderPos :: l) < 2 ^ 63 → ∃ w' nOrderPosOffsets', ∃ nOrderPos : Int64,
      reorderLoop db (item :: items) w nOrderPosOffsets = reorderLoop db items w' nOrderPosOffsets' ∧
      Numbered w'.nOrderPosNext nOrderPosOffsets' (oldPos item.nOrderPos :: l) ∧
      nOrderPos.toInt = (number (oldPos item.nOrderPos) l : Nat) ∧
      ∀ i, w'.posOf i = if i = item.item then some nOrderPos else w.posOf i) ∧
    (2 ^ 63 ≤ behind (oldPos item.nOrderPos :: l) →
      reorderLoop db (item :: items) w nOrderPosOffsets = none) := by
  have hlt := h.behind_lt
  rw [behind_cons]
  by_cases hnew : item.nOrderPos = -1
  · have hold : oldPos item.nOrderPos = none := if_pos hnew
    rw [hold, number]
    obtain ⟨hstep, hstop⟩ := reorderLoop_insert hdb items h hnew hitem
    refine ⟨fun hfits => ?_, fun hover => hstop (by omega)⟩
    obtain ⟨w', hrun, hnumbered, hposOf⟩ := hstep (by omega)
    exact ⟨w', _, w.nOrderPosNext, hrun, hnumbered, h.next, hposOf⟩
  · have hold : oldPos item.nOrderPos = some item.nOrderPos.toInt.toNat := if_neg hnew
    rw [hold]
    obtain ⟨hstep, hstop⟩ :=
      reorderLoop_move hdb items h hnew (hpos.resolve_left hnew) hitem rfl
    refine ⟨fun hfits => ?_, fun hover => hstop (by omega)⟩
    obtain ⟨w', nOrderPos, hrun, hnumbered, hnumber, hposOf⟩ := hstep (by omega)
    exact ⟨w', nOrderPosOffsets, nOrderPos, hrun, hnumbered, hnumber, hposOf⟩

/-- All items: each one gets its number among those before it. -/
theorem reorderLoop_spec (hdb : db.Succeed) {items : List TxPair}
    (h : Numbered w.nOrderPosNext nOrderPosOffsets l)
    (hpos : ∀ item ∈ items, item.nOrderPos = -1 ∨ 0 ≤ item.nOrderPos.toInt)
    (hitems : ∀ item ∈ items, w.posOf item.item = some item.nOrderPos)
    (hnodup : (items.map TxPair.item).Nodup) :
    (behind ((items.map fun item => oldPos item.nOrderPos).reverse ++ l) < 2 ^ 63 →
      ∃ w', reorderLoop db items w nOrderPosOffsets = some (.DB_LOAD_OK, w') ∧
        w'.nOrderPosNext.toInt =
          (behind ((items.map fun item => oldPos item.nOrderPos).reverse ++ l) : Nat) ∧
        (∀ i ∉ items.map TxPair.item, w'.posOf i = w.posOf i) ∧
        ∀ before item after, items = before ++ item :: after → ∃ nOrderPos : Int64,
          w'.posOf item.item = some nOrderPos ∧ nOrderPos.toInt = (number (oldPos item.nOrderPos)
            ((before.map fun item => oldPos item.nOrderPos).reverse ++ l) : Nat)) ∧
    (2 ^ 63 ≤ behind ((items.map fun item => oldPos item.nOrderPos).reverse ++ l) →
      reorderLoop db items w nOrderPosOffsets = none) := by
  induction items generalizing w nOrderPosOffsets l with
  | nil =>
    refine ⟨fun _ => ⟨w, rfl, h.next, fun _ _ => rfl, ?_⟩, fun hover => ?_⟩
    · intro before item after heq
      exact absurd heq.symm (List.append_ne_nil_of_right_ne_nil before (List.cons_ne_nil item after))
    · exact absurd h.behind_lt (Nat.not_lt.mpr hover)
  | cons item items ih =>
    have happend : ((item :: items).map fun item => oldPos item.nOrderPos).reverse ++ l =
        (items.map fun item => oldPos item.nOrderPos).reverse ++ oldPos item.nOrderPos :: l := by simp
    rw [happend]
    obtain ⟨hstep, hstop⟩ := reorderLoop_cons hdb items h (hpos item List.mem_cons_self)
      (hitems item List.mem_cons_self)
    by_cases hfits : behind (oldPos item.nOrderPos :: l) < 2 ^ 63
    · obtain ⟨w₁, nOrderPosOffsets₁, nOrderPos, hrun, h₁, hnumber, hposOf⟩ := hstep hfits
      obtain ⟨hfresh, hnodup⟩ := List.nodup_cons.mp hnodup
      have hitems₁ : ∀ item' ∈ items, w₁.posOf item'.item = some item'.nOrderPos := by
        intro item' hitem'
        have hne : item'.item ≠ item.item :=
          fun heq => hfresh (heq ▸ List.mem_map_of_mem (f := TxPair.item) hitem')
        rw [hposOf, if_neg hne]
        exact hitems item' (List.mem_cons_of_mem item hitem')
      obtain ⟨hall, hover⟩ := ih h₁ (fun item' hitem' => hpos item' (List.mem_cons_of_mem item hitem'))
        hitems₁ hnodup
      rw [hrun]
      refine ⟨fun hend => ?_, hover⟩
      obtain ⟨w', hrun', hnext, hothers, hnumbers⟩ := hall hend
      refine ⟨w', hrun', hnext, ?_, ?_⟩
      · intro i hi
        obtain ⟨hne, hi⟩ := not_or.mp (mt List.mem_cons.mpr hi)
        rw [hothers i hi, hposOf, if_neg hne]
      · intro before item' after heq
        cases before with
        | nil =>
          obtain ⟨rfl, rfl⟩ := List.cons.inj heq
          refine ⟨nOrderPos, ?_, hnumber⟩
          rw [hothers _ hfresh, hposOf, if_pos rfl]
        | cons item₀ before =>
          obtain ⟨rfl, rfl⟩ := List.cons.inj heq
          obtain ⟨q, hq, hvalue⟩ := hnumbers before item' after rfl
          exact ⟨q, hq, by simpa using hvalue⟩
    · have hover := Nat.not_lt.mp hfits
      refine ⟨fun hend => absurd ?_ hfits, fun _ => hstop hover⟩
      exact Nat.lt_of_le_of_lt (behind_mono (List.suffix_append _ _)) hend

/-! ## The items by time -/

theorem mem_txByTime_wtx {hash : uint256} {pwtx : WalletFile.CWalletTx} :
    .wtx hash pwtx ∈ w.txByTime ↔ w.mapWallet[hash]? = some pwtx := by
  simp [txByTime, List.mem_insertionSort]

theorem mem_txByTime_acentry {pacentry : CAccountingEntry} :
    .acentry pacentry ∈ w.txByTime ↔ pacentry.strAccount = [] ∧
      w.acentries.records[acentryKey pacentry.strAccount pacentry.nEntryNo]? = some pacentry := by
  have hmem : .acentry pacentry ∈ w.txByTime ↔
      (∃ key : Text, w.acentries.records[key]? = some pacentry) ∧ pacentry.strAccount = [] := by
    simp [txByTime, List.mem_insertionSort, AcentryRecords.listAccountCreditDebit_nil]
  rw [hmem, and_comm]
  refine and_congr_right fun _ => ⟨?_, fun h => ⟨acentryKey _ _, h⟩⟩
  rintro ⟨key, h⟩
  obtain rfl := w.acentries.key_eq key pacentry h
  exact h

theorem posOf_of_mem (h : item ∈ w.txByTime) : w.posOf item.item = some item.nOrderPos := by
  cases item with
  | wtx hash pwtx => simp [posOf, TxPair.item, mem_txByTime_wtx.mp h, TxPair.nOrderPos]
  | acentry pacentry => simp [posOf, TxPair.item, (mem_txByTime_acentry.mp h).2, TxPair.nOrderPos]

theorem nodup_txByTime (w : OrderedWallet) : (w.txByTime.map TxPair.item).Nodup := by
  refine ((List.perm_insertionSort _ _).map TxPair.item).nodup_iff.mpr ?_
  rw [List.map_append, List.nodup_append, List.map_map, List.map_map]
  refine ⟨?_, ?_, ?_⟩
  · refine List.pairwise_map.mpr (ExtTreeMap.distinct_keys_toList.imp fun hne heq => hne ?_)
    exact Std.LawfulEqCmp.compare_eq_iff_eq.mpr (OrderedItem.wtx.inj heq)
  · rw [AcentryRecords.listAccountCreditDebit_nil]
    refine List.pairwise_map.mpr (List.Pairwise.filter _ (List.pairwise_map.mpr ?_))
    refine ExtTreeMap.distinct_keys_toList.imp_of_mem fun {r r'} hr hr' hne heq => hne ?_
    have hkey := w.acentries.key_eq _ _ (ExtTreeMap.mem_toList_iff_getElem?_eq_some.mp hr)
    have hkey' := w.acentries.key_eq _ _ (ExtTreeMap.mem_toList_iff_getElem?_eq_some.mp hr')
    rw [Std.LawfulEqCmp.compare_eq_iff_eq, hkey, hkey']
    exact OrderedItem.acentry.inj heq
  · intro i hi i' hi' heq
    obtain ⟨r, -, rfl⟩ := List.mem_map.mp hi
    obtain ⟨e, -, rfl⟩ := List.mem_map.mp hi'
    cases heq

theorem named_of_notMem {i : OrderedItem} (hi : i ∉ w.txByTime.map TxPair.item)
    (hp : w.posOf i = some nOrderPos) :
    ∃ key e, i = .acentry key ∧ w.acentries.records[key]? = some e ∧ e.strAccount ≠ [] ∧
      e.nOrderPos = nOrderPos := by
  cases i with
  | wtx hash =>
    obtain ⟨pwtx, hpwtx, -⟩ := Option.map_eq_some_iff.mp hp
    exact absurd (List.mem_map_of_mem (f := TxPair.item) (mem_txByTime_wtx.mpr hpwtx)) hi
  | acentry key =>
    obtain ⟨e, he, hpos⟩ := Option.map_eq_some_iff.mp hp
    refine ⟨key, e, rfl, he, fun hnil => hi ?_, hpos⟩
    obtain rfl := w.acentries.key_eq key e he
    exact List.mem_map_of_mem (f := TxPair.item) (mem_txByTime_acentry.mpr ⟨hnil, he⟩)

theorem notMem_of_named {key : Text} {e : CAccountingEntry} (he : w.acentries.records[key]? = some e)
    (hnamed : e.strAccount ≠ []) : .acentry key ∉ w.txByTime.map TxPair.item := by
  intro hmem
  obtain ⟨item, hitem, heq⟩ := List.mem_map.mp hmem
  cases item with
  | wtx hash pwtx => cases heq
  | acentry pacentry =>
    obtain ⟨hnil, hrecord⟩ := mem_txByTime_acentry.mp hitem
    obtain rfl := OrderedItem.acentry.inj heq
    rw [he] at hrecord
    exact hnamed (Option.some.inj hrecord ▸ hnil)

end OrderedWallet

end Terracoin
