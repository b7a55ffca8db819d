import Terracoin.Wallet.ReorderTransactions

/-!
# When the order is kept

The offsets of `ReorderTransactions` are positions of the new order, but they are compared with
positions of the old one, so that an item can be moved by less than what was put in before it, and
onto one that was put in; and only the entries of the account "" are read. `reorderTransactions_iff`
follows both through the loop. If the old positions are apart, every item is moved by all that was put
in before it or by nothing, and the order is kept exactly if the positions of the entries that are not
read stay free (`reorderTransactions_of_apart`).
-/

namespace Terracoin

open Std (ExtTreeMap)
open Renumber

namespace OrderedWallet

variable {db : WalletDBWrites} {w : OrderedWallet} {item : TxPair} {nOrderPos : Int64}
  {l : List (Option Nat)}

/-! ## When the order is kept -/

/-- The positions before, the latest item first. -/
def oldOrder (w : OrderedWallet) : List (Option Nat) :=
  (w.txByTime.map fun item => oldPos item.nOrderPos).reverse

structure PositionsDistinct (w : OrderedWallet) : Prop where
  valid : ∀ i p, w.posOf i = some p → p = -1 ∨ 0 ≤ p
  distinct : ∀ i j p, w.posOf i = some p → w.posOf j = some p → p ≠ -1 → i = j

/-- Every item has a position of its own below the next one, and those that had one before are in the
same order. -/
structure Reordered (w w' : OrderedWallet) : Prop where
  items : ∀ i, (w'.posOf i).isSome = (w.posOf i).isSome
  bounded : ∀ i p, w'.posOf i = some p → 0 ≤ p ∧ p < w'.nOrderPosNext
  distinct : ∀ i j p, w'.posOf i = some p → w'.posOf j = some p → i = j
  ordered : ∀ i j p q p' q', w.posOf i = some p → w.posOf j = some q → p ≠ -1 → q ≠ -1 → p < q →
    w'.posOf i = some p' → w'.posOf j = some q' → p' < q'

/-- The old positions do not collide. -/
structure Reorderable (w : OrderedWallet) : Prop where
  clear : Clear w.oldOrder
  named : ∀ (key : Text) e, w.acentries.records[key]? = some e → e.strAccount ≠ [] →
    ∃ n, oldPos e.nOrderPos = some n ∧ Outside w.oldOrder n
  fits : behind w.oldOrder < 2 ^ 63

/-- The items that are listed have their numbers, and the others are as they were. -/
structure NumberedBy (w w' : OrderedWallet) : Prop where
  next : w'.nOrderPosNext.toInt = (behind w.oldOrder : Nat)
  others : ∀ i ∉ w.txByTime.map TxPair.item, w'.posOf i = w.posOf i
  numbers : ∀ before item after, w.txByTime = before ++ item :: after → ∃ nOrderPos : Int64,
    w'.posOf item.item = some nOrderPos ∧ nOrderPos.toInt = (number (oldPos item.nOrderPos)
      (before.map fun item => oldPos item.nOrderPos).reverse : Nat)

theorem PositionsDistinct.valid_toInt (hw : w.PositionsDistinct) {i : OrderedItem} {p : Int64}
    (hp : w.posOf i = some p) : p = -1 ∨ 0 ≤ p.toInt :=
  (hw.valid i p hp).imp_right Int64.le_iff_toInt_le.mp

theorem reorderTransactions_spec (hdb : db.Succeed) (hw : w.PositionsDistinct) :
    (behind w.oldOrder < 2 ^ 63 →
      ∃ w', reorderTransactions db w = some (.DB_LOAD_OK, w') ∧ NumberedBy w w') ∧
    (2 ^ 63 ≤ behind w.oldOrder → reorderTransactions db w = none) := by
  have hstart : Numbered 0 [] [] := ⟨rfl, rfl⟩
  obtain ⟨hrun, hover⟩ := reorderLoop_spec (w := { w with nOrderPosNext := 0 }) hdb hstart
    (fun item hitem => hw.valid_toInt (posOf_of_mem hitem)) (fun item hitem => posOf_of_mem hitem)
    w.nodup_txByTime
  rw [List.append_nil] at hrun hover
  refine ⟨fun hfits => ?_, hover⟩
  obtain ⟨w', hw', hnext, hothers, hnumbers⟩ := hrun hfits
  refine ⟨w', hw', hnext, hothers, fun before item after heq => ?_⟩
  obtain ⟨q, hq, hvalue⟩ := hnumbers before item after heq
  exact ⟨q, hq, by simpa using hvalue⟩

theorem suffix_oldOrder {before after : List TxPair} (h : w.txByTime = before ++ item :: after) :
    oldPos item.nOrderPos :: (before.map fun item => oldPos item.nOrderPos).reverse <:+ w.oldOrder := by
  rw [oldOrder, h]
  simp

theorem exists_split {x : Option Nat} (h : x :: l <:+ w.oldOrder) :
    ∃ before item after, w.txByTime = before ++ item :: after ∧ oldPos item.nOrderPos = x ∧
      (before.map fun item => oldPos item.nOrderPos).reverse = l := by
  obtain ⟨t, ht⟩ := h
  have hmap := congrArg List.reverse ht.symm
  rw [oldOrder, List.reverse_reverse, List.reverse_append, List.reverse_cons, List.append_assoc] at hmap
  obtain ⟨before, rest, hsplit, hbefore, hrest⟩ := List.map_eq_append_iff.mp hmap
  obtain ⟨item, after, rfl, hitem, -⟩ := List.map_eq_cons_iff.mp hrest
  exact ⟨before, item, after, hsplit, hitem, by rw [hbefore, List.reverse_reverse]⟩

theorem toInt_of_oldPos {p : Int64} {n : Nat} (h : oldPos p = some n) (hp : p = -1 ∨ 0 ≤ p.toInt) :
    p ≠ -1 ∧ p.toInt = n := by
  rw [oldPos] at h
  split at h
  · cases h
  · next hne =>
    have hn := Option.some.inj h
    have hp := hp.resolve_left hne
    exact ⟨hne, by omega⟩

theorem oldPos_of_ne {p : Int64} (hne : p ≠ -1) (hp : p = -1 ∨ 0 ≤ p.toInt) :
    ∃ n : Nat, oldPos p = some n ∧ p.toInt = n := by
  have hp := hp.resolve_left hne
  exact ⟨p.toInt.toNat, if_neg hne, by omega⟩

theorem PositionsDistinct.eq_of_oldPos (hw : w.PositionsDistinct) {i j : OrderedItem} {p q : Int64}
    {n : Nat} (hp : w.posOf i = some p) (hq : w.posOf j = some q) (hpn : oldPos p = some n)
    (hqn : oldPos q = some n) : i = j := by
  obtain ⟨hne, hpn⟩ := toInt_of_oldPos hpn (hw.valid_toInt hp)
  obtain ⟨-, hqn⟩ := toInt_of_oldPos hqn (hw.valid_toInt hq)
  obtain rfl := Int64.toInt_inj.mp (hpn.trans hqn.symm)
  exact hw.distinct i j p hp hq hne

variable {w' : OrderedWallet} {i j : OrderedItem} {p q p' q' : Int64}

theorem NumberedBy.cases (h : NumberedBy w w') (hq : w'.posOf i = some q) :
    (∃ before item after, w.txByTime = before ++ item :: after ∧ i = item.item ∧
      w.posOf i = some item.nOrderPos ∧ q.toInt = (number (oldPos item.nOrderPos)
        (before.map fun item => oldPos item.nOrderPos).reverse : Nat)) ∨
    (i ∉ w.txByTime.map TxPair.item ∧ w.posOf i = some q) := by
  by_cases hi : i ∈ w.txByTime.map TxPair.item
  · obtain ⟨item, hitem, rfl⟩ := List.mem_map.mp hi
    obtain ⟨before, after, hsplit⟩ := List.append_of_mem hitem
    obtain ⟨q', hq', hvalue⟩ := h.numbers before item after hsplit
    obtain rfl := Option.some.inj (hq.symm.trans hq')
    exact .inl ⟨before, item, after, hsplit, rfl, posOf_of_mem hitem, hvalue⟩
  · exact .inr ⟨hi, (h.others i hi).symm.trans hq⟩

theorem Reorderable.outside (h : w.Reorderable) (hw : w.PositionsDistinct)
    (hi : i ∉ w.txByTime.map TxPair.item) (hq : w.posOf i = some q) :
    ∃ n : Nat, oldPos q = some n ∧ q.toInt = n ∧ Outside w.oldOrder n := by
  obtain ⟨key, e, rfl, he, hnamed, rfl⟩ := named_of_notMem hi hq
  obtain ⟨n, hn, houtside⟩ := h.named key e he hnamed
  exact ⟨n, hn, (toInt_of_oldPos hn (hw.valid_toInt hq)).2, houtside⟩

theorem NumberedBy.number_ne (hw : w.PositionsDistinct) (hclear : Clear w.oldOrder)
    {before before' after after' : List TxPair} {item item' : TxPair}
    (hsplit : w.txByTime = before ++ item :: after)
    (hsplit' : w.txByTime = before' ++ item' :: after') (hne : item.item ≠ item'.item) :
    number (oldPos item.nOrderPos) (before.map fun item => oldPos item.nOrderPos).reverse ≠
      number (oldPos item'.nOrderPos) (before'.map fun item => oldPos item.nOrderPos).reverse := by
  have hx := suffix_oldOrder hsplit
  have hy := suffix_oldOrder hsplit'
  have hpos : w.posOf item.item = some item.nOrderPos := posOf_of_mem (by simp [hsplit])
  have hpos' : w.posOf item'.item = some item'.nOrderPos := posOf_of_mem (by simp [hsplit'])
  rcases suffix_cases hx hy with heq | hearlier | hlater
  · -- In the same place
    have hlength : before.length = before'.length := by simpa using congrArg List.length heq
    obtain ⟨-, hrest⟩ := List.append_inj (hsplit.symm.trans hsplit') hlength
    exact absurd (congrArg TxPair.item (List.cons.inj hrest).1) hne
  · exact Renumber.number_ne hclear hx hearlier fun n hn hn' =>
      hne (hw.eq_of_oldPos hpos hpos' hn hn')
  · exact (Renumber.number_ne hclear hy hlater fun n hn hn' =>
      hne (hw.eq_of_oldPos hpos hpos' hn' hn)).symm

theorem Reorderable.number_ne (h : w.Reorderable) (hw : w.PositionsDistinct)
    {before after : List TxPair} (hsplit : w.txByTime = before ++ item :: after)
    (hi : i ∉ w.txByTime.map TxPair.item) (hq : w.posOf i = some q) :
    q.toInt ≠ (number (oldPos item.nOrderPos)
      (before.map fun item => oldPos item.nOrderPos).reverse : Nat) := by
  obtain ⟨n, hn, hvalue, houtside⟩ := h.outside hw hi hq
  have hmem : item ∈ w.txByTime := by simp [hsplit]
  have hne : oldPos item.nOrderPos ≠ some n := fun heq =>
    hi (hw.eq_of_oldPos hq (posOf_of_mem hmem) hn heq ▸ List.mem_map_of_mem hmem)
  have hnumber := houtside.number_ne (suffix_oldOrder hsplit) hne
  omega

theorem Reorderable.distinct (h : w.Reorderable) (hw : w.PositionsDistinct) (hn : NumberedBy w w')
    (hi : w'.posOf i = some p) (hj : w'.posOf j = some p) : i = j := by
  rcases hn.cases hi with ⟨before, item, after, hsplit, rfl, -, hvalue⟩ | ⟨hi, hpi⟩ <;>
    rcases hn.cases hj with ⟨before', item', after', hsplit', rfl, -, hvalue'⟩ | ⟨hj, hpj⟩
  · by_contra hne
    have hnumber := NumberedBy.number_ne hw h.clear hsplit hsplit' hne
    omega
  · exact absurd hvalue (h.number_ne hw hsplit hj hpj)
  · exact absurd hvalue' (h.number_ne hw hsplit' hi hpi)
  · obtain ⟨n, hn, -⟩ := h.outside hw hi hpi
    exact hw.eq_of_oldPos hpi hpj hn hn

theorem Reorderable.bounded (h : w.Reorderable) (hw : w.PositionsDistinct) (hn : NumberedBy w w')
    (hi : w'.posOf i = some p) : 0 ≤ p ∧ p < w'.nOrderPosNext := by
  rw [Int64.le_iff_toInt_le, Int64.lt_iff_toInt_lt, hn.next]
  change 0 ≤ p.toInt ∧ _
  rcases hn.cases hi with ⟨before, item, after, hsplit, -, -, hvalue⟩ | ⟨hi, hpi⟩
  · have hlt := number_lt_behind (suffix_oldOrder hsplit)
    omega
  · obtain ⟨n, -, hvalue, houtside⟩ := h.outside hw hi hpi
    have hlt := houtside.lt
    omega

theorem NumberedBy.moved (h : NumberedBy w w') (hw : w.PositionsDistinct) (hp : w.posOf i = some p)
    (hne : p ≠ -1) (hp' : w'.posOf i = some p') :
    ∃ n : Nat, oldPos p = some n ∧ p.toInt = n ∧
      (some n ∈ w.oldOrder ∧ p'.toInt = (n + shift w.oldOrder n : Nat) ∨
        i ∉ w.txByTime.map TxPair.item ∧ p' = p) := by
  obtain ⟨n, hn, hvalue⟩ := oldPos_of_ne hne (hw.valid_toInt hp)
  refine ⟨n, hn, hvalue, ?_⟩
  rcases h.cases hp' with ⟨before, item, after, hsplit, -, hpi, hnumber⟩ | ⟨hi, hpi⟩
  · obtain rfl := Option.some.inj (hp.symm.trans hpi)
    have hsuffix := suffix_oldOrder hsplit
    rw [hn] at hsuffix hnumber
    rw [number_some hsuffix] at hnumber
    exact .inl ⟨mem_of_suffix hsuffix, hnumber⟩
  · exact .inr ⟨hi, Option.some.inj (hpi.symm.trans hp)⟩

theorem Reorderable.ordered (h : w.Reorderable) (hw : w.PositionsDistinct) (hn : NumberedBy w w')
    (hp : w.posOf i = some p) (hq : w.posOf j = some q) (hpne : p ≠ -1) (hqne : q ≠ -1) (hlt : p < q)
    (hp' : w'.posOf i = some p') (hq' : w'.posOf j = some q') : p' < q' := by
  obtain ⟨n, hpn, hn_eq, hi⟩ := hn.moved hw hp hpne hp'
  obtain ⟨m, hqm, hm_eq, hj⟩ := hn.moved hw hq hqne hq'
  rw [Int64.lt_iff_toInt_lt] at hlt ⊢
  have hnm : n < m := by omega
  rcases hi with ⟨hmem, hvalue⟩ | ⟨hi, rfl⟩ <;> rcases hj with ⟨hmem', hvalue'⟩ | ⟨hj, rfl⟩
  · have hshift := add_shift_lt (l := w.oldOrder) hnm
    omega
  · -- What is not listed must be behind what is moved towards it
    obtain ⟨m', hm', -, houtside⟩ := h.outside hw hj hq
    obtain rfl := Option.some.inj (hqm.symm.trans hm')
    have habove := houtside.above n hmem hnm
    omega
  · omega
  · exact hlt

theorem Reorderable.reordered (h : w.Reorderable) (hw : w.PositionsDistinct) (hn : NumberedBy w w') :
    Reordered w w' where
  items i := by
    by_cases hi : i ∈ w.txByTime.map TxPair.item
    · obtain ⟨item, hitem, rfl⟩ := List.mem_map.mp hi
      obtain ⟨before, after, hsplit⟩ := List.append_of_mem hitem
      obtain ⟨q, hq, -⟩ := hn.numbers before item after hsplit
      rw [hq, posOf_of_mem hitem]
      rfl
    · rw [hn.others i hi]
  bounded _ _ := h.bounded hw hn
  distinct _ _ _ := h.distinct hw hn
  ordered _ _ _ _ _ _ hp hq hpne hqne hlt := h.ordered hw hn hp hq hpne hqne hlt

theorem NumberedBy.exists_item (h : NumberedBy w w') {x : Option Nat} (hx : x :: l <:+ w.oldOrder) :
    ∃ item q, item ∈ w.txByTime ∧ oldPos item.nOrderPos = x ∧ w'.posOf item.item = some q ∧
      q.toInt = (number x l : Nat) := by
  obtain ⟨before, item, after, hsplit, rfl, rfl⟩ := exists_split hx
  obtain ⟨q, hq, hvalue⟩ := h.numbers before item after hsplit
  exact ⟨item, q, by simp [hsplit], rfl, hq, hvalue⟩

theorem Reordered.clear (h : Reordered w w') (hn : NumberedBy w w') : Clear w.oldOrder := by
  intro n hmem hstart
  obtain ⟨l₁, l₂, h₁, h₂, heq⟩ := exists_number_eq hmem hstart
  obtain ⟨item, q, hitem, hold, hq, hvalue⟩ := hn.exists_item h₁
  obtain ⟨item', q', hitem', hold', hq', hvalue'⟩ := hn.exists_item h₂
  rw [heq] at hvalue
  obtain rfl := Int64.toInt_inj.mp (hvalue.trans hvalue'.symm)
  -- One has a position and the other does not
  have hsame := posOf_of_mem hitem
  rw [h.distinct _ _ _ hq hq', posOf_of_mem hitem'] at hsame
  rw [← Option.some.inj hsame, hold'] at hold
  cases hold

theorem Reordered.outside (h : Reordered w w') (hw : w.PositionsDistinct) (hn : NumberedBy w w')
    (hi : i ∉ w.txByTime.map TxPair.item) (hp : w.posOf i = some p) :
    ∃ n : Nat, oldPos p = some n ∧ Outside w.oldOrder n := by
  have hp' := (hn.others i hi).trans hp
  obtain ⟨hzero, hend⟩ := h.bounded i p hp'
  have hne : p ≠ -1 := by
    rintro rfl
    exact absurd hzero (by decide)
  obtain ⟨n, hold, hvalue⟩ := oldPos_of_ne hne (hw.valid_toInt hp)
  rw [Int64.lt_iff_toInt_lt, hn.next] at hend
  have hlisted : ∀ item ∈ w.txByTime, i ≠ item.item :=
    fun item hitem heq => hi (heq ▸ List.mem_map_of_mem hitem)
  refine ⟨n, hold, by omega, fun hstart => ?_, fun m hmem hlt => ?_⟩
  · obtain ⟨l₁, h₁, heq⟩ := mem_starts.mp hstart
    obtain ⟨item, q, hitem, -, hq, hnumber⟩ := hn.exists_item h₁
    rw [number, ← heq, ← hvalue] at hnumber
    obtain rfl := Int64.toInt_inj.mp hnumber
    exact hlisted item hitem (h.distinct i _ q hp' hq)
  · obtain ⟨t, l₁, hl₁⟩ := List.append_of_mem hmem
    have h₁ : some m :: l₁ <:+ w.oldOrder := ⟨t, hl₁.symm⟩
    obtain ⟨item, q, hitem, hitem_old, hq, hnumber⟩ := hn.exists_item h₁
    rw [number_some h₁] at hnumber
    have hitem_pos := posOf_of_mem hitem
    obtain ⟨hitem_ne, hitem_value⟩ := toInt_of_oldPos hitem_old (hw.valid_toInt hitem_pos)
    have hbefore : item.nOrderPos < p := Int64.lt_iff_toInt_lt.mpr (by omega)
    have hafter := h.ordered _ i _ _ q p hitem_pos hp hitem_ne hne hbefore hq hp'
    rw [Int64.lt_iff_toInt_lt] at hafter
    omega

theorem Reordered.reorderable (h : Reordered w w') (hw : w.PositionsDistinct) (hn : NumberedBy w w')
    (hfits : behind w.oldOrder < 2 ^ 63) : w.Reorderable where
  clear := h.clear hn
  named key e he hnamed := h.outside hw hn (notMem_of_named he hnamed) (by simp [posOf, he])
  fits := hfits

/-- `ReorderTransactions` is correct exactly if the old positions do not collide. -/
theorem reorderTransactions_iff (hdb : db.Succeed) (hw : w.PositionsDistinct) :
    (∃ w', reorderTransactions db w = some (.DB_LOAD_OK, w') ∧ Reordered w w') ↔ w.Reorderable := by
  obtain ⟨hrun, hover⟩ := reorderTransactions_spec hdb hw
  constructor
  · rintro ⟨w', hw', h⟩
    have hfits : behind w.oldOrder < 2 ^ 63 := by
      refine Nat.lt_of_not_le fun hle => ?_
      rw [hover hle] at hw'
      cases hw'
    obtain ⟨w₁, hw₁, hn⟩ := hrun hfits
    obtain rfl := (Prod.mk.inj (Option.some.inj (hw'.symm.trans hw₁))).2
    exact h.reorderable hw hn hfits
  · intro h
    obtain ⟨w', hw', hn⟩ := hrun h.fits
    exact ⟨w', hw', h.reordered hw hn⟩

/-! ## Positions that are apart -/

/-- Every entry of a named account has a position, in a place of its own. -/
def NamedKept (w : OrderedWallet) : Prop :=
  ∀ (key : Text) e, w.acentries.records[key]? = some e → e.strAccount ≠ [] →
    ∃ n, oldPos e.nOrderPos = some n ∧ Renumber.Kept w.oldOrder n

theorem reorderable_iff (happart : Apart w.oldOrder) :
    w.Reorderable ↔ w.NamedKept ∧ top w.oldOrder + w.oldOrder.count none < 2 ^ 63 := by
  have hbehind := behind_of_apart happart w.oldOrder List.suffix_rfl
  constructor
  · intro h
    refine ⟨fun key e he hnamed => ?_, hbehind ▸ h.fits⟩
    obtain ⟨n, hn, hout⟩ := h.named key e he hnamed
    exact ⟨n, hn, (outside_iff_kept happart).mp hout⟩
  · rintro ⟨hnamed, hfits⟩
    refine ⟨clear_of_apart happart, fun key e he hne => ?_, by rwa [hbehind]⟩
    obtain ⟨n, hn, hkept⟩ := hnamed key e he hne
    exact ⟨n, hn, (outside_iff_kept happart).mpr hkept⟩

/-- Where each old position is smaller than an earlier one, or above the earlier ones by as much as is
put in before it, `ReorderTransactions` is correct exactly if every entry of a named account has a
position that stays free, and the last position is an `int64`. -/
theorem reorderTransactions_of_apart (hdb : db.Succeed) (hw : w.PositionsDistinct)
    (happart : Apart w.oldOrder) :
    (∃ w', reorderTransactions db w = some (.DB_LOAD_OK, w') ∧ Reordered w w') ↔
      w.NamedKept ∧ top w.oldOrder + w.oldOrder.count none < 2 ^ 63 :=
  (reorderTransactions_iff hdb hw).trans (reorderable_iff happart)

end OrderedWallet

namespace ReorderSample

open OrderedWallet

def acentry (nTime nOrderPos : Int64) (nEntryNo : UInt64) : CAccountingEntry where
  strAccount := []
  nCreditDebit := 1
  nTime
  strOtherAccount := [98]
  strComment := []
  mapValue := ∅
  nOrderPos
  nEntryNo
  ssExtra := []

def records : List CAccountingEntry → AcentryRecords
  | [] => ⟨∅, by simp⟩
  | e :: acentries => (records acentries).write e.nEntryNo e

def wallet (acentries : List CAccountingEntry) : OrderedWallet := ⟨∅, 0, records acentries⟩

def allWritten : WalletDBWrites := ⟨fun _ => true, fun _ _ => true⟩

theorem mem_of_records {acentries : List CAccountingEntry} {key : Text} {e : CAccountingEntry}
    (h : (records acentries).records[key]? = some e) : e ∈ acentries := by
  induction acentries with
  | nil => simp [records] at h
  | cons e' acentries ih =>
    rw [records, AcentryRecords.write, ExtTreeMap.getElem?_insert] at h
    split at h
    · rw [← Option.some.inj h]
      exact List.mem_cons_self
    · exact List.mem_cons_of_mem e' (ih h)

theorem positionsDistinct {acentries : List CAccountingEntry}
    (hvalid : ∀ e ∈ acentries, e.nOrderPos = -1 ∨ 0 ≤ e.nOrderPos)
    (hdistinct : ∀ e ∈ acentries, ∀ e' ∈ acentries, e.nOrderPos = e'.nOrderPos → e.nOrderPos ≠ -1 →
      acentryKey e.strAccount e.nEntryNo = acentryKey e'.strAccount e'.nEntryNo) :
    (wallet acentries).PositionsDistinct := by
  have hread : ∀ i p, (wallet acentries).posOf i = some p → ∃ e ∈ acentries,
      i = .acentry (acentryKey e.strAccount e.nEntryNo) ∧ e.nOrderPos = p := by
    intro i p hp
    cases i with
    | wtx hash => simp [posOf, wallet] at hp
    | acentry key =>
      obtain ⟨e, he, hpos⟩ := Option.map_eq_some_iff.mp hp
      exact ⟨e, mem_of_records he, congrArg _ ((records acentries).key_eq key e he), hpos⟩
  constructor
  · intro i p hp
    obtain ⟨e, he, -, rfl⟩ := hread i p hp
    exact hvalid e he
  · intro i j p hi hj hne
    obtain ⟨e, he, rfl, rfl⟩ := hread i p hi
    obtain ⟨e', he', rfl, heq⟩ := hread j _ hj
    exact congrArg _ (hdistinct e he e' he' heq.symm hne)

/-- An entry without a position, a later one with, and one of a named account in between. -/
def apart : OrderedWallet :=
  wallet [acentry 1 (-1) 1, acentry 2 5 2, { acentry 3 3 3 with strAccount := [97] }]

theorem reorderTransactions_of_apart_sample :
    ∃ w', reorderTransactions allWritten apart = some (.DB_LOAD_OK, w') ∧ Reordered apart w' := by
  have horder : apart.oldOrder = [some 5, none] := by decide +kernel
  have hdistinct : apart.PositionsDistinct := positionsDistinct (by decide) (by decide)
  have hnone : ∀ l₁ : List (Option Nat), none :: l₁ <:+ [some 5, none] → l₁ = [] := by
    intro l₁ h
    simpa [List.suffix_cons_iff] using h
  have happart : Apart apart.oldOrder := by
    rw [horder]
    intro l₁ l₂ p h₁ h₂
    obtain rfl := hnone l₂ (h₂.trans ((List.suffix_cons _ _).trans h₁))
    exact .inr (Nat.zero_le p)
  refine (reorderTransactions_of_apart ⟨fun _ => rfl, fun _ _ => rfl⟩ hdistinct happart).mpr
    ⟨fun key e he hnamed => ⟨3, ?_, ?_⟩, by rw [horder]; decide⟩
  · have hall : ∀ e ∈ [acentry 1 (-1) 1, acentry 2 5 2, { acentry 3 3 3 with strAccount := [97] }],
        e.strAccount ≠ [] → oldPos e.nOrderPos = some 3 := by decide
    exact hall e (mem_of_records he) hnamed
  · rw [horder]
    refine ⟨by decide, fun l₁ h => ?_, fun p hp hlt => ?_⟩
    · rw [hnone l₁ h]
      decide
    · obtain rfl : p = 5 := by simpa using hp
      exact absurd hlt (by decide)

/-- Two entries without a position, and a later one with the first position. -/
def crowded : OrderedWallet := wallet [acentry 1 (-1) 1, acentry 2 (-1) 2, acentry 3 0 3]

/-- The later entry is moved by one, onto the second one. -/
theorem not_reordered :
    allWritten.Succeed ∧ crowded.PositionsDistinct ∧
      ¬ ∃ w', reorderTransactions allWritten crowded = some (.DB_LOAD_OK, w') ∧
        Reordered crowded w' := by
  refine ⟨⟨fun _ => rfl, fun _ _ => rfl⟩, positionsDistinct (by decide) (by decide), ?_⟩
  rintro ⟨w', hw', h⟩
  have hread : (reorderTransactions allWritten crowded).map (fun r =>
      (r.2.posOf (.acentry (acentryKey [] 2)), r.2.posOf (.acentry (acentryKey [] 3)))) =
      some (some 1, some 1) := by
    decide +kernel
  rw [hw'] at hread
  obtain ⟨hsecond, hthird⟩ := Prod.mk.inj (Option.some.inj hread)
  exact absurd (h.distinct _ _ _ hsecond hthird) (by decide +kernel)

end ReorderSample

end Terracoin
