import Mathlib.Combinatorics.SimpleGraph.Connectivity.Connected
import Mathlib.Data.Finset.Option
import Mathlib.Data.Finset.Sort
import Terracoin.Lib.Components
import Terracoin.Wallet.WalletTx

/-!
# Address groupings

`GetAddressGroupings` puts the addresses that a transaction spends from into one group with its
change, and merges the groups that overlap. The merged sets live on the heap: `setmap` points from
every address to the set that has it, and a set is deleted when it is merged into another. No pointer
to a deleted set is ever followed, and what is returned are the connected components of the graph of
the groups (`getAddressGroupings_spec`).
-/

namespace Terracoin

open Std (TreeMap)
open Overlap

/-! ## Merging -/

/-- The sets on the heap, `uniqueGroupings` and `setmap`. -/
structure Groupings where
  heap : Nat → Option (Finset CTxDestination)
  uniqueGroupings : Finset Nat
  setmap : CTxDestination → Option Nat

/-- `new` returns a pointer to none of the sets that there are. It may be one that was deleted. -/
structure Allocator where
  new : Finset Nat → Nat
  new_notMem : ∀ live, new live ∉ live

namespace Groupings

def start : Groupings := ⟨fun _ => none, ∅, fun _ => none⟩

/-- Merge all hit groups into a new single group and delete old groups. It is not defined to follow
a pointer to a deleted set. -/
def absorb (merged : Nat) : List Nat → Groupings → Option Groupings
  | [], st => some st
  | hit :: hits, st =>
    match st.heap merged, st.heap hit with
    | some m, some s =>
      absorb merged hits
        { st with
          heap := Function.update (Function.update st.heap merged (some (m ∪ s))) hit none
          uniqueGroupings := st.uniqueGroupings.erase hit }
    | _, _ => none

/-- The loop over `groupings`. -/
def mergeGrouping (alloc : Allocator) (st : Groupings) (grouping : Finset CTxDestination) :
    Option Groupings := do
  -- make a set of all the groups hit by this new group
  let hits := grouping.biUnion fun address => (st.setmap address).toFinset
  let merged := alloc.new st.uniqueGroupings
  let st ← absorb merged (hits.sort (· ≤ ·))
    { st with heap := Function.update st.heap merged (some grouping) }
  -- update setmap
  let m ← st.heap merged
  some { st with
    uniqueGroupings := insert merged st.uniqueGroupings
    setmap := fun element => if element ∈ m then some merged else st.setmap element }

def result (st : Groupings) : Option (Finset (Finset CTxDestination)) :=
  ((st.uniqueGroupings.sort (· ≤ ·)).mapM st.heap).map List.toFinset

/-- What the pointers point to: `uniqueGroupings` has the sets that are not deleted, `setmap` goes to
the set that has the address, and the sets are the components of the groups so far. -/
structure Inv (st : Groupings) (groups : List (Finset CTxDestination)) : Prop where
  live : ∀ p, p ∈ st.uniqueGroupings ↔ ∃ s, st.heap p = some s
  setmap : ∀ a p, st.setmap a = some p ↔ ∃ s, st.heap p = some s ∧ a ∈ s
  components : Components groups fun s => ∃ p, st.heap p = some s

theorem inv_start : Inv start [] where
  live p := by simp [start]
  setmap a p := by simp [start]
  components := by simpa [start] using components_nil

variable {st : Groupings} {groups : List (Finset CTxDestination)} {merged : Nat}

/-- Every set that is hit is put into the merged one and deleted; the others stay. -/
theorem absorb_spec {hits : List Nat} {m : Finset CTxDestination} (hm : st.heap merged = some m)
    (hnot : merged ∉ hits) (hnodup : hits.Nodup) (hlive : ∀ p ∈ hits, ∃ s, st.heap p = some s) :
    ∃ st' m', absorb merged hits st = some st' ∧ st'.setmap = st.setmap ∧
      st'.heap merged = some m' ∧
      (∀ x, x ∈ m' ↔ x ∈ m ∨ ∃ p ∈ hits, ∃ s, st.heap p = some s ∧ x ∈ s) ∧
      (∀ p, p ≠ merged → st'.heap p = if p ∈ hits then none else st.heap p) ∧
      ∀ p, p ∈ st'.uniqueGroupings ↔ p ∈ st.uniqueGroupings ∧ p ∉ hits := by
  induction hits generalizing st m with
  | nil => exact ⟨st, m, rfl, rfl, hm, by simp, by simp, by simp⟩
  | cons hit hits ih =>
    obtain ⟨hne, hnot⟩ : merged ≠ hit ∧ merged ∉ hits := by simpa using hnot
    obtain ⟨hfresh, hnodup⟩ := List.nodup_cons.mp hnodup
    obtain ⟨s, hs⟩ := hlive hit List.mem_cons_self
    let st₁ : Groupings :=
      { st with
        heap := Function.update (Function.update st.heap merged (some (m ∪ s))) hit none
        uniqueGroupings := st.uniqueGroupings.erase hit }
    -- The pointers that are still to come are not touched
    have hheap : ∀ p, p ≠ merged → p ≠ hit → st₁.heap p = st.heap p := by
      intro p hp hp'
      simp [st₁, Function.update_of_ne hp, Function.update_of_ne hp']
    have hrest : ∀ p ∈ hits, st₁.heap p = st.heap p :=
      fun p hp => hheap p (fun h => hnot (h ▸ hp)) fun h => hfresh (h ▸ hp)
    have hmerged : st₁.heap merged = some (m ∪ s) := by
      simp [st₁, Function.update_of_ne hne]
    have hhit : st₁.heap hit = none := by simp [st₁]
    obtain ⟨st', m', habsorb, hsetmap, hm', hmem, hothers, hunique⟩ :=
      ih hmerged hnot hnodup fun p hp => by
        rw [hrest p hp]
        exact hlive p (List.mem_cons_of_mem hit hp)
    refine ⟨st', m', by simpa [absorb, hm, hs] using habsorb, hsetmap, hm', ?_, ?_, ?_⟩
    · intro x
      have htail : (∃ p ∈ hits, ∃ s, st₁.heap p = some s ∧ x ∈ s) ↔
          ∃ p ∈ hits, ∃ s, st.heap p = some s ∧ x ∈ s := by
        constructor <;> rintro ⟨p, hp, h⟩
        · exact ⟨p, hp, hrest p hp ▸ h⟩
        · exact ⟨p, hp, (hrest p hp).symm ▸ h⟩
      rw [hmem x, htail]
      simp [hs, or_assoc]
    · intro p hp
      rw [hothers p hp]
      by_cases heq : p = hit
      · simp [heq, hhit]
      · simp [heq, hheap p hp heq]
    · intro p
      rw [hunique p]
      simp [st₁]
      tauto

theorem mergeGrouping_eq {alloc : Allocator} {grouping m : Finset CTxDestination} {st' : Groupings}
    (habsorb : absorb (alloc.new st.uniqueGroupings)
      ((grouping.biUnion fun address => (st.setmap address).toFinset).sort (· ≤ ·))
      { st with heap := Function.update st.heap (alloc.new st.uniqueGroupings) (some grouping) } =
        some st')
    (hm : st'.heap (alloc.new st.uniqueGroupings) = some m) :
    mergeGrouping alloc st grouping = some
      { st' with
        uniqueGroupings := insert (alloc.new st.uniqueGroupings) st'.uniqueGroupings
        setmap := fun element =>
          if element ∈ m then some (alloc.new st.uniqueGroupings) else st'.setmap element } := by
  simp [mergeGrouping, habsorb, hm]

/-- The merged set takes the place of those that it hit, and all of its addresses point to it. -/
theorem Inv.redirect (h : Inv st groups) {grouping m : Finset CTxDestination} {hits : Finset Nat}
    {st' : Groupings} (hne : grouping.Nonempty)
    (hits_iff : ∀ p, p ∈ hits ↔ ∃ s, st.heap p = some s ∧ ∃ y ∈ s, y ∈ grouping)
    (hfresh : ∀ p s, st.heap p = some s → p ≠ merged)
    (hm : ∀ x, x ∈ m ↔ x ∈ grouping ∨ ∃ p ∈ hits, ∃ s, st.heap p = some s ∧ x ∈ s)
    (hheap : ∀ p s, st'.heap p = some s ↔ p = merged ∧ s = m ∨ st.heap p = some s ∧ p ∉ hits)
    (hunique : ∀ p, p ∈ st'.uniqueGroupings ↔ p = merged ∨ p ∈ st.uniqueGroupings ∧ p ∉ hits)
    (hsetmap : ∀ a, st'.setmap a = if a ∈ m then some merged else st.setmap a) :
    Inv st' (grouping :: groups) where
  live p := by
    simp only [hunique p, h.live p, hheap]
    constructor
    · rintro (hp | ⟨⟨s, hs⟩, hp⟩)
      · exact ⟨m, .inl ⟨hp, rfl⟩⟩
      · exact ⟨s, .inr ⟨hs, hp⟩⟩
    · rintro ⟨s, ⟨hp, -⟩ | ⟨hs, hp⟩⟩
      · exact .inl hp
      · exact .inr ⟨⟨s, hs⟩, hp⟩
  setmap a p := by
    rw [hsetmap a]
    simp only [hheap]
    by_cases ha : a ∈ m
    · rw [if_pos ha]
      constructor
      · intro hp
        exact ⟨m, .inl ⟨(Option.some.inj hp).symm, rfl⟩, ha⟩
      · rintro ⟨s, ⟨rfl, -⟩ | ⟨hs, hp⟩, has⟩
        · rfl
        · -- A set that has the address is hit, by the group itself or as the set of the address
          refine absurd ?_ hp
          rcases (hm a).mp ha with hg | ⟨q, hq, s', hs', has'⟩
          · exact (hits_iff p).mpr ⟨s, hs, a, has, hg⟩
          · have hpq := ((h.setmap a p).mpr ⟨s, hs, has⟩).symm.trans ((h.setmap a q).mpr ⟨s', hs', has'⟩)
            exact Option.some.inj hpq ▸ hq
    · rw [if_neg ha, h.setmap a p]
      constructor
      · rintro ⟨s, hs, has⟩
        exact ⟨s, .inr ⟨hs, fun hp => ha ((hm a).mpr (.inr ⟨p, hp, s, hs, has⟩))⟩, has⟩
      · rintro ⟨s, ⟨-, rfl⟩ | ⟨hs, -⟩, has⟩
        · exact absurd has ha
        · exact ⟨s, hs, has⟩
  components := by
    have hmerge := h.components.merge (m := m) hne fun x => by
      rw [hm x]
      refine or_congr Iff.rfl ⟨?_, ?_⟩
      · rintro ⟨p, hp, s, hs, hx⟩
        obtain ⟨s', hs', hhit⟩ := (hits_iff p).mp hp
        obtain rfl := Option.some.inj (hs.symm.trans hs')
        exact ⟨s, ⟨p, hs⟩, hhit, hx⟩
      · rintro ⟨s, ⟨p, hs⟩, hhit, hx⟩
        exact ⟨p, (hits_iff p).mpr ⟨s, hs, hhit⟩, s, hs, hx⟩
    convert hmerge using 2 with s
    simp only [hheap]
    constructor
    · rintro ⟨p, ⟨-, hs⟩ | ⟨hs, hp⟩⟩
      · exact .inl hs
      · exact .inr ⟨⟨p, hs⟩, fun x hx hg => hp ((hits_iff p).mpr ⟨s, hs, x, hx, hg⟩)⟩
    · rintro (hs | ⟨⟨p, hs⟩, hnot⟩)
      · exact ⟨merged, .inl ⟨rfl, hs⟩⟩
      · refine ⟨p, .inr ⟨hs, fun hp => ?_⟩⟩
        obtain ⟨s', hs', x, hx, hg⟩ := (hits_iff p).mp hp
        obtain rfl := Option.some.inj (hs.symm.trans hs')
        exact hnot x hx hg

/-- One group more. -/
theorem Inv.mergeGrouping (h : Inv st groups) (alloc : Allocator) {grouping : Finset CTxDestination}
    (hne : grouping.Nonempty) :
    ∃ st', Groupings.mergeGrouping alloc st grouping = some st' ∧ Inv st' (grouping :: groups) := by
  let hits := grouping.biUnion fun address => (st.setmap address).toFinset
  let merged := alloc.new st.uniqueGroupings
  have hits_iff : ∀ p, p ∈ hits ↔ ∃ s, st.heap p = some s ∧ ∃ y ∈ s, y ∈ grouping := by
    intro p
    have hpointer : p ∈ hits ↔ ∃ a ∈ grouping, st.setmap a = some p := by simp [hits]
    rw [hpointer]
    constructor
    · rintro ⟨a, ha, hp⟩
      obtain ⟨s, hs, has⟩ := (h.setmap a p).mp hp
      exact ⟨s, hs, a, has, ha⟩
    · rintro ⟨s, hs, a, has, ha⟩
      exact ⟨a, ha, (h.setmap a p).mpr ⟨s, hs, has⟩⟩
  have hfresh : ∀ p s, st.heap p = some s → p ≠ merged := by
    rintro p s hs rfl
    exact alloc.new_notMem _ ((h.live _).mpr ⟨s, hs⟩)
  let st₁ := { st with heap := Function.update st.heap merged (some grouping) }
  have hheap : ∀ p, p ≠ merged → st₁.heap p = st.heap p :=
    fun p hp => by simp [st₁, Function.update_of_ne hp]
  have hhit : ∀ p ∈ hits, p ≠ merged := by
    intro p hp
    obtain ⟨s, hs, -⟩ := (hits_iff p).mp hp
    exact hfresh p s hs
  have hstart : st₁.heap merged = some grouping := by simp [st₁]
  have hnot : merged ∉ hits.sort (· ≤ ·) := fun hp => hhit merged (by simpa using hp) rfl
  obtain ⟨st', m, habsorb, hsetmap, hm, hmem, hothers, hunique⟩ :=
    absorb_spec hstart hnot (hits.sort_nodup _) fun p hp => by
      have hp : p ∈ hits := by simpa using hp
      obtain ⟨s, hs, -⟩ := (hits_iff p).mp hp
      exact ⟨s, (hheap p (hhit p hp)).trans hs⟩
  simp only [Finset.mem_sort] at hmem hothers hunique
  have hpointer : ∀ p s, st'.heap p = some s ↔
      p = merged ∧ s = m ∨ st.heap p = some s ∧ p ∉ hits := by
    intro p s
    by_cases hp : p = merged
    · have hold : st.heap merged ≠ some s := fun hs => hfresh merged s hs rfl
      simp [hp, hm, hold, eq_comm]
    · rw [hothers p hp, hheap p hp]
      by_cases hp' : p ∈ hits <;> simp [hp, hp']
  -- The merged set has the group with the sets that it hits
  have hm_iff : ∀ x, x ∈ m ↔ x ∈ grouping ∨ ∃ p ∈ hits, ∃ s, st.heap p = some s ∧ x ∈ s := by
    intro x
    rw [hmem x]
    refine or_congr Iff.rfl (exists_congr fun p => and_congr_right fun hp => ?_)
    rw [hheap p (hhit p hp)]
  refine ⟨_, mergeGrouping_eq habsorb hm, h.redirect hne hits_iff hfresh hm_iff hpointer ?_ ?_⟩
  · intro p
    simp [hunique p, st₁, merged]
  · intro a
    simp [hsetmap, st₁, merged]

theorem Inv.foldlM (h : Inv st groups) (alloc : Allocator) {gs : List (Finset CTxDestination)}
    (hne : ∀ g ∈ gs, g.Nonempty) :
    ∃ st', gs.foldlM (Groupings.mergeGrouping alloc) st = some st' ∧ Inv st' (gs.reverse ++ groups) := by
  induction gs generalizing st groups with
  | nil => exact ⟨st, rfl, h⟩
  | cons g gs ih =>
    obtain ⟨st₁, hst₁, h₁⟩ := h.mergeGrouping alloc (hne g List.mem_cons_self)
    obtain ⟨st', hst', h'⟩ := ih h₁ fun g' hg' => hne g' (List.mem_cons_of_mem g hg')
    refine ⟨st', by simpa [hst₁] using hst', ?_⟩
    simpa using h'

/-- None of the pointers that are left is to a deleted set. -/
theorem Inv.result (h : Inv st groups) :
    ∃ ret, st.result = some ret ∧ ∀ s, s ∈ ret ↔ ∃ p, st.heap p = some s := by
  have hread : ∀ ps : List Nat, (∀ p ∈ ps, ∃ s, st.heap p = some s) →
      ∃ ss, ps.mapM st.heap = some ss ∧ ∀ s, s ∈ ss ↔ ∃ p ∈ ps, st.heap p = some s := by
    intro ps hps
    induction ps with
    | nil => exact ⟨[], rfl, by simp⟩
    | cons p ps ih =>
      obtain ⟨s, hs⟩ := hps p List.mem_cons_self
      obtain ⟨ss, hss, hmem⟩ := ih fun q hq => hps q (List.mem_cons_of_mem p hq)
      refine ⟨s :: ss, by simp [hs, hss], fun x => ?_⟩
      simp [hmem, hs, eq_comm]
  obtain ⟨ss, hss, hmem⟩ := hread (st.uniqueGroupings.sort (· ≤ ·)) fun p hp =>
    (h.live p).mp (by simpa using hp)
  refine ⟨ss.toFinset, by simp [Groupings.result, hss], fun s => ?_⟩
  rw [List.mem_toFinset, hmem s]
  constructor
  · rintro ⟨p, -, hs⟩
    exact ⟨p, hs⟩
  · rintro ⟨p, hs⟩
    exact ⟨p, by simpa using (h.live p).mpr ⟨s, hs⟩, hs⟩

end Groupings

/-! ## `GetAddressGroupings` -/

/-- The order of the groups in a `std::set`. -/
structure GroupOrder where
  order : Finset (Finset CTxDestination) → List (Finset CTxDestination)
  mem_order : ∀ groupings g, g ∈ order groupings ↔ g ∈ groupings

namespace WalletState

variable [EllipticCurve] [ByteHashing160]

/-- The address that an input spends from, if it is mine. -/
def spentAddress (w : WalletState) (txin : CTxIn) : Option CTxDestination := do
  let txout ← w.prevOut txin
  if w.isMine txout then extractDestination txout.scriptPubKey else none

def changeAddress (w : WalletState) (txout : CTxOut) : Option CTxDestination :=
  if w.isChange txout then extractDestination txout.scriptPubKey else none

/-- The address of an output, if it is mine. -/
def ownAddress (w : WalletState) (txout : CTxOut) : Option CTxDestination :=
  if w.isMine txout then extractDestination txout.scriptPubKey else none

/-- The input addresses, with the change. -/
def inputGrouping (w : WalletState) (tx : CTransaction) : Finset CTxDestination :=
  let inputs := tx.vin.filterMap w.spentAddress
  let any_mine := !inputs.isEmpty
  (inputs ++ if any_mine then tx.vout.filterMap w.changeAddress else []).toFinset

def addGroupings (w : WalletState) (groupings : Finset (Finset CTxDestination)) (tx : CTransaction) :
    Finset (Finset CTxDestination) :=
  let grouping := w.inputGrouping tx
  let groupings := if 0 < grouping.card then insert grouping groupings else groupings
  -- group lone addrs by themselves
  (tx.vout.filterMap w.ownAddress).foldl (fun groupings address => insert {address} groupings) groupings

def groupings (w : WalletState) : Finset (Finset CTxDestination) :=
  w.mapWallet.toList.foldl (fun groupings p => w.addGroupings groupings p.2.tx) ∅

/-- `GetAddressGroupings`, unless it follows a pointer to a deleted set. -/
def getAddressGroupings (w : WalletState) (alloc : Allocator) (order : GroupOrder) :
    Option (Finset (Finset CTxDestination)) := do
  let st ← (order.order w.groupings).foldlM (Groupings.mergeGrouping alloc) .start
  st.result

/-! ## The graph of the addresses -/

/-- The address of an own output, of a spent input, or of change. Change is what comes back from a
transaction that spends an output of the wallet. -/
def IsGrouped (w : WalletState) (a : CTxDestination) : Prop :=
  ∃ p ∈ w.mapWallet.toList,
    (∃ txout ∈ p.2.tx.vout, w.ownAddress txout = some a) ∨
    (∃ txin ∈ p.2.tx.vin, w.spentAddress txin = some a) ∨
    (∃ txin ∈ p.2.tx.vin, (w.spentAddress txin).isSome) ∧
      ∃ txout ∈ p.2.tx.vout, w.changeAddress txout = some a

/-- Addresses that occur together in the inputs and change of a transaction. -/
def addressGraph (w : WalletState) : SimpleGraph {a // w.IsGrouped a} where
  Adj a b := a ≠ b ∧
    ∃ p ∈ w.mapWallet.toList, a.1 ∈ w.inputGrouping p.2.tx ∧ b.1 ∈ w.inputGrouping p.2.tx
  symm := ⟨fun _ _ ⟨hne, p, hp, ha, hb⟩ => ⟨hne.symm, p, hp, hb, ha⟩⟩
  loopless := ⟨fun _ h => h.1 rfl⟩

variable {w : WalletState} {a b : CTxDestination}

theorem mem_inputGrouping {tx : CTransaction} :
    a ∈ w.inputGrouping tx ↔
      (∃ txin ∈ tx.vin, w.spentAddress txin = some a) ∨
      (∃ txin ∈ tx.vin, (w.spentAddress txin).isSome) ∧
        ∃ txout ∈ tx.vout, w.changeAddress txout = some a := by
  have hany : (!(tx.vin.filterMap w.spentAddress).isEmpty) = true ↔
      ∃ txin ∈ tx.vin, (w.spentAddress txin).isSome := by
    simp [Option.isSome_iff_ne_none]
  by_cases h : ∃ txin ∈ tx.vin, (w.spentAddress txin).isSome
  · simp [inputGrouping, hany.mpr h, h]
  · have hno : ∀ txin ∈ tx.vin, w.spentAddress txin ≠ some a :=
      fun txin hin heq => h ⟨txin, hin, by simp [heq]⟩
    simp [inputGrouping, h, mt hany.mp h]

theorem mem_addGroupings {groupings : Finset (Finset CTxDestination)} {tx : CTransaction}
    {g : Finset CTxDestination} :
    g ∈ w.addGroupings groupings tx ↔
      g ∈ groupings ∨ (g = w.inputGrouping tx ∧ g.Nonempty) ∨
        ∃ txout ∈ tx.vout, ∃ a, w.ownAddress txout = some a ∧ g = {a} := by
  have hlone : ∀ (as : List CTxDestination) (gs : Finset (Finset CTxDestination)),
      g ∈ as.foldl (fun groupings address => insert {address} groupings) gs ↔
        g ∈ gs ∨ ∃ a ∈ as, g = {a} := by
    intro as
    induction as with
    | nil => simp
    | cons a as ih =>
      intro gs
      simp only [List.foldl_cons, ih, Finset.mem_insert, List.exists_mem_cons_iff]
      tauto
  have hgroup : g ∈ (if 0 < (w.inputGrouping tx).card then insert (w.inputGrouping tx) groupings
      else groupings) ↔ g ∈ groupings ∨ (g = w.inputGrouping tx ∧ g.Nonempty) := by
    split_ifs with hcard
    · have hne := Finset.card_pos.mp hcard
      rw [Finset.mem_insert, or_comm]
      exact or_congr Iff.rfl ⟨fun h => ⟨h, h ▸ hne⟩, And.left⟩
    · refine (or_iff_left ?_).symm
      rintro ⟨rfl, hg⟩
      exact hcard (Finset.card_pos.mpr hg)
  have hown : (∃ a ∈ tx.vout.filterMap w.ownAddress, g = {a}) ↔
      ∃ txout ∈ tx.vout, ∃ a, w.ownAddress txout = some a ∧ g = {a} := by
    constructor
    · rintro ⟨a, ha, hg⟩
      obtain ⟨txout, hout, ha⟩ := List.mem_filterMap.mp ha
      exact ⟨txout, hout, a, ha, hg⟩
    · rintro ⟨txout, hout, a, ha, hg⟩
      exact ⟨a, List.mem_filterMap.mpr ⟨txout, hout, ha⟩, hg⟩
  rw [addGroupings, hlone, hgroup, hown, or_assoc]

theorem mem_groupings {g : Finset CTxDestination} :
    g ∈ w.groupings ↔ ∃ p ∈ w.mapWallet.toList,
      (g = w.inputGrouping p.2.tx ∧ g.Nonempty) ∨
        ∃ txout ∈ p.2.tx.vout, ∃ a, w.ownAddress txout = some a ∧ g = {a} := by
  have hfold : ∀ (ps : List (uint256 × CWalletTx)) (gs : Finset (Finset CTxDestination)),
      g ∈ ps.foldl (fun groupings p => w.addGroupings groupings p.2.tx) gs ↔
        g ∈ gs ∨ ∃ p ∈ ps, (g = w.inputGrouping p.2.tx ∧ g.Nonempty) ∨
          ∃ txout ∈ p.2.tx.vout, ∃ a, w.ownAddress txout = some a ∧ g = {a} := by
    intro ps
    induction ps with
    | nil => simp
    | cons p ps ih =>
      intro gs
      rw [List.foldl_cons, ih, mem_addGroupings, List.exists_mem_cons_iff, or_assoc]
  rw [groupings, hfold, or_iff_right (Finset.notMem_empty g)]

theorem nonempty_of_mem_groupings {g : Finset CTxDestination} (h : g ∈ w.groupings) : g.Nonempty := by
  obtain ⟨p, -, ⟨-, hne⟩ | ⟨txout, -, a, -, rfl⟩⟩ := mem_groupings.mp h
  · exact hne
  · exact Finset.singleton_nonempty a

theorem isGrouped_iff : w.IsGrouped a ↔ ∃ g ∈ w.groupings, a ∈ g := by
  constructor
  · rintro ⟨p, hp, ⟨txout, hout, ha⟩ | hin⟩
    · exact ⟨{a}, mem_groupings.mpr ⟨p, hp, .inr ⟨txout, hout, a, ha, rfl⟩⟩, Finset.mem_singleton_self a⟩
    · have ha : a ∈ w.inputGrouping p.2.tx := mem_inputGrouping.mpr hin
      exact ⟨_, mem_groupings.mpr ⟨p, hp, .inl ⟨rfl, a, ha⟩⟩, ha⟩
  · rintro ⟨g, hg, ha⟩
    obtain ⟨p, hp, ⟨rfl, -⟩ | ⟨txout, hout, b, hb, rfl⟩⟩ := mem_groupings.mp hg
    · exact ⟨p, hp, .inr (mem_inputGrouping.mp ha)⟩
    · obtain rfl := Finset.mem_singleton.mp ha
      exact ⟨p, hp, .inl ⟨txout, hout, hb⟩⟩

/-- A lone address adds no edge. -/
theorem connected_iff {groups : List (Finset CTxDestination)}
    (hgroups : ∀ g, g ∈ groups ↔ g ∈ w.groupings) (ha : w.IsGrouped a) :
    Linked groups a b ↔ ∃ hb : w.IsGrouped b, w.addressGraph.Reachable ⟨a, ha⟩ ⟨b, hb⟩ := by
  constructor
  · intro h
    induction h with
    | refl => exact ⟨ha, .refl _⟩
    | @tail b c _ hstep ih =>
      obtain ⟨hb, hreach⟩ := ih
      obtain ⟨g, hg, hbg, hcg⟩ := hstep
      have hg := (hgroups g).mp hg
      have hc : w.IsGrouped c := isGrouped_iff.mpr ⟨g, hg, hcg⟩
      refine ⟨hc, hreach.trans ?_⟩
      by_cases hbc : b = c
      · subst hbc
        exact .refl _
      · obtain ⟨p, hp, ⟨rfl, -⟩ | ⟨txout, -, d, -, rfl⟩⟩ := mem_groupings.mp hg
        · have hadj : w.addressGraph.Adj ⟨b, hb⟩ ⟨c, hc⟩ :=
            ⟨fun h => hbc (congrArg Subtype.val h), p, hp, hbg, hcg⟩
          exact hadj.reachable
        · exact absurd ((Finset.mem_singleton.mp hbg).trans (Finset.mem_singleton.mp hcg).symm) hbc
  · rintro ⟨hb, hreach⟩
    rw [SimpleGraph.reachable_iff_reflTransGen] at hreach
    refine hreach.lift Subtype.val fun x y hxy => ?_
    obtain ⟨-, p, hp, hx, hy⟩ := hxy
    exact ⟨_, (hgroups _).mpr (mem_groupings.mpr ⟨p, hp, .inl ⟨rfl, _, hx⟩⟩), hx, hy⟩

theorem exists_supp_of_components {groups : List (Finset CTxDestination)}
    {sets : Finset CTxDestination → Prop} (hgroups : ∀ g, g ∈ groups ↔ g ∈ w.groupings)
    (h : Components groups sets) {s : Finset CTxDestination} (hs : sets s) (hmem : a ∈ s)
    (ha : w.IsGrouped a) :
    (s : Set CTxDestination) = Subtype.val '' (w.addressGraph.connectedComponentMk ⟨a, ha⟩).supp := by
  ext b
  rw [Finset.mem_coe, h.connected s hs a hmem b, connected_iff hgroups ha]
  constructor
  · rintro ⟨hb, hreach⟩
    exact ⟨⟨b, hb⟩, SimpleGraph.ConnectedComponent.sound hreach.symm, rfl⟩
  · rintro ⟨⟨b, hb⟩, hmem, rfl⟩
    exact ⟨hb, (SimpleGraph.ConnectedComponent.exact hmem).symm⟩

/-- What is returned are the connected components of the graph of the addresses. -/
theorem getAddressGroupings_spec (w : WalletState) (alloc : Allocator) (order : GroupOrder) :
    ∃ ret, w.getAddressGroupings alloc order = some ret ∧
      (∀ s : Finset CTxDestination, s ∈ ret ↔
        ∃ c : w.addressGraph.ConnectedComponent, (s : Set CTxDestination) = Subtype.val '' c.supp) ∧
      (∀ s ∈ ret, ∀ s' ∈ ret, s ≠ s' → Disjoint s s') ∧
      ∀ a, w.IsGrouped a ↔ ∃ s ∈ ret, a ∈ s := by
  have horder := order.mem_order w.groupings
  have hne : ∀ g ∈ order.order w.groupings, g.Nonempty :=
    fun g hg => nonempty_of_mem_groupings ((horder g).mp hg)
  obtain ⟨st, hst, hinv⟩ := Groupings.inv_start.foldlM alloc hne
  obtain ⟨ret, hret, hmem⟩ := hinv.result
  have hgroups : ∀ g, g ∈ (order.order w.groupings).reverse ++ [] ↔ g ∈ w.groupings := by
    intro g
    simpa using horder g
  have hcomponents := hinv.components
  have hcover : ∀ a, w.IsGrouped a ↔ ∃ s ∈ ret, a ∈ s := by
    intro a
    simp only [hmem, isGrouped_iff, ← hcomponents.cover a, hgroups]
  refine ⟨ret, by simp [getAddressGroupings, hst, hret], fun s => ⟨?_, ?_⟩, ?_, hcover⟩
  · intro hs
    obtain ⟨a, ha⟩ := hcomponents.nonempty s ((hmem s).mp hs)
    exact ⟨_, exists_supp_of_components hgroups hcomponents ((hmem s).mp hs) ha
      ((hcover a).mpr ⟨s, hs, ha⟩)⟩
  · rintro ⟨c, hc⟩
    obtain ⟨⟨a, ha⟩, rfl⟩ := c.exists_rep
    obtain ⟨s', hs', has'⟩ := (hcover a).mp ha
    have hsupp := exists_supp_of_components hgroups hcomponents ((hmem s').mp hs') has' ha
    rwa [Finset.coe_injective (hc.trans hsupp.symm)]
  · intro s hs s' hs' hne
    refine Finset.disjoint_left.mpr fun a ha ha' => hne ?_
    exact hcomponents.eq_of_mem ((hmem s).mp hs) ((hmem s').mp hs') ha ha'

end WalletState

end Terracoin
