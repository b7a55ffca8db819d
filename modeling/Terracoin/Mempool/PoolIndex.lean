import Terracoin.Mempool.Pool

/-!
# The index of the pool

`mapNextTx` has an entry for every input of the transactions of `mapTx` and no other. `addUnchecked`
keeps that as long as no output is spent twice, and `remove` keeps it when it is called for a
transaction of the pool. A recursive removal leaves no transaction behind without the parents that
it had in the pool (`Removed`).
-/

namespace Terracoin

namespace CTxMemPool

variable {pool pool' pool1 pool2 : CTxMemPool} {hash : uint256} {tx : CTransaction} {o : COutPoint}

/-! ## Entries -/

section Entries

variable {mapNextTx : COutPoint → Option CInPoint} {vin : List CTxIn} {n : Nat}

theorem addInputs_of_notMem (h : o ∉ vin.map CTxIn.prevout) :
    addInputs hash mapNextTx n vin o = mapNextTx o := by
  induction vin generalizing mapNextTx n with
  | nil => rfl
  | cons txin vin ih =>
    rw [List.map_cons, List.mem_cons, not_or] at h
    rw [addInputs, ih h.2, Function.update_of_ne h.1]

theorem addInputs_of_getElem? (hnodup : (vin.map CTxIn.prevout).Nodup) {i : Nat} {txin : CTxIn}
    (h : vin[i]? = some txin) :
    addInputs hash mapNextTx n vin txin.prevout = some ⟨hash, n + i⟩ := by
  induction vin generalizing mapNextTx n i with
  | nil => cases h
  | cons txin' vin ih =>
    rw [List.map_cons, List.nodup_cons] at hnodup
    cases i with
    | zero =>
      obtain rfl := Option.some.inj h
      rw [addInputs, addInputs_of_notMem hnodup.1, Function.update_self, Nat.add_zero]
    | succ i =>
      rw [List.getElem?_cons_succ] at h
      rw [addInputs, ih hnodup.2 h, Nat.add_right_comm, Nat.add_assoc]

theorem eraseInputs_of_notMem (h : o ∉ vin.map CTxIn.prevout) :
    eraseInputs mapNextTx vin o = mapNextTx o := by
  induction vin generalizing mapNextTx with
  | nil => rfl
  | cons txin vin ih =>
    rw [List.map_cons, List.mem_cons, not_or] at h
    change eraseInputs (Function.update mapNextTx txin.prevout none) vin o = _
    rw [ih h.2, Function.update_of_ne h.1]

theorem eraseInputs_of_mem (h : o ∈ vin.map CTxIn.prevout) :
    eraseInputs mapNextTx vin o = none := by
  induction vin generalizing mapNextTx with
  | nil => cases h
  | cons txin vin ih =>
    change eraseInputs (Function.update mapNextTx txin.prevout none) vin o = none
    by_cases hmem : o ∈ vin.map CTxIn.prevout
    · exact ih hmem
    · rw [List.map_cons] at h
      obtain rfl := (List.mem_cons.mp h).resolve_right hmem
      rw [eraseInputs_of_notMem hmem, Function.update_self]

theorem mapTx_addUnchecked_self : (pool.addUnchecked hash tx).mapTx hash = some tx :=
  Function.update_self _ _ _

theorem mapTx_addUnchecked_of_ne {hash' : uint256} (h : hash' ≠ hash) :
    (pool.addUnchecked hash tx).mapTx hash' = pool.mapTx hash' :=
  Function.update_of_ne h _ _

theorem mapTx_erase_self : (pool.erase hash tx).mapTx hash = none := Function.update_self _ _ _

theorem mapTx_erase_of_ne {hash' : uint256} (h : hash' ≠ hash) :
    (pool.erase hash tx).mapTx hash' = pool.mapTx hash' :=
  Function.update_of_ne h _ _

end Entries

section

variable [Hashing]

/-- The transactions are under their hashes, and `mapNextTx` has one entry for each of their inputs,
which leads back to the transaction and the input. -/
structure Indexed (pool : CTxMemPool) : Prop where
  hash : ∀ hash tx, pool.mapTx hash = some tx → tx.getHash = hash
  next_iff : ∀ o it, pool.mapNextTx o = some it ↔
    ∃ tx txin, pool.mapTx it.ptx = some tx ∧ tx.vin[it.n]? = some txin ∧ txin.prevout = o

namespace Indexed

theorem empty : CTxMemPool.empty.Indexed where
  hash _ _ h := by cases h
  next_iff o it := by
    constructor
    · intro h
      cases h
    · rintro ⟨tx, txin, h, -⟩
      cases h

theorem exists_next (h : pool.Indexed) (hmem : pool.mapTx hash = some tx) {txin : CTxIn}
    (htxin : txin ∈ tx.vin) : ∃ i, pool.mapNextTx txin.prevout = some ⟨hash, i⟩ := by
  obtain ⟨i, hi⟩ := List.mem_iff_getElem?.mp htxin
  exact ⟨i, (h.next_iff _ ⟨hash, i⟩).mpr ⟨tx, txin, hmem, hi, rfl⟩⟩

theorem hash_unique (h : pool.Indexed) {hash' : uint256} {tx' : CTransaction} {txin txin' : CTxIn}
    (hmem : pool.mapTx hash = some tx) (hmem' : pool.mapTx hash' = some tx') (htxin : txin ∈ tx.vin)
    (htxin' : txin' ∈ tx'.vin) (hprevout : txin.prevout = txin'.prevout) : hash = hash' := by
  obtain ⟨i, hi⟩ := h.exists_next hmem htxin
  obtain ⟨j, hj⟩ := h.exists_next hmem' htxin'
  rw [hprevout, hj, Option.some.injEq, CInPoint.mk.injEq] at hi
  exact hi.1.symm

theorem not_mem_vin (h : pool.Indexed) (hnone : pool.mapNextTx o = none)
    (hmem : pool.mapTx hash = some tx) {txin : CTxIn} (htxin : txin ∈ tx.vin) :
    txin.prevout ≠ o := by
  rintro rfl
  obtain ⟨i, hi⟩ := h.exists_next hmem htxin
  rw [hnone] at hi
  cases hi

theorem addUnchecked (h : pool.Indexed) (hnew : pool.mapTx tx.getHash = none)
    (hnodup : (tx.vin.map CTxIn.prevout).Nodup)
    (hfree : ∀ txin ∈ tx.vin, pool.mapNextTx txin.prevout = none) :
    (pool.addUnchecked tx.getHash tx).Indexed where
  hash hash tx' hmem := by
    by_cases heq : hash = tx.getHash
    · rw [heq, mapTx_addUnchecked_self, Option.some.injEq] at hmem
      rw [heq, hmem]
    · rw [mapTx_addUnchecked_of_ne heq] at hmem
      exact h.hash hash tx' hmem
  next_iff o it := by
    change addInputs tx.getHash pool.mapNextTx 0 tx.vin o = some it ↔ _
    by_cases ho : o ∈ tx.vin.map CTxIn.prevout
    · obtain ⟨txin, hmem, rfl⟩ := List.mem_map.mp ho
      obtain ⟨i, hi⟩ := List.mem_iff_getElem?.mp hmem
      rw [addInputs_of_getElem? hnodup hi, Nat.zero_add]
      constructor
      · intro hit
        obtain rfl := Option.some.inj hit
        exact ⟨tx, txin, mapTx_addUnchecked_self, hi, rfl⟩
      · rintro ⟨tx', txin', hmem', hn, hprevout⟩
        by_cases heq : it.ptx = tx.getHash
        · rw [heq, mapTx_addUnchecked_self, Option.some.injEq] at hmem'
          subst hmem'
          have hlt : i < (tx.vin.map CTxIn.prevout).length := by
            rw [List.length_map]
            exact (List.getElem?_eq_some_iff.mp hi).1
          have hsame : (tx.vin.map CTxIn.prevout)[i]? = (tx.vin.map CTxIn.prevout)[it.n]? := by
            rw [List.getElem?_map, List.getElem?_map, hi, hn, Option.map_some, Option.map_some,
              hprevout]
          rw [(List.getElem?_inj hlt hnodup).mp hsame, ← heq]
        · rw [mapTx_addUnchecked_of_ne heq] at hmem'
          have hnone := hfree txin hmem
          exact (h.not_mem_vin hnone hmem' (List.mem_of_getElem? hn) hprevout).elim
    · rw [addInputs_of_notMem ho, h.next_iff o it]
      constructor
      · rintro ⟨tx', txin', hmem', hn, hprevout⟩
        have hne : it.ptx ≠ tx.getHash := by
          intro heq
          rw [heq, hnew] at hmem'
          cases hmem'
        exact ⟨tx', txin', (mapTx_addUnchecked_of_ne hne).trans hmem', hn, hprevout⟩
      · rintro ⟨tx', txin', hmem', hn, hprevout⟩
        by_cases heq : it.ptx = tx.getHash
        · rw [heq, mapTx_addUnchecked_self, Option.some.injEq] at hmem'
          subst hmem'
          exact (ho (List.mem_map.mpr ⟨txin', List.mem_of_getElem? hn, hprevout⟩)).elim
        · rw [mapTx_addUnchecked_of_ne heq] at hmem'
          exact ⟨tx', txin', hmem', hn, hprevout⟩

theorem erase (h : pool.Indexed) (hmem : pool.mapTx tx.getHash = some tx) :
    (pool.erase tx.getHash tx).Indexed where
  hash hash tx' hmem' := by
    by_cases heq : hash = tx.getHash
    · rw [heq, mapTx_erase_self] at hmem'
      cases hmem'
    · rw [mapTx_erase_of_ne heq] at hmem'
      exact h.hash hash tx' hmem'
  next_iff o it := by
    change eraseInputs pool.mapNextTx tx.vin o = some it ↔ _
    by_cases ho : o ∈ tx.vin.map CTxIn.prevout
    · rw [eraseInputs_of_mem ho]
      constructor
      · intro hit
        cases hit
      · rintro ⟨tx', txin', hmem', hn, rfl⟩
        obtain ⟨txin, htxin, hprevout⟩ := List.mem_map.mp ho
        by_cases heq : it.ptx = tx.getHash
        · rw [heq, mapTx_erase_self] at hmem'
          cases hmem'
        · rw [mapTx_erase_of_ne heq] at hmem'
          exact (heq (h.hash_unique hmem hmem' htxin (List.mem_of_getElem? hn) hprevout).symm).elim
    · rw [eraseInputs_of_notMem ho, h.next_iff o it]
      constructor
      · rintro ⟨tx', txin', hmem', hn, rfl⟩
        have hne : it.ptx ≠ tx.getHash := by
          intro heq
          rw [heq, hmem, Option.some.injEq] at hmem'
          subst hmem'
          exact ho (List.mem_map_of_mem (List.mem_of_getElem? hn))
        exact ⟨tx', txin', (mapTx_erase_of_ne hne).trans hmem', hn, rfl⟩
      · rintro ⟨tx', txin', hmem', hn, hprevout⟩
        by_cases heq : it.ptx = tx.getHash
        · rw [heq, mapTx_erase_self] at hmem'
          cases hmem'
        · rw [mapTx_erase_of_ne heq] at hmem'
          exact ⟨tx', txin', hmem', hn, hprevout⟩

end Indexed

/-! ## Removal -/

/-- A smaller pool with a right index, in which no transaction has lost a parent that it had. -/
structure Removed (pool pool' : CTxMemPool) : Prop where
  indexed : pool'.Indexed
  sub : ∀ hash tx, pool'.mapTx hash = some tx → pool.mapTx hash = some tx
  parents : ∀ hash tx, pool'.mapTx hash = some tx → ∀ txin ∈ tx.vin, ∀ parent,
    pool.mapTx txin.prevout.hash = some parent → txin.prevout.n.toNat < parent.vout.length →
      pool'.mapTx txin.prevout.hash = some parent

namespace Removed

theorem refl (h : pool.Indexed) : Removed pool pool :=
  ⟨h, fun _ _ hmem => hmem, fun _ _ _ _ _ _ hparent _ => hparent⟩

theorem trans (h : Removed pool pool1) (h' : Removed pool1 pool2) : Removed pool pool2 where
  indexed := h'.indexed
  sub hash tx hmem := h.sub hash tx (h'.sub hash tx hmem)
  parents hash tx hmem txin htxin parent hparent hlt :=
    h'.parents hash tx hmem txin htxin parent
      (h.parents hash tx (h'.sub hash tx hmem) txin htxin parent hparent hlt) hlt

theorem mapTx_eq_none (h : Removed pool pool') (hnone : pool.mapTx hash = none) :
    pool'.mapTx hash = none := by
  cases hmem : pool'.mapTx hash with
  | none => rfl
  | some tx =>
    rw [h.sub hash tx hmem] at hnone
    cases hnone

theorem mapNextTx_eq_none (h : Removed pool pool') (hpool : pool.Indexed)
    (hnone : pool.mapNextTx o = none) : pool'.mapNextTx o = none := by
  cases hnext : pool'.mapNextTx o with
  | none => rfl
  | some it =>
    obtain ⟨tx, txin, hmem, hn, rfl⟩ := (h.indexed.next_iff o it).mp hnext
    exact (hpool.not_mem_vin hnone (h.sub _ _ hmem) (List.mem_of_getElem? hn) rfl).elim

theorem mapNextTx_of_gone (h : Removed pool pool') (hpool : pool.Indexed)
    (hmem : pool.mapTx hash = some tx) {txin : CTxIn} (htxin : txin ∈ tx.vin)
    (hgone : pool'.mapTx hash = none) : pool'.mapNextTx txin.prevout = none := by
  cases hnext : pool'.mapNextTx txin.prevout with
  | none => rfl
  | some it =>
    obtain ⟨tx', txin', hmem', hn, hprevout⟩ := (h.indexed.next_iff _ it).mp hnext
    have heq := hpool.hash_unique hmem (h.sub _ _ hmem') htxin (List.mem_of_getElem? hn)
      hprevout.symm
    rw [← heq, hgone] at hmem'
    cases hmem'

/-- The transaction itself may go when nothing spends its outputs any more. -/
theorem erase (h : Removed pool pool1) (hpool : pool.Indexed)
    (hmem : pool.mapTx tx.getHash = some tx)
    (hspent : ∀ i < tx.vout.length, pool1.mapNextTx ⟨tx.getHash, UInt32.ofNat i⟩ = none) :
    Removed pool (pool1.erase tx.getHash tx) := by
  cases hmem1 : pool1.mapTx tx.getHash with
  | none =>
    -- it has been removed on the way, and its inputs with it
    have hsame : pool1.erase tx.getHash tx = pool1 := by
      have htxs : Function.update pool1.mapTx tx.getHash none = pool1.mapTx := by
        rw [← hmem1, Function.update_eq_self]
      have hnext : eraseInputs pool1.mapNextTx tx.vin = pool1.mapNextTx := by
        funext o
        by_cases ho : o ∈ tx.vin.map CTxIn.prevout
        · obtain ⟨txin, htxin, rfl⟩ := List.mem_map.mp ho
          rw [eraseInputs_of_mem ho, h.mapNextTx_of_gone hpool hmem htxin hmem1]
        · exact eraseInputs_of_notMem ho
      rw [CTxMemPool.erase, htxs, hnext]
    rw [hsame]
    exact h
  | some tx1 =>
    obtain rfl : tx1 = tx := Option.some.inj ((h.sub _ _ hmem1).symm.trans hmem)
    refine ⟨h.indexed.erase hmem1, fun hash tx hmem' => ?_, fun hash tx hmem' => ?_⟩
    · by_cases heq : hash = tx1.getHash
      · rw [heq, mapTx_erase_self] at hmem'
        cases hmem'
      · exact h.sub hash tx ((mapTx_erase_of_ne heq).symm.trans hmem')
    · intro txin htxin parent hparent hlt
      have hmem1' : pool1.mapTx hash = some tx := by
        by_cases heq : hash = tx1.getHash
        · rw [heq, mapTx_erase_self] at hmem'
          cases hmem'
        · exact (mapTx_erase_of_ne heq).symm.trans hmem'
      have hparent1 := h.parents hash tx hmem1' txin htxin parent hparent hlt
      by_cases heq : txin.prevout.hash = tx1.getHash
      · rw [heq, hmem, Option.some.injEq] at hparent
        subst hparent
        have ho := hspent txin.prevout.n.toNat hlt
        rw [← heq, UInt32.ofNat_toNat] at ho
        exact (h.indexed.not_mem_vin ho hmem1' htxin rfl).elim
      · rw [mapTx_erase_of_ne heq]
        exact hparent1

end Removed

section Remove

variable {rm : CTxMemPool → CTransaction → Option CTxMemPool}

/-- What a way to remove a transaction of the pool does. -/
def Removes (rm : CTxMemPool → CTransaction → Option CTxMemPool) : Prop :=
  ∀ pool tx pool', pool.Indexed → pool.mapTx tx.getHash = some tx → rm pool tx = some pool' →
    Removed pool pool' ∧ pool'.mapTx tx.getHash = none

theorem removeSpender_spec (hrm : Removes rm) (hpool : pool.Indexed)
    (h : removeSpender rm pool o = some pool') :
    Removed pool pool' ∧ pool'.mapNextTx o = none := by
  unfold removeSpender at h
  split at h
  · obtain rfl := Option.some.inj h
    exact ⟨.refl hpool, ‹_›⟩
  · rename_i it hnext
    obtain ⟨tx, txin, hmem, hn, rfl⟩ := (hpool.next_iff o it).mp hnext
    rw [hmem, Option.bind_some] at h
    have hhash := hpool.hash _ _ hmem
    obtain ⟨hremoved, hgone⟩ := hrm pool tx pool' hpool (hhash ▸ hmem) h
    exact ⟨hremoved, hremoved.mapNextTx_of_gone hpool hmem (List.mem_of_getElem? hn) (hhash ▸ hgone)⟩

theorem removeSpenders_spec (hrm : Removes rm) {i n : Nat} (hpool : pool.Indexed)
    (h : removeSpenders rm hash pool i n = some pool') :
    Removed pool pool' ∧ ∀ j, i ≤ j → j < i + n →
      pool'.mapNextTx ⟨hash, UInt32.ofNat j⟩ = none := by
  induction n generalizing pool i with
  | zero =>
    obtain rfl := Option.some.inj h
    exact ⟨.refl hpool, fun j hle hlt => by omega⟩
  | succ n ih =>
    obtain ⟨pool1, h1, h2⟩ := Option.bind_eq_some_iff.mp h
    obtain ⟨hremoved1, hnone⟩ := removeSpender_spec hrm hpool h1
    obtain ⟨hremoved2, hrest⟩ := ih hremoved1.indexed h2
    refine ⟨hremoved1.trans hremoved2, fun j hle hlt => ?_⟩
    by_cases heq : j = i
    · rw [heq]
      exact hremoved2.mapNextTx_eq_none hremoved1.indexed hnone
    · exact hrest j (by omega) (by omega)

theorem remove_spec (fuel : Nat) : Removes fun pool tx => remove fuel pool tx true := by
  induction fuel with
  | zero =>
    intro pool tx pool' hpool hmem h
    cases h
  | succ fuel ih =>
    intro pool tx pool' hpool hmem h
    dsimp only at h
    rw [remove, hmem, Option.isNone_some, if_neg Bool.false_ne_true, cond_true] at h
    obtain ⟨pool1, hspenders, h⟩ := Option.bind_eq_some_iff.mp h
    obtain rfl := Option.some.inj h
    obtain ⟨hremoved, hspent⟩ := removeSpenders_spec ih hpool hspenders
    exact ⟨hremoved.erase hpool hmem fun i hi => hspent i (Nat.zero_le i) (by omega),
      mapTx_erase_self⟩

theorem remove_false {fuel : Nat} (h : remove fuel pool tx false = some pool') :
    pool' = if (pool.mapTx tx.getHash).isNone then pool else pool.erase tx.getHash tx := by
  cases fuel with
  | zero => cases h
  | succ fuel =>
    rw [remove, cond_false] at h
    split at h
    · rw [if_pos ‹_›]
      exact (Option.some.inj h).symm
    · rw [if_neg ‹_›]
      exact (Option.some.inj h).symm

theorem removeConflict_eq {fuel : Nat} (hpool : pool.Indexed) (hnone : pool.mapTx tx.getHash = none) :
    removeConflict fuel tx pool o =
      removeSpender (fun pool tx => remove fuel pool tx true) pool o := by
  rw [removeConflict, removeSpender, removeSpender]
  cases hnext : pool.mapNextTx o with
  | none => rfl
  | some it =>
    dsimp only
    obtain ⟨txConflict, txin, hmem, -⟩ := (hpool.next_iff o it).mp hnext
    have hne : txConflict ≠ tx := by
      rintro rfl
      rw [hpool.hash _ _ hmem, hmem] at hnone
      cases hnone
    rw [hmem, Option.bind_some, Option.bind_some, if_neg hne]

theorem removeConflict_spec {fuel : Nat} (hpool : pool.Indexed)
    (hnone : pool.mapTx tx.getHash = none) (h : removeConflict fuel tx pool o = some pool') :
    Removed pool pool' ∧ pool'.mapNextTx o = none := by
  rw [removeConflict_eq hpool hnone] at h
  exact removeSpender_spec (remove_spec fuel) hpool h

/-- After `removeConflicts` nothing in the pool spends what a transaction outside it spends. -/
theorem removeConflicts_spec {fuel : Nat} (hpool : pool.Indexed)
    (hnone : pool.mapTx tx.getHash = none) (h : removeConflicts fuel pool tx = some pool') :
    Removed pool pool' ∧ ∀ txin ∈ tx.vin, pool'.mapNextTx txin.prevout = none := by
  unfold removeConflicts at h
  have hloop : ∀ (vin : List CTxIn) (pool : CTxMemPool), pool.Indexed →
      pool.mapTx tx.getHash = none →
      vin.foldlM (fun pool txin => removeConflict fuel tx pool txin.prevout) pool = some pool' →
      Removed pool pool' ∧ ∀ txin ∈ vin, pool'.mapNextTx txin.prevout = none := by
    intro vin
    induction vin with
    | nil =>
      intro pool hpool hnone h
      obtain rfl := Option.some.inj h
      exact ⟨.refl hpool, nofun⟩
    | cons txin vin ih =>
      intro pool hpool hnone h
      rw [List.foldlM_cons] at h
      obtain ⟨pool1, h1, h2⟩ := Option.bind_eq_some_iff.mp h
      obtain ⟨hremoved1, hfree⟩ := removeConflict_spec hpool hnone h1
      obtain ⟨hremoved2, hrest⟩ := ih pool1 hremoved1.indexed (hremoved1.mapTx_eq_none hnone) h2
      refine ⟨hremoved1.trans hremoved2, List.forall_mem_cons.mpr ⟨?_, hrest⟩⟩
      exact hremoved2.mapNextTx_eq_none hremoved1.indexed hfree
  exact hloop tx.vin pool hpool hnone h

end Remove

/-! ## What removal leaves -/

section Retain

variable {K : CTransaction → Prop} {rm : CTxMemPool → CTransaction → Option CTxMemPool}

/-- What the pool has of the parents of transactions in `K` is in `K`. -/
def ClosedUp (K : CTransaction → Prop) (pool : CTxMemPool) : Prop :=
  ∀ hash tx, pool.mapTx hash = some tx → K tx → ∀ txin ∈ tx.vin, ∀ parent,
    pool.mapTx txin.prevout.hash = some parent → K parent

/-- The other pool still has the transactions in `K`. -/
def Retains (K : CTransaction → Prop) (pool pool' : CTxMemPool) : Prop :=
  ∀ hash tx, pool.mapTx hash = some tx → K tx → pool'.mapTx hash = some tx

omit [Hashing] in
theorem Retains.trans (h : Retains K pool pool1) (h' : Retains K pool1 pool2) :
    Retains K pool pool2 :=
  fun hash tx hmem hK => h' hash tx (h hash tx hmem hK) hK

omit [Hashing] in
theorem ClosedUp.of_sub (h : ClosedUp K pool)
    (hsub : ∀ hash tx, pool'.mapTx hash = some tx → pool.mapTx hash = some tx) :
    ClosedUp K pool' :=
  fun hash tx hmem hK txin htxin parent hparent =>
    h hash tx (hsub hash tx hmem) hK txin htxin parent (hsub _ _ hparent)

/-- A way to remove a transaction outside `K` that leaves those in `K`. -/
def RemovesOutside (K : CTransaction → Prop)
    (rm : CTxMemPool → CTransaction → Option CTxMemPool) : Prop :=
  ∀ pool tx pool', pool.Indexed → ClosedUp K pool → pool.mapTx tx.getHash = some tx → ¬ K tx →
    rm pool tx = some pool' → Retains K pool pool'

theorem removeSpender_retains (hrm : RemovesOutside K rm) (hpool : pool.Indexed)
    (hclosed : ClosedUp K pool)
    (hno : ∀ hash tx, pool.mapTx hash = some tx → K tx → ∀ txin ∈ tx.vin, txin.prevout ≠ o)
    (h : removeSpender rm pool o = some pool') : Retains K pool pool' := by
  unfold removeSpender at h
  split at h
  · obtain rfl := Option.some.inj h
    exact fun _ _ hmem _ => hmem
  · rename_i it hnext
    obtain ⟨tx, txin, hmem, hn, rfl⟩ := (hpool.next_iff o it).mp hnext
    rw [hmem, Option.bind_some] at h
    refine hrm pool tx pool' hpool hclosed ((hpool.hash _ _ hmem).symm ▸ hmem) (fun hK => ?_) h
    exact hno _ _ hmem hK txin (List.mem_of_getElem? hn) rfl

theorem removeSpenders_retains (hrm : Removes rm) (hout : RemovesOutside K rm) {i n : Nat}
    (hpool : pool.Indexed) (hclosed : ClosedUp K pool)
    (hno : ∀ hash' tx, pool.mapTx hash' = some tx → K tx → ∀ txin ∈ tx.vin,
      txin.prevout.hash ≠ hash)
    (h : removeSpenders rm hash pool i n = some pool') : Retains K pool pool' := by
  induction n generalizing pool i with
  | zero =>
    obtain rfl := Option.some.inj h
    exact fun _ _ hmem _ => hmem
  | succ n ih =>
    obtain ⟨pool1, h1, h2⟩ := Option.bind_eq_some_iff.mp h
    have hremoved := (removeSpender_spec hrm hpool h1).1
    refine (removeSpender_retains hout hpool hclosed (fun hash' tx hmem hK txin htxin heq => ?_) h1).trans
      (ih hremoved.indexed (hclosed.of_sub hremoved.sub) (fun hash' tx hmem => ?_) h2)
    · exact hno hash' tx hmem hK txin htxin (by rw [heq])
    · exact hno hash' tx (hremoved.sub hash' tx hmem)

/-- A recursive `remove` goes down to the spenders, and so never comes to a transaction in `K`. -/
theorem remove_retains (fuel : Nat) :
    RemovesOutside K fun pool tx => remove fuel pool tx true := by
  induction fuel with
  | zero =>
    intro pool tx pool' hpool hclosed hmem hK h
    cases h
  | succ fuel ih =>
    intro pool tx pool' hpool hclosed hmem hK h
    dsimp only at h
    rw [remove, hmem, Option.isNone_some, if_neg Bool.false_ne_true, cond_true] at h
    obtain ⟨pool1, hspenders, h⟩ := Option.bind_eq_some_iff.mp h
    obtain rfl := Option.some.inj h
    have hretains := removeSpenders_retains (remove_spec fuel) ih hpool hclosed
      (fun hash' tx' hmem' hK' txin htxin hhash => hK ?_) hspenders
    · intro hash' tx' hmem' hK'
      have hne : hash' ≠ tx.getHash := by
        rintro rfl
        rw [hmem, Option.some.injEq] at hmem'
        exact hK (hmem' ▸ hK')
      exact (mapTx_erase_of_ne hne).trans (hretains hash' tx' hmem' hK')
    · exact hclosed hash' tx' hmem' hK' txin htxin tx (hhash ▸ hmem)

/-- `removeConflicts` leaves the transactions in `K` when none of them spends what `tx` spends. -/
theorem removeConflicts_retains {fuel : Nat} (hpool : pool.Indexed) (hclosed : ClosedUp K pool)
    (hnone : pool.mapTx tx.getHash = none)
    (hno : ∀ hash tx', pool.mapTx hash = some tx' → K tx' → ∀ txin' ∈ tx'.vin, ∀ txin ∈ tx.vin,
      txin'.prevout ≠ txin.prevout)
    (h : removeConflicts fuel pool tx = some pool') : Retains K pool pool' := by
  unfold removeConflicts at h
  have hloop : ∀ (vin : List CTxIn) (pool : CTxMemPool), pool.Indexed → ClosedUp K pool →
      pool.mapTx tx.getHash = none →
      (∀ hash tx', pool.mapTx hash = some tx' → K tx' → ∀ txin' ∈ tx'.vin, ∀ txin ∈ vin,
        txin'.prevout ≠ txin.prevout) →
      vin.foldlM (fun pool txin => removeConflict fuel tx pool txin.prevout) pool = some pool' →
      Retains K pool pool' := by
    intro vin
    induction vin with
    | nil =>
      intro pool _ _ _ _ h
      obtain rfl := Option.some.inj h
      exact fun _ _ hmem _ => hmem
    | cons txin vin ih =>
      intro pool hpool hclosed hnone hno h
      rw [List.foldlM_cons] at h
      obtain ⟨pool1, h1, h2⟩ := Option.bind_eq_some_iff.mp h
      have hremoved := (removeConflict_spec hpool hnone h1).1
      have hfirst : Retains K pool pool1 := by
        rw [removeConflict_eq hpool hnone] at h1
        refine removeSpender_retains (remove_retains fuel) hpool hclosed ?_ h1
        exact fun hash tx' hmem hK txin' hin => hno hash tx' hmem hK txin' hin txin List.mem_cons_self
      refine hfirst.trans (ih pool1 hremoved.indexed (hclosed.of_sub hremoved.sub)
        (hremoved.mapTx_eq_none hnone) (fun hash tx' hmem hK txin' hin txin'' hmem'' => ?_) h2)
      exact hno hash tx' (hremoved.sub hash tx' hmem) hK txin' hin txin''
        (List.mem_cons_of_mem _ hmem'')
  exact hloop tx.vin pool hpool hclosed hnone hno h

end Retain

end

end CTxMemPool

end Terracoin
