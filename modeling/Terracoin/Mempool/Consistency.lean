import Terracoin.Mempool.PoolIndex
import Terracoin.Validation.Unspent

/-!
# The memory pool fits the coins

`Consistent` relates the pool and `*pcoinsTip`: a right index, no transaction of the pool among the
coins, and for every input an available output of the coins or an output of another transaction of
the pool. `accept` keeps it, and `Grown` is what any number of accepted transactions do.

`SetBestChain` connects blocks and then removes their transactions from the pool, with everything
in conflict with them. That loop is followed next to the loop that connects the blocks: `Waiting` is
what holds when part of the transactions have been connected in the one and removed in the other.
-/

namespace Terracoin

namespace CTxMemPool

variable {pool pool' pool1 pool2 : CTxMemPool} {coins V V1 V' : CoinsView} {tx : CTransaction}
  {o : COutPoint} {rest : List CTransaction}

/-! ## Consistency -/

/-- A transaction of the pool has the output. -/
def Provides (pool : CTxMemPool) (o : COutPoint) : Prop :=
  ∃ parent, pool.mapTx o.hash = some parent ∧ o.n.toNat < parent.vout.length

theorem Provides.addUnchecked {hash : uint256} (h : pool.Provides o)
    (hnew : pool.mapTx hash = none) : (pool.addUnchecked hash tx).Provides o := by
  obtain ⟨parent, hparent, hlt⟩ := h
  refine ⟨parent, ?_, hlt⟩
  rw [mapTx_addUnchecked_of_ne, hparent]
  rintro rfl
  rw [hnew] at hparent
  cases hparent

variable [Hashing]

/-- The pool fits the coins. -/
structure Consistent (pool : CTxMemPool) (coins : CoinsView) : Prop extends pool.Indexed where
  unrecorded : ∀ hash tx, pool.mapTx hash = some tx → (coins.coinsAt hash).isPruned = true
  inputs : ∀ hash tx, pool.mapTx hash = some tx → ∀ txin ∈ tx.vin,
    coins.Unspent txin.prevout ∨ txin.prevout.hash ≠ hash ∧ pool.Provides txin.prevout

theorem consistent_of_forall_none (hpool : pool.Indexed) (h : ∀ hash, pool.mapTx hash = none) :
    pool.Consistent coins where
  toIndexed := hpool
  unrecorded hash tx hmem := by rw [h hash] at hmem; cases hmem
  inputs hash tx hmem := by rw [h hash] at hmem; cases hmem

/-- What an accepted transaction spends is there, in the coins or in the pool. -/
theorem Acceptable.inputs (h : Acceptable pool coins tx) : ∀ txin ∈ tx.vin,
    coins.Unspent txin.prevout ∨
      txin.prevout.hash ≠ tx.getHash ∧ pool.Provides txin.prevout := by
  intro txin hmem
  obtain ⟨out, hout⟩ := CTransaction.haveInput_iff.mp (h.haveInputs txin hmem)
  rw [CoinsView.coinsAt, view] at hout
  dsimp only at hout
  cases hcoins : coins.coins txin.prevout.hash with
  | some c =>
    rw [hcoins, Option.some_or, Option.getD_some] at hout
    refine .inl ⟨out, ?_⟩
    rw [CoinsView.coinsAt, hcoins, Option.getD_some]
    exact hout
  | none =>
    rw [hcoins, Option.none_or] at hout
    cases hparent : pool.mapTx txin.prevout.hash with
    | none =>
      rw [hparent] at hout
      cases hout
    | some parent =>
      rw [hparent, Option.map_some, Option.getD_some, CCoins.output_eq_some] at hout
      refine .inr ⟨fun heq => ?_, parent, hparent, (List.getElem?_eq_some_iff.mp hout.1).1⟩
      rw [heq, h.notInPool] at hparent
      cases hparent

theorem Acceptable.indexed (h : Acceptable pool coins tx) (hpool : pool.Indexed) :
    (pool.addUnchecked tx.getHash tx).Indexed :=
  hpool.addUnchecked h.notInPool h.checked.prevout_nodup h.noConflict

/-! ## Putting transactions back -/

/-- A pool with more transactions. The new ones were accepted with the given coins. -/
structure Grown (pool : CTxMemPool) (coins : CoinsView) (pool' : CTxMemPool) : Prop where
  indexed : pool'.Indexed
  sub : ∀ hash tx, pool.mapTx hash = some tx → pool'.mapTx hash = some tx
  new : ∀ hash tx, pool'.mapTx hash = some tx → pool.mapTx hash = some tx ∨
    coins.coins hash = none ∧ ∀ txin ∈ tx.vin,
      coins.Unspent txin.prevout ∨ txin.prevout.hash ≠ hash ∧ pool'.Provides txin.prevout

theorem Grown.refl (h : pool.Indexed) : Grown pool coins pool :=
  ⟨h, fun _ _ hmem => hmem, fun _ _ hmem => .inl hmem⟩

theorem Grown.of_acceptable (hpool : pool.Indexed) (ha : Acceptable pool coins tx) :
    Grown pool coins (pool.addUnchecked tx.getHash tx) := by
  refine ⟨ha.indexed hpool, fun hash tx' hmem => ?_, fun hash tx' hmem => ?_⟩
  · rw [mapTx_addUnchecked_of_ne, hmem]
    rintro rfl
    rw [ha.notInPool] at hmem
    cases hmem
  · by_cases heq : hash = tx.getHash
    · subst heq
      obtain rfl := Option.some.inj (mapTx_addUnchecked_self.symm.trans hmem)
      refine .inr ⟨ha.notInCoins, fun txin htxin => (ha.inputs txin htxin).imp_right ?_⟩
      rintro ⟨hne, hprovides⟩
      exact ⟨hne, hprovides.addUnchecked ha.notInPool⟩
    · exact .inl ((mapTx_addUnchecked_of_ne heq).symm.trans hmem)

theorem Grown.provides (h : Grown pool coins pool') (ho : pool.Provides o) : pool'.Provides o := by
  obtain ⟨parent, hparent, hlt⟩ := ho
  exact ⟨parent, h.sub _ _ hparent, hlt⟩

theorem Grown.trans (h : Grown pool coins pool1) (h' : Grown pool1 coins pool') :
    Grown pool coins pool' where
  indexed := h'.indexed
  sub hash tx hmem := h'.sub hash tx (h.sub hash tx hmem)
  new hash tx hmem := by
    rcases h'.new hash tx hmem with hmem1 | hnew
    · refine (h.new hash tx hmem1).imp_right ?_
      rintro ⟨hnone, hinputs⟩
      refine ⟨hnone, fun txin htxin => (hinputs txin htxin).imp_right ?_⟩
      rintro ⟨hne, hprovides⟩
      exact ⟨hne, h'.provides hprovides⟩
    · exact .inr hnew

theorem Grown.consistent (h : Grown pool coins pool') (hpool : pool.Consistent coins) :
    pool'.Consistent coins where
  toIndexed := h.indexed
  unrecorded hash tx hmem := by
    rcases h.new hash tx hmem with hold | ⟨hnone, -⟩
    · exact hpool.unrecorded hash tx hold
    · rw [CoinsView.coinsAt, hnone]
      rfl
  inputs hash tx hmem txin htxin := by
    rcases h.new hash tx hmem with hold | ⟨-, hinputs⟩
    · refine (hpool.inputs hash tx hold txin htxin).imp_right ?_
      rintro ⟨hne, hprovides⟩
      exact ⟨hne, h.provides hprovides⟩
    · exact hinputs txin htxin

/-! ## Removing what was connected -/

/-- The pool between the rounds of the last loop. The coins `V` are those after the transactions
that have been dealt with, `V'` those at the end, and `rest` are the transactions to come. -/
structure Waiting (pool : CTxMemPool) (V V' : CoinsView) (rest : List CTransaction) : Prop
    extends pool.Indexed where
  unrecorded : ∀ hash tx, pool.mapTx hash = some tx → (V'.coinsAt hash).isPruned = false →
    ∃ B ∈ rest, B.getHash = hash
  inputs : ∀ hash tx, pool.mapTx hash = some tx → ∀ txin ∈ tx.vin,
    V.Unspent txin.prevout ∨ V'.Unspent txin.prevout ∨
      (txin.prevout.hash ≠ hash ∧ pool.Provides txin.prevout) ∨
      ∃ B ∈ rest, txin.prevout.hash = B.getHash ∧ txin.prevout.n.toNat < B.vout.length

section Delete

variable {B : CTransaction} {fuel : Nat}

theorem remove_false_spec (h : pool.Indexed)
    (hid : ∀ hash tx, pool.mapTx hash = some tx → hash = B.getHash → tx = B)
    (h1 : remove fuel pool B false = some pool1) :
    pool1.mapTx B.getHash = none ∧ pool1.Indexed ∧
      ∀ hash, hash ≠ B.getHash → pool1.mapTx hash = pool.mapTx hash := by
  rw [remove_false h1]
  cases hmem : pool.mapTx B.getHash with
  | none => exact ⟨hmem, h, fun _ _ => rfl⟩
  | some tx =>
    obtain rfl := hid _ _ hmem rfl
    exact ⟨mapTx_erase_self, h.erase hmem, fun hash hne => mapTx_erase_of_ne hne⟩

/-- One round: `mempool.remove(B); mempool.removeConflicts(B);`. -/
theorem Waiting.next (h : Waiting pool V V' (B :: rest))
    (hB : Applied V B V1) (hid : ∀ hash tx, pool.mapTx hash = some tx → hash = B.getHash → tx = B)
    (h1 : remove fuel pool B false = some pool1)
    (h2 : removeConflicts fuel pool1 B = some pool2) : Waiting pool2 V1 V' rest := by
  obtain ⟨hnone, hindexed1, hsame⟩ := remove_false_spec h.toIndexed hid h1
  obtain ⟨hremoved, hfree⟩ := removeConflicts_spec hindexed1 hnone h2
  have hne : ∀ hash tx, pool2.mapTx hash = some tx → hash ≠ B.getHash := by
    rintro hash tx hmem rfl
    rw [hremoved.mapTx_eq_none hnone] at hmem
    cases hmem
  have hback : ∀ hash tx, pool2.mapTx hash = some tx → pool.mapTx hash = some tx :=
    fun hash tx hmem => (hsame hash (hne hash tx hmem)).symm.trans (hremoved.sub hash tx hmem)
  refine ⟨hremoved.indexed, fun hash tx hmem hrecord => ?_, fun hash tx hmem txin htxin => ?_⟩
  · obtain ⟨B', hB', hhash⟩ := h.unrecorded hash tx (hback hash tx hmem) hrecord
    rcases List.mem_cons.mp hB' with rfl | hB'
    · exact (hne hash tx hmem hhash.symm).elim
    · exact ⟨B', hB', hhash⟩
  · rcases h.inputs hash tx (hback hash tx hmem) txin htxin with ho | ho | ⟨hself, parent, hp, hlt⟩ | hB'
    · rcases hB.keeps _ ho with ho1 | ⟨txin', hmem', hprevout⟩
      · exact .inl ho1
      · exact (hremoved.indexed.not_mem_vin (hfree txin' hmem') hmem htxin hprevout.symm).elim
    · exact .inr (.inl ho)
    · by_cases heq : txin.prevout.hash = B.getHash
      · obtain rfl := hid _ _ hp heq
        exact .inl (hB.own _ heq hlt)
      · have hp1 := (hsame _ heq).trans hp
        exact .inr (.inr (.inl ⟨hself, parent,
          hremoved.parents hash tx hmem txin htxin parent hp1 hlt, hlt⟩))
    · obtain ⟨B', hB', hhash, hlt⟩ := hB'
      rcases List.mem_cons.mp hB' with rfl | hB'
      · exact .inl (hB.own _ hhash hlt)
      · exact .inr (.inr (.inr ⟨B', hB', hhash, hlt⟩))

theorem mapTx_of_delete {hash : uint256} (h : pool.Indexed)
    (hid : ∀ hash tx, pool.mapTx hash = some tx → hash = B.getHash → tx = B)
    (h1 : remove fuel pool B false = some pool1) (h2 : removeConflicts fuel pool1 B = some pool2)
    (hmem : pool2.mapTx hash = some tx) : pool.mapTx hash = some tx := by
  obtain ⟨hnone, hindexed1, hsame⟩ := remove_false_spec h hid h1
  have hremoved := (removeConflicts_spec hindexed1 hnone h2).1
  have hmem1 := hremoved.sub hash tx hmem
  rw [← hsame, hmem1]
  rintro rfl
  rw [hnone] at hmem1
  cases hmem1

end Delete

theorem Waiting.consistent (h : Waiting pool V V' [])
    (hV : ∀ o, V.Unspent o → V'.Unspent o) : pool.Consistent V' where
  toIndexed := h.toIndexed
  unrecorded hash tx hmem := by
    by_contra hrecord
    obtain ⟨B, hB, -⟩ := h.unrecorded hash tx hmem (Bool.eq_false_iff.mpr hrecord)
    cases hB
  inputs hash tx hmem txin htxin := by
    rcases h.inputs hash tx hmem txin htxin with ho | ho | hprovides | ⟨B, hB, -⟩
    · exact .inl (hV _ ho)
    · exact .inl ho
    · exact .inr hprovides
    · cases hB

end CTxMemPool

end Terracoin
