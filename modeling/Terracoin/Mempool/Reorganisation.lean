import Terracoin.Mempool.Consistency
import Terracoin.Mempool.FlushedCoins

/-!
# The transactions that come back

`SetBestChain` offers the transactions of the blocks that it disconnects to the pool, one after the
other. `Reorganisation` collects what decides about them, and `Eligible` are the transactions that
should be in the pool afterwards: everything they spend is in the new chain or comes back with them.

Whether they come back is a matter of the order: `accept` refuses a transaction whose parent is still
in the queue, and it is not offered again (`mapTx_iff`).
-/

namespace Terracoin

open Checked CTxMemPool

structure Reorganisation where
  env : CTransaction → AcceptEnv
  /-- The coins after the call. -/
  coins : CoinsView
  /-- The pool before it. -/
  pool : CTxMemPool
  /-- The transactions of the disconnected blocks, without the coinbases, in the order in which they
  are offered. -/
  queue : List CTransaction
  /-- The transactions of the connected blocks. -/
  connected : List CTransaction

namespace Reorganisation

variable [Hashing] [ScriptEngine] [NodeConfig] (R : Reorganisation)

/-- `AcceptToMemoryPool` for a transaction of the queue. -/
def offer (pool : CTxMemPool) (tx : CTransaction) : CTxMemPool :=
  match pool.accept (R.env tx) R.coins tx true false with
  | .ok pool => pool
  | .error _ => pool

/-- The pool after the first `n` transactions of the queue. -/
def poolAt (n : Nat) : CTxMemPool := (R.queue.take n).foldl R.offer R.pool

def queued : CTxMemPool := ⟨fun hash => R.queue.find? fun tx => tx.getHash == hash, fun _ => none⟩

/-! ## What should come back -/

/-- A transaction of the queue that is standard, final and valid with the queue on top of the coins,
in conflict with no transaction of the pool, the queue or the new blocks, and not in the new chain.
Of what it spends the pool has nothing. -/
structure Candidate (tx : CTransaction) : Prop where
  queued : tx ∈ R.queue
  checked : tx.checkTransaction = .ok ()
  standard : (NodeConfig.fTestNet ||
    tx.isStandard (R.env tx).nBestHeight (R.env tx).nAdjustedTime) = true
  valid : checkAvailable (R.env tx) (R.queued.view R.coins) tx false = .ok ()
  noConflict : ∀ txin ∈ tx.vin, R.pool.mapNextTx txin.prevout = none ∧
    ∀ tx' ∈ R.queue ++ R.connected, txin.prevout ∈ tx'.vin.map CTxIn.prevout → tx' = tx
  notConnected : tx ∉ R.connected ∧ (R.coins.coinsAt tx.getHash).isPruned = true
  outsidePool : ∀ txin ∈ tx.vin, R.pool.mapTx txin.prevout.hash = none

instance (tx : CTransaction) : Decidable (R.Candidate tx) :=
  decidable_of_iff (tx ∈ R.queue ∧ tx.checkTransaction = .ok () ∧
      (NodeConfig.fTestNet || tx.isStandard (R.env tx).nBestHeight (R.env tx).nAdjustedTime) = true ∧
      checkAvailable (R.env tx) (R.queued.view R.coins) tx false = .ok () ∧
      (∀ txin ∈ tx.vin, R.pool.mapNextTx txin.prevout = none ∧
        ∀ tx' ∈ R.queue ++ R.connected, txin.prevout ∈ tx'.vin.map CTxIn.prevout → tx' = tx) ∧
      (tx ∉ R.connected ∧ (R.coins.coinsAt tx.getHash).isPruned = true) ∧
      ∀ txin ∈ tx.vin, R.pool.mapTx txin.prevout.hash = none)
    ⟨fun ⟨h1, h2, h3, h4, h5, h6, h7⟩ => ⟨h1, h2, h3, h4, h5, h6, h7⟩,
      fun ⟨h1, h2, h3, h4, h5, h6, h7⟩ => ⟨h1, h2, h3, h4, h5, h6, h7⟩⟩

/-- A candidate whose inputs are available outputs of the new chain or outputs of other such
transactions, given by `source`. -/
inductive Eligible : CTransaction → Prop
  | intro {tx : CTransaction} (candidate : R.Candidate tx) (source : CTxIn → CTransaction)
      (outputs : ∀ txin ∈ tx.vin, ¬ R.coins.Unspent txin.prevout →
        (source txin).getHash = txin.prevout.hash ∧
          txin.prevout.n.toNat < (source txin).vout.length)
      (parents : ∀ txin ∈ tx.vin, ¬ R.coins.Unspent txin.prevout → Eligible (source txin)) :
      Eligible tx

/-- An input refers to the other transaction, and not to an available output of the new chain. -/
def Needs (tx parent : CTransaction) : Prop :=
  ∃ txin ∈ tx.vin, txin.prevout.hash = parent.getHash ∧ ¬ R.coins.Unspent txin.prevout

/-- Transactions with one hash are one transaction. -/
structure DistinctIds : Prop where
  queue : ∀ tx ∈ R.queue ++ R.connected, ∀ tx' ∈ R.queue ++ R.connected,
    tx.getHash = tx'.getHash → tx = tx'
  pool : ∀ tx ∈ R.queue ++ R.connected, ∀ tx' ∈ R.pool.mapTx tx.getHash, tx' = tx

/-- When the eligible transactions come back: each has its place in the queue after those that it
needs, none has a lock time that `accept` takes for a negative number, and the coins have been
flushed, so that no entry is left of a disconnected transaction. -/
structure AllReturn (fFlushed : Bool) : Prop where
  order : ∃ pos : CTransaction → Nat, ∀ tx, R.Eligible tx → R.queue[pos tx]? = some tx ∧
    ∀ parent, R.Eligible parent → R.Needs tx parent → pos parent < pos tx
  lockTime : ∀ tx, R.Eligible tx → tx.nLockTime.toNat ≤ 2147483647
  flushed : ∀ tx, R.Eligible tx → fFlushed = true

variable {R} {pool : CTxMemPool} {tx : CTransaction} {hash : uint256} {m n : Nat}

theorem Eligible.candidate (h : R.Eligible tx) : R.Candidate tx := by
  cases h with
  | intro candidate => exact candidate

theorem Candidate.eligible (h : R.Candidate tx)
    (hinputs : ∀ txin ∈ tx.vin, R.coins.Unspent txin.prevout) : R.Eligible tx :=
  .intro h (fun _ => tx) (fun txin htxin hspent => (hspent (hinputs txin htxin)).elim)
    fun txin htxin hspent => (hspent (hinputs txin htxin)).elim

theorem Eligible.exists_parent (h : R.Eligible tx) {txin : CTxIn} (htxin : txin ∈ tx.vin)
    (hspent : ¬ R.coins.Unspent txin.prevout) :
    ∃ parent, R.Eligible parent ∧ parent.getHash = txin.prevout.hash ∧
      txin.prevout.n.toNat < parent.vout.length := by
  cases h with
  | intro _ source outputs parents =>
    exact ⟨source txin, parents txin htxin hspent, outputs txin htxin hspent⟩

/-! ## The pool along the queue -/

theorem offer_grown (hpool : pool.Indexed) : Grown pool R.coins (R.offer pool tx) := by
  unfold offer
  split
  · rename_i pool' haccept
    obtain ⟨hacc, rfl⟩ := acceptable_of_accept haccept
    exact .of_acceptable hpool hacc
  · exact .refl hpool

theorem offer_new {tx' : CTransaction} (h : (R.offer pool tx).mapTx hash = some tx') :
    pool.mapTx hash = some tx' ∨ tx' = tx := by
  unfold offer at h
  split at h
  · rename_i pool' haccept
    obtain ⟨-, rfl⟩ := acceptable_of_accept haccept
    by_cases heq : hash = tx.getHash
    · subst heq
      exact .inr (Option.some.inj (mapTx_addUnchecked_self.symm.trans h)).symm
    · exact .inl ((mapTx_addUnchecked_of_ne heq).symm.trans h)
  · exact .inl h

theorem poolAt_succ (h : R.queue[n]? = some tx) : R.poolAt (n + 1) = R.offer (R.poolAt n) tx := by
  rw [poolAt, List.take_add_one, h, List.foldl_append]
  rfl

theorem poolAt_of_none (h : R.queue[n]? = none) : R.poolAt (n + 1) = R.poolAt n := by
  rw [poolAt, List.take_add_one, h, Option.toList_none, List.append_nil, poolAt]

theorem poolAt_indexed (hpool : R.pool.Indexed) (n : Nat) : (R.poolAt n).Indexed := by
  induction n with
  | zero => exact hpool
  | succ n ih =>
    cases h : R.queue[n]? with
    | none => exact poolAt_of_none h ▸ ih
    | some tx => exact poolAt_succ h ▸ (offer_grown ih).indexed

theorem poolAt_grown (hpool : R.pool.Indexed) (h : m ≤ n) :
    Grown (R.poolAt m) R.coins (R.poolAt n) := by
  induction n, h using Nat.le_induction with
  | base => exact .refl (poolAt_indexed hpool m)
  | succ n _ ih =>
    refine ih.trans ?_
    cases h : R.queue[n]? with
    | none =>
      rw [poolAt_of_none h]
      exact .refl (poolAt_indexed hpool n)
    | some tx =>
      rw [poolAt_succ h]
      exact offer_grown (poolAt_indexed hpool n)

theorem poolAt_new (h : (R.poolAt n).mapTx hash = some tx) :
    R.pool.mapTx hash = some tx ∨ tx ∈ R.queue := by
  induction n with
  | zero => exact .inl h
  | succ n ih =>
    cases hn : R.queue[n]? with
    | none => exact ih (poolAt_of_none hn ▸ h)
    | some tx' =>
      rw [poolAt_succ hn] at h
      rcases offer_new h with h | rfl
      · exact ih h
      · exact .inr (List.mem_of_getElem? hn)

/-- What is in the pool at the end and was not at the start has been accepted in its turn. -/
theorem exists_accepted (hstart : R.pool.mapTx hash = none)
    (h : (R.poolAt n).mapTx hash ≠ none) :
    ∃ k tx pool', k < n ∧ R.queue[k]? = some tx ∧ tx.getHash = hash ∧
      (R.poolAt k).accept (R.env tx) R.coins tx true false = .ok pool' := by
  induction n with
  | zero => exact (h hstart).elim
  | succ n ih =>
    by_cases hprev : (R.poolAt n).mapTx hash = none
    · cases hn : R.queue[n]? with
      | none => exact (h (poolAt_of_none hn ▸ hprev)).elim
      | some tx =>
        rw [poolAt_succ hn, offer] at h
        cases haccept : (R.poolAt n).accept (R.env tx) R.coins tx true false with
        | error e =>
          rw [haccept] at h
          exact (h hprev).elim
        | ok pool' =>
          refine ⟨n, tx, pool', Nat.lt_succ_self n, hn, ?_, haccept⟩
          obtain ⟨-, rfl⟩ := acceptable_of_accept haccept
          rw [haccept] at h
          by_contra hne
          exact h ((mapTx_addUnchecked_of_ne fun heq => hne heq.symm).trans hprev)
    · obtain ⟨k, tx, pool', hlt, hrest⟩ := ih hprev
      exact ⟨k, tx, pool', Nat.lt_succ_of_lt hlt, hrest⟩

/-! ## In order, they come back -/

theorem accept_of_candidate (hc : R.Candidate tx) (hcb : tx.isCoinBase = false)
    (hlock : tx.nLockTime.toNat ≤ 2147483647) (hcoins : R.coins.coins tx.getHash = none)
    (hnew : pool.mapTx tx.getHash = none)
    (hfree : ∀ txin ∈ tx.vin, pool.mapNextTx txin.prevout = none)
    (hsame : CTransaction.SameInputs (pool.view R.coins) (R.queued.view R.coins) tx.vin) :
    pool.accept (R.env tx) R.coins tx true false = .ok (pool.addUnchecked tx.getHash tx) := by
  have hpre : preAccept (R.env tx) pool tx = .ok () := by
    simp only [preAccept, bind_ok, require_ok]
    refine ⟨(), hc.checked, (), by rw [hcb]; rfl, (), decide_eq_true hlock, (), hc.standard, (),
      by rw [hnew]; rfl, List.all_eq_true.mpr fun txin htxin => ?_⟩
    rw [hfree txin htxin]
    rfl
  have hvalid := hc.valid
  rw [← checkAvailable_congr hsame] at hvalid
  have hinputs : tx.haveInputs (pool.view R.coins) = true := by
    obtain ⟨_, -, hvalid⟩ := bind_ok.mp hvalid
    obtain ⟨_, hchecks, -⟩ := bind_ok.mp hvalid
    rw [CTransaction.checkInputs, hcb, if_neg Bool.false_ne_true] at hchecks
    obtain ⟨_, hhave, -⟩ := bind_ok.mp hchecks
    exact require_ok.mp hhave
  have hhave : (pool.view R.coins).haveCoins tx.getHash = false := by
    rw [CoinsView.haveCoins, view_coins, hcoins, hnew]
    rfl
  rw [accept_eq, hpre, acceptInputs_eq, hhave, allHaveCoins_of_haveInputs hcb hinputs, hinputs,
    hvalid]
  rfl

omit [ScriptEngine] [NodeConfig] in
theorem queued_mapTx (hids : R.DistinctIds) (hmem : tx ∈ R.queue) :
    R.queued.mapTx tx.getHash = some tx := by
  cases h : R.queue.find? fun tx' => tx'.getHash == tx.getHash with
  | none =>
    have := List.find?_eq_none.mp h tx hmem
    simp at this
  | some tx' =>
    have hhash : tx'.getHash = tx.getHash := by simpa using List.find?_some h
    have heq := hids.queue tx' (List.mem_append_left _ (List.mem_of_find?_eq_some h)) tx
      (List.mem_append_left _ hmem) hhash
    exact heq ▸ h

/-- An eligible transaction is in the pool once its place in the queue has passed. -/
theorem mapTx_poolAt (hpool : R.pool.Indexed) (hids : R.DistinctIds)
    (hcb : ∀ tx ∈ R.queue, tx.isCoinBase = false)
    (hlock : ∀ tx, R.Eligible tx → tx.nLockTime.toNat ≤ 2147483647)
    (hcoins : ∀ tx, R.Eligible tx → R.coins.coins tx.getHash = none) {pos : CTransaction → Nat}
    (horder : ∀ tx, R.Eligible tx → R.queue[pos tx]? = some tx ∧
      ∀ parent, R.Eligible parent → R.Needs tx parent → pos parent < pos tx)
    (h : R.Eligible tx) : (R.poolAt (pos tx + 1)).mapTx tx.getHash = some tx := by
  induction hn : pos tx using Nat.strongRecOn generalizing tx with
  | ind n ih =>
    subst hn
    obtain ⟨hplace, hparents⟩ := horder tx h
    have hc := h.candidate
    have hmem := List.mem_append_left R.connected hc.queued
    have hindexed := poolAt_indexed hpool (pos tx)
    rw [poolAt_succ hplace]
    cases hold : (R.poolAt (pos tx)).mapTx tx.getHash with
    | some tx0 =>
      have heq : tx0 = tx := by
        rcases poolAt_new hold with hstart | hqueue
        · exact hids.pool tx hmem tx0 hstart
        · exact hids.queue tx0 (List.mem_append_left _ hqueue) tx hmem (hindexed.hash _ _ hold)
      exact (offer_grown hindexed).sub _ _ (heq ▸ hold)
    | none =>
      have hfree : ∀ txin ∈ tx.vin, (R.poolAt (pos tx)).mapNextTx txin.prevout = none := by
        intro txin htxin
        obtain ⟨hstart, hothers⟩ := hc.noConflict txin htxin
        cases hnext : (R.poolAt (pos tx)).mapNextTx txin.prevout with
        | none => rfl
        | some it =>
          obtain ⟨tx', txin', hmem', hi, hprevout⟩ := (hindexed.next_iff _ it).mp hnext
          have htxin' := List.mem_of_getElem? hi
          rcases poolAt_new hmem' with hold' | hqueue
          · exact (hpool.not_mem_vin hstart hold' htxin' hprevout).elim
          · obtain rfl := hothers tx' (List.mem_append_left _ hqueue)
              (hprevout ▸ List.mem_map_of_mem htxin')
            rw [← hindexed.hash _ _ hmem', hold] at hmem'
            cases hmem'
      have hsame : CTransaction.SameInputs ((R.poolAt (pos tx)).view R.coins)
          (R.queued.view R.coins) tx.vin := by
        refine ⟨fun txin htxin => ?_, rfl⟩
        rw [view_coins, view_coins]
        cases hentry : R.coins.coins txin.prevout.hash with
        | some c => rw [Option.some_or, Option.some_or]
        | none =>
          have hspent : ¬ R.coins.Unspent txin.prevout := by
            rintro ⟨out, hout⟩
            rw [CoinsView.coinsAt, hentry] at hout
            cases hout
          obtain ⟨parent, hparent, hhash, -⟩ := h.exists_parent htxin hspent
          have hlt := hparents parent hparent ⟨txin, htxin, hhash.symm, hspent⟩
          have hback := (poolAt_grown hpool hlt).sub _ _ (ih (pos parent) hlt hparent rfl)
          rw [← hhash, hback, queued_mapTx hids hparent.candidate.queued]
      rw [offer, accept_of_candidate hc (hcb tx hc.queued) (hlock tx h) (hcoins tx h) hold hfree hsame]
      exact mapTx_addUnchecked_self

/-- In the pool an eligible transaction has no parents but eligible ones. -/
theorem eligible_closedUp (hpool : R.pool.Indexed) (hids : R.DistinctIds) (n : Nat) :
    ClosedUp R.Eligible (R.poolAt n) := by
  intro hash tx _ h txin htxin parent hparent
  have hstart : R.pool.mapTx txin.prevout.hash = none := h.candidate.outsidePool txin htxin
  rcases (poolAt_grown hpool (Nat.zero_le n)).new _ _ hparent with hold | ⟨hentry, -⟩
  · exact (Option.some_ne_none parent (hold.symm.trans hstart)).elim
  · have hspent : ¬ R.coins.Unspent txin.prevout := by
      rintro ⟨out, hout⟩
      rw [CoinsView.coinsAt, hentry] at hout
      cases hout
    obtain ⟨parent', hparent', hhash, -⟩ := h.exists_parent htxin hspent
    have hqueue : parent ∈ R.queue := (poolAt_new hparent).resolve_left fun hold =>
      Option.some_ne_none parent (hold.symm.trans hstart)
    have heq := hids.queue parent (List.mem_append_left _ hqueue) parent'
      (List.mem_append_left _ hparent'.candidate.queued)
      (((poolAt_indexed hpool n).hash _ _ hparent).trans hhash.symm)
    exact heq ▸ hparent'

/-! ## Out of order, they do not -/

theorem Candidate.notInPool (h : R.Candidate tx) (hpool : R.pool.Indexed) (hids : R.DistinctIds) :
    R.pool.mapTx tx.getHash = none := by
  cases hstart : R.pool.mapTx tx.getHash with
  | none => rfl
  | some tx0 =>
    obtain rfl := hids.pool tx (List.mem_append_left _ h.queued) tx0 hstart
    have hvin := (CTransaction.checked_of_checkTransaction h.checked).vin_ne
    obtain ⟨txin, vin, hcons⟩ := List.exists_cons_of_ne_nil hvin
    have htxin : txin ∈ tx0.vin := hcons ▸ List.mem_cons_self
    exact (hpool.not_mem_vin (h.noConflict txin htxin).1 hstart htxin rfl).elim

theorem Eligible.accepted (h : R.Eligible tx) (hpool : R.pool.Indexed) (hids : R.DistinctIds)
    (hback : (R.poolAt n).mapTx tx.getHash = some tx) :
    ∃ k pool', k < n ∧ R.queue[k]? = some tx ∧
      (R.poolAt k).accept (R.env tx) R.coins tx true false = .ok pool' := by
  obtain ⟨k, tx', pool', hlt, hplace, hhash, haccept⟩ :=
    exists_accepted (h.candidate.notInPool hpool hids) (by rw [hback]; exact Option.some_ne_none tx)
  obtain rfl := hids.queue tx' (List.mem_append_left _ (List.mem_of_getElem? hplace)) tx
    (List.mem_append_left _ h.candidate.queued) hhash
  exact ⟨k, pool', hlt, hplace, haccept⟩

omit [ScriptEngine] [NodeConfig] in
theorem mapTx_of_needs {parent : CTransaction} (hacc : Acceptable pool R.coins tx)
    (hneeds : R.Needs tx parent) : pool.mapTx parent.getHash ≠ none := by
  obtain ⟨txin, htxin, hhash, hspent⟩ := hneeds
  rcases hacc.inputs txin htxin with hcoin | ⟨-, parent', hparent', -⟩
  · exact (hspent hcoin).elim
  · rw [← hhash, hparent']
    exact Option.some_ne_none parent'

omit [Hashing] in
theorem lockTime_of_accept [Hashing] {env : AcceptEnv} {coins : CoinsView} {pool' : CTxMemPool}
    {fLimitFree : Bool} (h : pool.accept env coins tx true fLimitFree = .ok pool') :
    tx.nLockTime.toNat ≤ 2147483647 := by
  simp only [accept, bind_ok, require_ok, pure_ok, cond_true] at h
  obtain ⟨_, -, _, -, _, hlock, -⟩ := h
  exact of_decide_eq_true hlock

/-- Eligible transactions that have all come back stood in an order. -/
theorem exists_order (hpool : R.pool.Indexed) (hids : R.DistinctIds)
    (hback : ∀ tx, R.Eligible tx → (R.poolAt n).mapTx tx.getHash = some tx) :
    ∃ pos : CTransaction → Nat, ∀ tx, R.Eligible tx → R.queue[pos tx]? = some tx ∧
      ∀ parent, R.Eligible parent → R.Needs tx parent → pos parent < pos tx := by
  classical
  have haccepted : ∀ tx, ∃ k, R.Eligible tx → R.queue[k]? = some tx ∧
      Acceptable (R.poolAt k) R.coins tx := by
    intro tx
    by_cases h : R.Eligible tx
    · obtain ⟨k, pool', -, hplace, haccept⟩ := h.accepted hpool hids (hback tx h)
      exact ⟨k, fun _ => ⟨hplace, (acceptable_of_accept haccept).1⟩⟩
    · exact ⟨0, fun h' => (h h').elim⟩
  choose pos hpos using haccepted
  refine ⟨pos, fun tx h => ⟨(hpos tx h).1, fun parent hparent hneeds => ?_⟩⟩
  -- at its own place the parent is not in the pool yet, at that of its child it is
  by_contra hle
  have hthere := mapTx_of_needs (hpos tx h).2 hneeds
  obtain ⟨parent', hparent'⟩ := Option.ne_none_iff_exists'.mp hthere
  have hlater := (poolAt_grown hpool (Nat.le_of_not_lt hle)).sub _ _ hparent'
  rw [(hpos parent hparent).2.notInPool] at hlater
  cases hlater

end Reorganisation

end Terracoin
