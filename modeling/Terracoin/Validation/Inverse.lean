import Terracoin.Validation.DisconnectBlock

/-!
# Disconnecting undoes connecting

`DisconnectBlock`, run on the view that `ConnectBlock` left and with the undo data it produced,
is clean and gives back the view from before, up to pruned entries.

The two functions do the same steps in opposite orders, so the proof is one step for an input
(`restoreInput_spendInput`), one for a transaction (`disconnectTransaction_applyTransaction`),
and `UndoLog.revertAll_clean` for each of the two loops. The state of the reversal need only be
`Restored`: entries mean the same, and are trimmed where the original ones are. The latter is
what makes the comparison of `outs` with `outsBlock`, which looks at the vectors themselves,
come out equal.
-/

namespace Terracoin

open Checked

namespace CoinsView

/-- The same available outputs with the same metadata, and the same best block: equality up to
pruned entries. -/
structure Equiv (w v : CoinsView) : Prop where
  coins : ∀ txid, CCoins.Same (w.coinsAt txid) (v.coinsAt txid)
  pindexTip : w.pindexTip = v.pindexTip

def HasHeights (view : CoinsView) : Prop :=
  ∀ txid, (view.coinsAt txid).isPruned = false → 1 ≤ (view.coinsAt txid).nHeight

/-- The entries of `w` mean the same as those of `v` and are trimmed where those are. -/
def Restored (w v : CoinsView) : Prop :=
  ∀ txid, CCoins.Same (w.coinsAt txid) (v.coinsAt txid) ∧
    ((v.coinsAt txid).Trimmed → (w.coinsAt txid).Trimmed)

theorem Restored.setCoins {w v : CoinsView} {txid : uint256} {c d : CCoins}
    (h : ∀ t, t ≠ txid → CCoins.Same (w.coinsAt t) (v.coinsAt t) ∧
      ((v.coinsAt t).Trimmed → (w.coinsAt t).Trimmed))
    (hsame : CCoins.Same c d) (htrim : d.Trimmed → c.Trimmed) (hd : v.coinsAt txid = d) :
    Restored (w.setCoins txid c) v := by
  intro t
  by_cases ht : t = txid
  · subst ht
    rw [coinsAt_setCoins_self, hd]
    exact ⟨hsame, htrim⟩
  · rw [coinsAt_setCoins_of_ne ht]
    exact h t ht

end CoinsView

open CoinsView

/-! ## One input -/

theorem hasHeights_spendInput {s s' : CoinsView} {txin : CTxIn} {undo : CTxInUndo}
    (hs : s.HasHeights) (h : CTransaction.spendInput s txin = .ok (s', undo)) : s'.HasHeights := by
  obtain ⟨coins, hspend, rfl⟩ := CTransaction.spendInput_ok.mp h
  have hspent := CCoins.spent_of_spend hspend
  intro txid
  by_cases ht : txid = txin.prevout.hash
  · subst ht
    rw [coinsAt_setCoins_self, hspent.nHeight]
    exact fun _ => hs _ hspent.isPruned
  · rw [coinsAt_setCoins_of_ne ht]
    exact hs txid

theorem restoreInput_spendInput {s s' w : CoinsView} {txin : CTxIn} {undo : CTxInUndo}
    (hs : s.HasHeights) (h : CTransaction.spendInput s txin = .ok (s', undo))
    (hw : Restored w s') :
    ∃ w', restoreInput w txin undo = .ok (w', true) ∧ Restored w' s := by
  obtain ⟨coins, hspend, rfl⟩ := CTransaction.spendInput_ok.mp h
  have hspent := CCoins.spent_of_spend hspend
  obtain ⟨hsame, htrim⟩ := hw txin.prevout.hash
  rw [coinsAt_setCoins_self] at hsame htrim
  have hheight : (s.coinsAt txin.prevout.hash).nHeight ≠ 0 := by
    have := hs _ hspent.isPruned
    omega
  obtain ⟨hclean, hback⟩ := CCoins.restore_spend hspent hheight hsame
  refine ⟨_, by rw [restoreInput, hclean], ?_⟩
  refine Restored.setCoins (fun t ht => ?_) hback (fun _ => ?_) rfl
  · have := hw t
    rwa [coinsAt_setCoins_of_ne ht] at this
  · exact CCoins.restore_trimmed (htrim hspent.trimmed) hspent.txout_isNull

theorem restoreInputs_spendInputs {s s' w : CoinsView} {vin : List CTxIn}
    {undos : List CTxInUndo} (hs : s.HasHeights)
    (h : UndoLog.applyAll CTransaction.spendInput s vin = .ok (s', undos)) (hw : Restored w s') :
    ∃ w', UndoLog.revertAll restoreInput w vin undos = .ok (w', true) ∧ Restored w' s := by
  refine UndoLog.revertAll_clean (P := fun v _ => v.HasHeights) (R := Restored) ?_ ?_ hs h hw
  · exact fun _ _ _ _ _ hs h => hasHeights_spendInput hs h
  · exact fun _ _ _ _ _ _ hs h hw => restoreInput_spendInput hs h hw

theorem hasHeights_spendInputs {s s' : CoinsView} {tx : CTransaction} {undos : List CTxInUndo}
    (hs : s.HasHeights) (h : tx.spendInputs s = .ok (s', undos)) : s'.HasHeights := by
  unfold CTransaction.spendInputs at h
  split at h
  · cases h
    exact hs
  · exact UndoLog.applyAll_invariant (P := HasHeights)
      (fun _ _ _ _ hs h => hasHeights_spendInput hs h) hs h

/-! ## One transaction -/

theorem ofTx_trimmed {nHeight : Int} {tx : CTransaction} (h : tx.Checked) : (CCoins.ofTx tx nHeight).Trimmed :=
  CCoins.trimmed_of_nonneg fun out hout => (h.value_range out hout).1

theorem eq_ofTx_of_same {nHeight : Int} {tx : CTransaction} {c : CCoins} (h : tx.Checked)
    (hsame : CCoins.Same c (CCoins.ofTx tx nHeight)) (htrim : c.Trimmed) :
    c = CCoins.ofTx tx nHeight :=
  hsame.eq_of_unspent h.vout_ne
    (fun out hout => CTxOut.isNull_of_nonneg (h.value_range out hout).1) htrim

section Transactions

variable [Hashing] {nHeight : Int}

/-- What holds before each transaction of a block under BIP30: the entries of the transactions
still to come are pruned. -/
structure BeforeTransactions (s : CoinsView) (vtx : List CTransaction) : Prop where
  hasHeights : s.HasHeights
  checked : ∀ tx ∈ vtx, tx.Checked
  nodup : (vtx.map CTransaction.getHash).Nodup
  pruned : ∀ tx ∈ vtx, (s.coinsAt tx.getHash).isPruned = true

theorem beforeTransactions_next {s s' : CoinsView} {tx : CTransaction} {vtx : List CTransaction}
    {txundo : Option CTxUndo} (hheight : 1 ≤ nHeight) (hs : BeforeTransactions s (tx :: vtx))
    (h : applyTransaction nHeight s tx = .ok (s', txundo)) : BeforeTransactions s' vtx := by
  obtain ⟨undo, hupdate, -⟩ := applyTransaction_ok.mp h
  obtain ⟨view, hspend, rfl⟩ := CTransaction.updateCoins_ok.mp hupdate
  have hnodup := List.nodup_cons.mp hs.nodup
  refine ⟨?_, fun t ht => hs.checked t (List.mem_cons_of_mem _ ht), hnodup.2, ?_⟩
  · intro txid
    by_cases ht : txid = tx.getHash
    · subst ht
      rw [coinsAt_setCoins_self]
      exact fun _ => hheight
    · rw [coinsAt_setCoins_of_ne ht]
      exact hasHeights_spendInputs hs.hasHeights hspend txid
  · intro t ht
    have hne : t.getHash ≠ tx.getHash := fun he =>
      hnodup.1 (he ▸ List.mem_map_of_mem (f := CTransaction.getHash) ht)
    rw [coinsAt_setCoins_of_ne hne]
    exact (CTransaction.spendInputs_below hspend).isPruned
      (hs.pruned t (List.mem_cons_of_mem _ ht))

/-- Disconnecting a transaction undoes applying it, if its id was free before. -/
theorem disconnectTransaction_applyTransaction {s s' w : CoinsView} {tx : CTransaction}
    {vtx : List CTransaction} {txundo : Option CTxUndo} (hs : BeforeTransactions s (tx :: vtx))
    (h : applyTransaction nHeight s tx = .ok (s', txundo)) (hw : Restored w s') :
    ∃ w', disconnectTransaction nHeight w tx txundo = .ok (w', true) ∧ Restored w' s := by
  obtain ⟨undo, hupdate, rfl⟩ := applyTransaction_ok.mp h
  obtain ⟨view, hspend, rfl⟩ := CTransaction.updateCoins_ok.mp hupdate
  have hchecked := hs.checked tx List.mem_cons_self
  -- the outputs are found exactly as the block has them
  obtain ⟨hsame, htrim⟩ := hw tx.getHash
  rw [coinsAt_setCoins_self] at hsame htrim
  have houts := eq_ofTx_of_same hchecked hsame (htrim (ofTx_trimmed hchecked))
  have hhave : w.haveCoins tx.getHash = true := by
    unfold haveCoins coinsAt at *
    cases hc : w.coins tx.getHash with
    | some c => rfl
    | none =>
      rw [hc] at houts
      exact absurd (congrArg CCoins.vout houts).symm hchecked.vout_ne
  -- removing them gives a view related to the one after the inputs were spent
  have hview : Restored (w.setCoins tx.getHash CCoins.empty) view := by
    have hpruned := (CTransaction.spendInputs_below hspend).isPruned
      (hs.pruned tx List.mem_cons_self)
    refine Restored.setCoins (fun t ht => ?_)
      (CCoins.same_of_isPruned CCoins.isPruned_empty hpruned) (fun _ => rfl) rfl
    have := hw t
    rwa [coinsAt_setCoins_of_ne ht] at this
  simp only [disconnectTransaction, hhave, houts, beq_self_eq_true, Bool.and_self]
  unfold CTransaction.spendInputs at hspend
  cases hcb : tx.isCoinBase with
  | true =>
    rw [if_pos hcb] at hspend
    obtain ⟨rfl, -⟩ := Prod.mk.inj (Except.ok.inj hspend)
    exact ⟨_, rfl, hview⟩
  | false =>
    rw [if_neg (by simp [hcb])] at hspend
    obtain ⟨w', hrev, hw'⟩ := restoreInputs_spendInputs hs.hasHeights hspend hview
    refine ⟨w', ?_, hw'⟩
    simp only [Bool.false_eq_true, if_false, bind_ok, require_ok, beq_iff_eq, pure_ok, Prod.exists,
      Prod.mk.injEq]
    exact ⟨(), UndoLog.applyAll_length hspend, w', true, hrev, rfl, rfl⟩

end Transactions

/-- **`DisconnectBlock` undoes `ConnectBlock`.** On a view whose unpruned entries have heights,
a successful `ConnectBlock` of a block other than the genesis block, with BIP30 enforced,
produces undo data (stored in the index entry unless that has undo data already) with which
`DisconnectBlock` is clean on the new view and gives back the old one, up to pruned entries. -/
theorem disconnectBlock_connectBlock [Hashing] [ScriptEngine] [NodeConfig] {env : ConnectEnv}
    {b : CBlock} {pindex pprev : CBlockIndex} {phashBlock : Option uint256}
    {data data' : BlockData} {view view' : CoinsView} (hheights : view.HasHeights)
    (hgenesis : b.getHash ≠ hashGenesisBlock) (hprev : pindex.pprev = some pprev)
    (hbip30 : enforceBIP30 phashBlock pindex.nHeight = true)
    (h : connectBlock env b pindex phashBlock data view false = (data', .ok view')) :
    ∃ blockundo : CBlockUndo, (∃ coins, connectCoins b pindex phashBlock view = .ok (coins, blockundo)) ∧
      (data.nStatus.haveUndo = false → data'.nStatus.haveUndo = true ∧ data'.undo = some blockundo) ∧
      ∀ stored : BlockData, stored.nStatus.haveUndo = true → stored.undo = some blockundo →
        ∃ view'', disconnectBlock b pindex stored true view' = .ok (view'', true) ∧
          Equiv view'' view := by
  obtain ⟨hb, htip, coins, blockundo, hcoins, rfl, hhave, hdata⟩ := connectBlock_ok hgenesis h
  obtain ⟨undos, hconn, rfl⟩ := connected_of_connectCoins hb.checked hcoins
  refine ⟨_, ⟨coins, hcoins⟩, fun hno => ⟨hhave, by simpa [hno] using hdata⟩, ?_⟩
  intro stored hstored hundo
  have hheight : (1 : Int) ≤ pindex.nHeight := by
    rw [CBlockIndex.nHeight_of_pprev hprev]
    omega
  have hbefore : BeforeTransactions view b.vtx :=
    ⟨hheights, hb.checked, hb.nodup, hconn.noOverwrite hbip30⟩
  have hstart : Restored (coins.setBestBlock (some pindex)) coins :=
    fun _ => ⟨CCoins.Same.refl _, id⟩
  have hreverse : ∃ w, UndoLog.revertAll (disconnectTransaction pindex.nHeight)
      (coins.setBestBlock (some pindex)) b.vtx undos = .ok (w, true) ∧ Restored w view := by
    refine UndoLog.revertAll_clean (P := BeforeTransactions) (R := Restored) ?_ ?_ hbefore
      hconn.apply hstart
    · exact fun _ _ _ _ _ hP h => beforeTransactions_next hheight hP h
    · exact fun _ _ _ _ _ _ hP h hw => disconnectTransaction_applyTransaction hP h hw
  obtain ⟨w, hrev, hw⟩ := hreverse
  rw [applyTransactions_blockUndo hb hconn.apply] at hrev
  refine ⟨w.setBestBlock (some pprev), disconnectBlock_ok.mpr ⟨rfl, hstored, pprev, _, w, hprev, rfl,
    hundo, reduceOption_length hb hconn.apply, hrev, rfl⟩, fun txid => (hw txid).1, ?_⟩
  rw [setBestBlock_pindexTip, ← hprev, htip]
  rfl

open Sample in
/-- The theorem applied to a block that spends the last output of an older transaction and one
of its own. -/
theorem disconnectBlock_connectBlock_sample :
    let view : CoinsView :=
      ⟨fun txid => if txid = 7 then some ⟨false, [⟨50, []⟩], 1, 1⟩ else none, some genesis⟩
    let b := block 1 9 [coinbase 1 2000000000, spending 2 [(7, 0)] [20, 10],
      spending 3 [(2, 1)] [9]]
    ∃ data' view' blockundo view'',
      connectBlock env b (.child genesis b.toCBlockHeader) (some 1) .unconnected view false =
        (data', .ok view') ∧
      data'.undo = some blockundo ∧
      disconnectBlock b (.child genesis b.toCBlockHeader) data' true view' = .ok (view'', true) ∧
      Equiv view'' view := by
  intro view b
  obtain ⟨view', h⟩ := exists_ok_of_isOk (x := (connectBlock env b
    (.child genesis b.toCBlockHeader) (some 1) .unconnected view false).2) (by decide +kernel)
  have hheights : view.HasHeights := by
    intro txid hpruned
    by_cases ht : txid = 7
    · simp [coinsAt, view, ht]
    · have hnone : view.coins txid = none := if_neg ht
      rw [coinsAt, hnone] at hpruned
      cases hpruned
  have hprev : (CBlockIndex.child genesis b.toCBlockHeader).pprev = some genesis := rfl
  obtain ⟨blockundo, -, hstore, hback⟩ := disconnectBlock_connectBlock hheights (by decide) hprev
    (by decide) (Prod.ext rfl h)
  obtain ⟨hhave, hundo⟩ := hstore rfl
  obtain ⟨view'', hdis, hequiv⟩ := hback _ hhave hundo
  exact ⟨_, view', blockundo, view'', Prod.ext rfl h, hundo, hdis, hequiv⟩

end Terracoin
