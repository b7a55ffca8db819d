import Terracoin.Validation.Congruence

/-!
# Disconnecting on a view that means the same

`DisconnectBlock` is exact about trimmed vectors, so it takes back a block not only on the view that
`ConnectBlock` left but on every view that means the same, as long as its entries are trimmed
(`disconnectBlock_connected`). The views of a node are: `ConnectBlock` and `DisconnectBlock` keep
their entries trimmed and with a height (`Regular`).
-/

namespace Terracoin

open Checked CoinsView

namespace CoinsView

/-- Every entry is trimmed, and has a height if it has an output. -/
structure Regular (view : CoinsView) : Prop where
  trimmed : ∀ txid, (view.coinsAt txid).Trimmed
  hasHeights : view.HasHeights

variable {v w : CoinsView}

theorem regular_empty : empty.Regular :=
  ⟨fun _ => rfl, fun _ h => absurd h (by simp [coinsAt, empty, CCoins.isPruned_empty])⟩

theorem Regular.setBestBlock (h : v.Regular) (p : Option CBlockIndex) :
    (v.setBestBlock p).Regular := ⟨h.trimmed, h.hasHeights⟩

theorem Equiv.hasHeights (h : Equiv w v) (hv : v.HasHeights) : w.HasHeights := by
  intro txid hpruned
  rw [((h.coins txid).metadata hpruned).2.1]
  exact hv txid ((h.coins txid).isPruned ▸ hpruned)

theorem Regular.setCoins {coins : CCoins} (h : v.Regular) (htrim : coins.Trimmed)
    (hheight : coins.isPruned = false → 1 ≤ coins.nHeight) (txid : uint256) :
    (v.setCoins txid coins).Regular := by
  refine ⟨fun t => ?_, fun t => ?_⟩
  · by_cases ht : t = txid
    · subst ht
      rw [coinsAt_setCoins_self]
      exact htrim
    · rw [coinsAt_setCoins_of_ne ht]
      exact h.trimmed t
  · by_cases ht : t = txid
    · subst ht
      rw [coinsAt_setCoins_self]
      exact hheight
    · rw [coinsAt_setCoins_of_ne ht]
      exact h.hasHeights t

theorem Regular.dropPruned (h : v.Regular) : v.dropPruned.Regular := by
  refine ⟨fun txid => ?_, (equiv_dropPruned v).hasHeights h.hasHeights⟩
  have htrim := h.trimmed txid
  unfold coinsAt at htrim ⊢
  unfold CoinsView.dropPruned
  dsimp only
  cases hc : v.coins txid with
  | none => rfl
  | some c =>
    rw [hc] at htrim
    rw [Option.filter_some]
    split
    · exact htrim
    · rfl

theorem Equiv.restored (h : Equiv w v) (hw : w.Regular) : Restored w v :=
  fun txid => ⟨h.coins txid, fun _ => hw.trimmed txid⟩

end CoinsView

/-! ## Connecting -/

section

variable {v v' w : CoinsView}

theorem regular_spendInput {txin : CTxIn} {undo : CTxInUndo} (hv : v.Regular)
    (h : CTransaction.spendInput v txin = .ok (v', undo)) : v'.Regular := by
  obtain ⟨coins, hspend, rfl⟩ := CTransaction.spendInput_ok.mp h
  have hspent := CCoins.spent_of_spend hspend
  refine hv.setCoins hspent.trimmed (fun _ => ?_) _
  rw [hspent.nHeight]
  exact hv.hasHeights _ hspent.isPruned

theorem regular_spendInputs {tx : CTransaction} {undos : List CTxInUndo} (hv : v.Regular)
    (h : tx.spendInputs v = .ok (v', undos)) : v'.Regular := by
  unfold CTransaction.spendInputs at h
  split at h
  · obtain ⟨rfl, -⟩ := Prod.mk.inj (Except.ok.inj h)
    exact hv
  · exact UndoLog.applyAll_invariant (fun _ _ _ _ => regular_spendInput) hv h

variable [Hashing] {nHeight : Int}

theorem regular_applyTransaction {tx : CTransaction} {txundo : Option CTxUndo}
    (hheight : 1 ≤ nHeight) (htx : tx.Checked) (hv : v.Regular)
    (h : applyTransaction nHeight v tx = .ok (v', txundo)) : v'.Regular := by
  obtain ⟨undo, hupdate, -⟩ := applyTransaction_ok.mp h
  obtain ⟨view, hspend, rfl⟩ := CTransaction.updateCoins_ok.mp hupdate
  exact (regular_spendInputs hv hspend).setCoins (ofTx_trimmed htx) (fun _ => hheight) _

variable [ScriptEngine] [NodeConfig] {b : CBlock} {pindex pprev : CBlockIndex}
  {phashBlock : Option uint256} {coins : CoinsView} {blockundo : CBlockUndo}

theorem regular_connectCoins (hprev : pindex.pprev = some pprev) (hb : b.Checked) (hv : v.Regular)
    (h : connectCoins b pindex phashBlock v = .ok (coins, blockundo)) : coins.Regular := by
  obtain ⟨undos, hconn, -⟩ := connected_of_connectCoins hb.checked h
  have hheight : (1 : Int) ≤ pindex.nHeight := by
    rw [CBlockIndex.nHeight_of_pprev hprev]
    omega
  exact (UndoLog.applyAll_records (Q := fun _ => True) (fun s tx htx s' u hs happly =>
    ⟨regular_applyTransaction hheight (hb.checked tx htx) hs happly, trivial⟩) hv hconn.apply).1

/-- **`DisconnectBlock` undoes `ConnectBlock` on every regular view that means the same.** -/
theorem disconnectBlock_connected (hprev : pindex.pprev = some pprev) (hb : b.Checked)
    (hbip30 : enforceBIP30 phashBlock pindex.nHeight = true) (hv : v.Regular)
    (htip : v.getBestBlock = some pprev)
    (h : connectCoins b pindex phashBlock v = .ok (coins, blockundo))
    {data : BlockData} (hhave : data.nStatus.haveUndo = true) (hundo : data.undo = some blockundo)
    (hequiv : Equiv w (coins.setBestBlock (some pindex))) (hw : w.Regular) :
    ∃ w', disconnectBlock b pindex data true w = .ok (w', true) ∧ Equiv w' v ∧ w'.Regular := by
  obtain ⟨undos, hconn, rfl⟩ := connected_of_connectCoins hb.checked h
  have hheight : (1 : Int) ≤ pindex.nHeight := by
    rw [CBlockIndex.nHeight_of_pprev hprev]
    omega
  have hbefore : BeforeTransactions v b.vtx :=
    ⟨hv.hasHeights, hb.checked, hb.nodup, hconn.noOverwrite hbip30⟩
  have hstart : Restored w coins := hequiv.restored hw
  have hreverse : ∃ w', UndoLog.revertAll (disconnectTransaction pindex.nHeight) w b.vtx undos =
      .ok (w', true) ∧ Restored w' v := by
    apply UndoLog.revertAll_clean (P := BeforeTransactions) (R := Restored) ?_ ?_ hbefore hconn.apply
      hstart
    · exact fun _ _ _ _ _ hP h => beforeTransactions_next hheight hP h
    · exact fun _ _ _ _ _ _ hP h hw => disconnectTransaction_applyTransaction hP h hw
  obtain ⟨w', hrev, hw'⟩ := hreverse
  have hback : Equiv (w'.setBestBlock (some pprev)) v := ⟨fun txid => (hw' txid).1, htip.symm⟩
  rw [applyTransactions_blockUndo hb hconn.apply] at hrev
  refine ⟨w'.setBestBlock (some pprev), ?_, hback, ?_⟩
  · exact disconnectBlock_ok.mpr ⟨hequiv.pindexTip, hhave, pprev, _, w', hprev, rfl, hundo,
      reduceOption_length hb hconn.apply, hrev, rfl⟩
  · exact ⟨fun txid => (hw' txid).2 (hv.trimmed txid), hback.hasHeights hv.hasHeights⟩

end

end Terracoin
