import Terracoin.Validation.DisconnectBlock
import Terracoin.Coins.Value

/-!
# Value flow through transactions and blocks

How the transactions of a block move value: a transaction takes the value of its inputs out of
the view and puts the value of its outputs in, so a block adds to the total at most what its
coinbase pays beyond the fees (`total_applyTransactions`).

The second part compares runs on different views. What a block does on a view it also does on
every larger one, with the same outputs spent (`applyTransactions_below`), and taking a block
back, with undo records of these outputs, from a view below the result of the block gives a view
below the one from before (`disconnectTransactions_below`). Whether the reversal was clean does
not matter.
-/

namespace Terracoin

open Checked CoinsView CTransaction

/-! ## Value -/

theorem total_spendInput {s s' : CoinsView} {txin : CTxIn} {undo : CTxInUndo}
    (h : spendInput s txin = .ok (s', undo)) : s'.total = s.total - undo.txout.nValue := by
  obtain ⟨coins, hspend, rfl⟩ := spendInput_ok.mp h
  rw [total_setCoins, (CCoins.spent_of_spend hspend).value]
  omega

theorem total_applyAll_spendInput {s s' : CoinsView} {vin : List CTxIn} {undos : List CTxInUndo}
    (h : UndoLog.applyAll spendInput s vin = .ok (s', undos)) :
    s'.total = s.total - undoValue undos := by
  induction vin generalizing s undos with
  | nil =>
    obtain ⟨rfl, rfl⟩ := Prod.mk.inj (UndoLog.applyAll_nil.mp h)
    simp [undoValue]
  | cons txin vin ih =>
    obtain ⟨s1, undo, undos', h1, h2, rfl⟩ := UndoLog.applyAll_cons.mp h
    rw [ih h2, total_spendInput h1]
    simp only [undoValue, List.map_cons, List.sum_cons]
    omega

/-- The value that enters with a transaction from nowhere. -/
def coinbaseValue (tx : CTransaction) : Int := if tx.isCoinBase then tx.valueOut else 0

section Transactions

variable {nHeight : Int}

/-- A transaction changes the total by its coinbase value less its fee, or makes it smaller
where it takes the place of available outputs. -/
theorem total_applyTransaction [Hashing] {s s' : CoinsView} {tx : CTransaction} {txundo : Option CTxUndo}
    (hs : s.NonNeg) (hchecked : tx.Checked)
    (h : applyTransaction nHeight s tx = .ok (s', txundo)) :
    s'.NonNeg ∧ s'.total + feeOf tx txundo ≤ s.total + coinbaseValue tx := by
  obtain ⟨undo, hupdate, rfl⟩ := applyTransaction_ok.mp h
  obtain ⟨view, hspend, rfl⟩ := updateCoins_ok.mp hupdate
  have hview : view.NonNeg := hs.of_below (spendInputs_below hspend)
  refine ⟨hview.setCoins (CCoins.ofTx_nonNeg hchecked), ?_⟩
  have hold := (hview tx.getHash).value
  rw [total_setCoins, CCoins.ofTx_value hchecked]
  unfold spendInputs at hspend
  cases hcb : tx.isCoinBase with
  | true =>
    rw [if_pos hcb] at hspend
    obtain ⟨rfl, -⟩ := Prod.mk.inj (Except.ok.inj hspend)
    simp only [coinbaseValue, hcb, if_true, feeOf]
    omega
  | false =>
    rw [if_neg (by simp [hcb])] at hspend
    have htotal := total_applyAll_spendInput hspend
    simp only [coinbaseValue, hcb, Bool.false_eq_true, if_false, feeOf]
    omega

theorem total_applyTransactions [Hashing] {s s' : CoinsView} {vtx : List CTransaction}
    {undos : List (Option CTxUndo)} (hs : s.NonNeg) (hchecked : ∀ tx ∈ vtx, tx.Checked)
    (h : applyTransactions nHeight s vtx = .ok (s', undos)) :
    s'.NonNeg ∧ s'.total + feesOf vtx undos ≤ s.total + (vtx.map coinbaseValue).sum := by
  induction vtx generalizing s undos with
  | nil =>
    obtain ⟨rfl, rfl⟩ := Prod.mk.inj (UndoLog.applyAll_nil.mp h)
    exact ⟨hs, by simp [feesOf]⟩
  | cons tx vtx ih =>
    obtain ⟨s1, txundo, undos', h1, h2, rfl⟩ := UndoLog.applyAll_cons.mp h
    obtain ⟨hs1, htotal1⟩ := total_applyTransaction hs (hchecked tx List.mem_cons_self) h1
    obtain ⟨hs', htotal'⟩ := ih hs1 (fun t ht => hchecked t (List.mem_cons_of_mem _ ht)) h2
    refine ⟨hs', ?_⟩
    simp only [feesOf, List.zipWith_cons_cons, List.sum_cons, List.map_cons] at htotal' ⊢
    omega

theorem coinbaseValue_sum {cb : CTransaction} {rest : List CTransaction}
    (hcb : cb.isCoinBase = true) (hrest : ∀ tx ∈ rest, tx.isCoinBase = false) :
    ((cb :: rest).map coinbaseValue).sum = cb.valueOut := by
  have hzero : (rest.map coinbaseValue).sum = 0 := by
    apply List.sum_eq_zero
    intro v hv
    obtain ⟨tx, htx, rfl⟩ := List.mem_map.mp hv
    simp [coinbaseValue, hrest tx htx]
  simp [hzero, coinbaseValue, hcb]

/-! ## The same block on a larger view -/

/-- Undo records of the same outputs; their metadata may differ. -/
def SameTxouts : List CTxInUndo → List CTxInUndo → Prop :=
  List.Forall₂ fun u v => u.txout = v.txout

def SameTxTxouts (u v : Option CTxUndo) : Prop :=
  Option.Rel (fun a b => SameTxouts a.vprevout b.vprevout) u v

theorem SameTxouts.undoValue {us vs : List CTxInUndo} (h : SameTxouts us vs) :
    undoValue us = undoValue vs := by
  induction h with
  | nil => rfl
  | cons huv _ ih =>
    simp only [CTransaction.undoValue, List.map_cons, List.sum_cons] at ih ⊢
    rw [huv, ih]

theorem feesOf_congr {vtx : List CTransaction} {us vs : List (Option CTxUndo)}
    (h : List.Forall₂ SameTxTxouts us vs) : feesOf vtx us = feesOf vtx vs := by
  induction h generalizing vtx with
  | nil => rfl
  | cons huv _ ih =>
    cases vtx with
    | nil => rfl
    | cons tx vtx =>
      have hfee : ∀ u v, SameTxTxouts u v → feeOf tx u = feeOf tx v := by
        intro u v huv
        cases huv with
        | none => rfl
        | some h => simp only [feeOf, h.undoValue]
      simp only [feesOf, List.zipWith_cons_cons, List.sum_cons] at ih ⊢
      rw [hfee _ _ huv, ih]

theorem spendInput_of_below {w v w' : CoinsView} {txin : CTxIn} {undo : CTxInUndo}
    (hb : Below w v) (h : spendInput w txin = .ok (w', undo)) :
    ∃ v' undo', spendInput v txin = .ok (v', undo') ∧ Below w' v' ∧ undo.txout = undo'.txout := by
  obtain ⟨coins, hspend, rfl⟩ := spendInput_ok.mp h
  have hw := CCoins.spent_of_spend hspend
  have hout := hb _ _ _ hw.txout
  obtain ⟨v', undo', hv⟩ := spendInput_of_haveInput (haveInput_iff.mpr ⟨_, hout⟩)
  obtain ⟨coins', hspend', rfl⟩ := spendInput_ok.mp hv
  have hv' := CCoins.spent_of_spend hspend'
  refine ⟨_, undo', hv, ?_, ?_⟩
  · intro txid n out hn
    by_cases ht : txid = txin.prevout.hash
    · subst ht
      rw [coinsAt_setCoins_self, hw.output] at hn
      rw [coinsAt_setCoins_self, hv'.output]
      split at hn
      · cases hn
      · rw [if_neg ‹_›]
        exact hb _ _ _ hn
    · rw [coinsAt_setCoins_of_ne ht] at hn ⊢
      exact hb txid n out hn
  · rw [hv'.txout, Option.some.injEq] at hout
    exact hout.symm

theorem applyTransaction_below [Hashing] {w v w' : CoinsView} {tx : CTransaction} {txundo : Option CTxUndo}
    (hb : Below w v) (h : applyTransaction nHeight w tx = .ok (w', txundo)) :
    ∃ v' txundo', applyTransaction nHeight v tx = .ok (v', txundo') ∧ Below w' v' ∧
      SameTxTxouts txundo txundo' := by
  obtain ⟨undo, hupdate, rfl⟩ := applyTransaction_ok.mp h
  obtain ⟨view, hspend, rfl⟩ := updateCoins_ok.mp hupdate
  have hspend' : ∃ view' undos', tx.spendInputs v = .ok (view', undos') ∧ Below view view' ∧
      SameTxouts undo.vprevout undos' := by
    unfold spendInputs at hspend ⊢
    split at hspend
    · rename_i hcb
      obtain ⟨rfl, hnil⟩ := Prod.mk.inj (Except.ok.inj hspend)
      rw [← hnil]
      exact ⟨v, [], if_pos hcb, hb, .nil⟩
    · rename_i hcb
      rw [if_neg hcb]
      refine UndoLog.applyAll_sim ?_ hb hspend
      exact fun _ _ _ _ _ hR h => spendInput_of_below hR h
  obtain ⟨view', undos', hv, hbelow, hsame⟩ := hspend'
  refine ⟨_, _, applyTransaction_ok.mpr ⟨⟨undos'⟩, updateCoins_ok.mpr ⟨view', hv, rfl⟩, rfl⟩, ?_, ?_⟩
  · intro txid n out hn
    by_cases ht : txid = tx.getHash
    · subst ht
      rw [coinsAt_setCoins_self] at hn ⊢
      exact hn
    · rw [coinsAt_setCoins_of_ne ht] at hn ⊢
      exact hbelow txid n out hn
  · split
    · exact .none
    · exact .some hsame

theorem applyTransactions_below [Hashing] {w v w' : CoinsView} {vtx : List CTransaction}
    {undos : List (Option CTxUndo)} (hb : Below w v)
    (h : applyTransactions nHeight w vtx = .ok (w', undos)) :
    ∃ v' undos', applyTransactions nHeight v vtx = .ok (v', undos') ∧ Below w' v' ∧
      List.Forall₂ SameTxTxouts undos undos' := by
  refine UndoLog.applyAll_sim ?_ hb h
  exact fun _ _ _ _ _ hR h => applyTransaction_below hR h

theorem restoreInput_below {s s' w w' : CoinsView} {txin : CTxIn} {undo undo' : CTxInUndo}
    {b : Bool} (h : spendInput s txin = .ok (s', undo)) (hq : undo'.txout = undo.txout)
    (hw : Below w s') (hrev : restoreInput w txin undo' = .ok (w', b)) : Below w' s := by
  obtain ⟨coins, hspend, rfl⟩ := spendInput_ok.mp h
  have hspent := CCoins.spent_of_spend hspend
  obtain ⟨rfl, -⟩ := Prod.mk.inj (Except.ok.inj hrev)
  intro txid n out hn
  by_cases ht : txid = txin.prevout.hash
  · subst ht
    rw [coinsAt_setCoins_self, CCoins.restore_output (hq ▸ hspent.txout_isNull)] at hn
    split at hn
    · rename_i he
      rw [he, hspent.txout, ← hn, hq]
    · rename_i hne
      unfold CCoins.restoreBase at hn
      split at hn
      · cases hn
      · have := hw _ _ _ hn
        rwa [coinsAt_setCoins_self, hspent.output, if_neg hne] at this
  · rw [coinsAt_setCoins_of_ne ht] at hn
    have := hw txid n out hn
    rwa [coinsAt_setCoins_of_ne ht] at this

theorem disconnectTransaction_below [Hashing] {s s' w w' : CoinsView} {tx : CTransaction}
    {txundo txundo' : Option CTxUndo} {b : Bool}
    (h : applyTransaction nHeight s tx = .ok (s', txundo)) (hq : SameTxTxouts txundo' txundo)
    (hw : Below w s') (hrev : disconnectTransaction nHeight w tx txundo' = .ok (w', b)) :
    Below w' s := by
  obtain ⟨undo, hupdate, rfl⟩ := applyTransaction_ok.mp h
  obtain ⟨view, hspend, rfl⟩ := updateCoins_ok.mp hupdate
  have hview : Below (w.setCoins tx.getHash CCoins.empty) view := by
    intro txid n out hn
    by_cases ht : txid = tx.getHash
    · subst ht
      rw [coinsAt_setCoins_self, CCoins.output_empty] at hn
      cases hn
    · rw [coinsAt_setCoins_of_ne ht] at hn
      have := hw txid n out hn
      rwa [coinsAt_setCoins_of_ne ht] at this
  unfold disconnectTransaction at hrev
  cases txundo' with
  | none =>
    obtain ⟨rfl, -⟩ := Prod.mk.inj (Except.ok.inj hrev)
    exact hview.trans (spendInputs_below hspend)
  | some txundo' =>
    simp only [bind_ok, require_ok, pure_ok, Prod.exists, Prod.mk.injEq] at hrev
    obtain ⟨_, -, v, _, hrev, rfl, -⟩ := hrev
    unfold spendInputs at hspend
    split at hspend
    · rename_i hcb
      rw [if_pos hcb] at hq
      cases hq
    · rename_i hcb
      rw [if_neg hcb] at hq
      cases hq with
      | some hq =>
        refine UndoLog.revertAll_rel (R := Below) (Q := fun u v : CTxInUndo => u.txout = v.txout) ?_
          hspend hq hview hrev
        exact fun _ _ _ _ _ _ _ _ h hq hw hrev => restoreInput_below h hq hw hrev

/-- A block that is taken back, cleanly or not, from a view below its result leaves a view below
the one it was connected to. -/
theorem disconnectTransactions_below [Hashing] {s s' w w' : CoinsView} {vtx : List CTransaction}
    {undos undos' : List (Option CTxUndo)} {b : Bool}
    (h : applyTransactions nHeight s vtx = .ok (s', undos))
    (hq : List.Forall₂ SameTxTxouts undos' undos) (hw : Below w s')
    (hrev : UndoLog.revertAll (disconnectTransaction nHeight) w vtx undos' = .ok (w', b)) :
    Below w' s := by
  refine UndoLog.revertAll_rel (R := Below) (Q := SameTxTxouts) ?_ h hq hw hrev
  exact fun _ _ _ _ _ _ _ _ h hq hw hrev => disconnectTransaction_below h hq hw hrev

end Transactions

end Terracoin
