import Terracoin.Validation.DisconnectBlock

/-!
# Single outputs

What connecting and disconnecting blocks does to one output, and to the question whether a
transaction has outputs left. `Applied` describes a transaction that is connected, and `Undone`
transactions that have been disconnected cleanly.
-/

namespace Terracoin

open Checked

namespace CoinsView

variable {view w : CoinsView} {o : COutPoint} {txid : uint256}

/-- The output is there and not spent. -/
def Unspent (view : CoinsView) (o : COutPoint) : Prop :=
  ∃ out, (view.coinsAt o.hash).output o.n.toNat = some out

instance : Decidable (view.Unspent o) :=
  decidable_of_iff (((view.coinsAt o.hash).output o.n.toNat).isSome = true) Option.isSome_iff_exists

theorem unspent_congr (h : ∀ txid, view.coinsAt txid = w.coinsAt txid) :
    view.Unspent o ↔ w.Unspent o := by
  rw [Unspent, Unspent, h]

theorem unspent_dropPruned : view.dropPruned.Unspent o ↔ view.Unspent o := by
  rw [Unspent, Unspent, coinsAt_dropPruned.output]

theorem isPruned_dropPruned :
    (view.dropPruned.coinsAt txid).isPruned = (view.coinsAt txid).isPruned :=
  coinsAt_dropPruned.isPruned

theorem Unspent.isPruned (h : view.Unspent o) : (view.coinsAt o.hash).isPruned = false :=
  CCoins.isPruned_eq_false_of_output h.choose_spec

theorem unspent_setCoins_of_ne {coins : CCoins} (h : o.hash ≠ txid) :
    (view.setCoins txid coins).Unspent o ↔ view.Unspent o := by
  rw [Unspent, Unspent, coinsAt_setCoins_of_ne h]

end CoinsView

open CoinsView

/-! ## Connecting -/

section Connect

variable [Hashing] {nHeight : Int} {view view' u v w : CoinsView} {tx : CTransaction}
  {vtx txs txs' : List CTransaction}

/-- The effect of a transaction that is connected: what it spends goes, its own outputs come. -/
structure Applied (view : CoinsView) (tx : CTransaction) (view' : CoinsView) : Prop where
  keeps : ∀ o, view.Unspent o → view'.Unspent o ∨ ∃ txin ∈ tx.vin, txin.prevout = o
  own : ∀ o : COutPoint, o.hash = tx.getHash → o.n.toNat < tx.vout.length → view'.Unspent o
  records : ∀ txid, (view'.coinsAt txid).isPruned = false →
    txid = tx.getHash ∨ (view.coinsAt txid).isPruned = false

omit [Hashing] in
theorem unspent_spendInput {txin : CTxIn} {undo : CTxInUndo} {o : COutPoint}
    (h : CTransaction.spendInput view txin = .ok (view', undo)) (ho : view.Unspent o) :
    view'.Unspent o ∨ txin.prevout = o := by
  obtain ⟨coins, hspend, rfl⟩ := CTransaction.spendInput_ok.mp h
  by_cases hhash : o.hash = txin.prevout.hash
  · by_cases hn : o.n.toNat = txin.prevout.n.toNat
    · exact .inr (COutPoint.mk.injEq .. ▸ ⟨hhash.symm, (UInt32.toNat_inj.mp hn).symm⟩)
    · obtain ⟨out, hout⟩ := ho
      refine .inl ⟨out, ?_⟩
      rw [hhash, coinsAt_setCoins_self, (CCoins.spent_of_spend hspend).output, if_neg hn, ← hhash]
      exact hout
  · exact .inl ((unspent_setCoins_of_ne hhash).mpr ho)

omit [Hashing] in
theorem unspent_spendInputs {undos : List CTxInUndo} {o : COutPoint}
    (h : tx.spendInputs view = .ok (view', undos)) (ho : view.Unspent o) :
    view'.Unspent o ∨ ∃ txin ∈ tx.vin, txin.prevout = o := by
  unfold CTransaction.spendInputs at h
  split at h
  · obtain ⟨rfl, -⟩ := Prod.mk.inj (Except.ok.inj h)
    exact .inl ho
  · revert h
    generalize tx.vin = vin
    intro h
    induction vin generalizing view undos with
    | nil =>
      obtain ⟨rfl, -⟩ := Prod.mk.inj (UndoLog.applyAll_nil.mp h)
      exact .inl ho
    | cons txin vin ih =>
      obtain ⟨view1, undo, undos', h1, h2, -⟩ := UndoLog.applyAll_cons.mp h
      rcases unspent_spendInput h1 ho with ho1 | rfl
      · refine (ih ho1 h2).imp_right ?_
        rintro ⟨txin', hmem, rfl⟩
        exact ⟨txin', List.mem_cons_of_mem _ hmem, rfl⟩
      · exact .inr ⟨txin, List.mem_cons_self, rfl⟩

theorem applied_of_applyTransaction {txundo : Option CTxUndo} (hchecked : tx.Checked)
    (hpruned : (view.coinsAt tx.getHash).isPruned = true)
    (h : applyTransaction nHeight view tx = .ok (view', txundo)) : Applied view tx view' := by
  obtain ⟨undo, hupdate, -⟩ := applyTransaction_ok.mp h
  obtain ⟨spent, hspend, rfl⟩ := CTransaction.updateCoins_ok.mp hupdate
  refine ⟨fun o ho => ?_, fun o hhash hlt => ?_, fun txid hrecord => ?_⟩
  · have hne : o.hash ≠ tx.getHash := by
      intro hhash
      rw [← hhash, ho.isPruned] at hpruned
      cases hpruned
    rw [unspent_setCoins_of_ne hne]
    exact unspent_spendInputs hspend ho
  · have hout := List.getElem?_eq_getElem hlt
    refine ⟨tx.vout[o.n.toNat], ?_⟩
    rw [hhash, coinsAt_setCoins_self]
    exact CCoins.output_eq_some.mpr ⟨hout,
      CTxOut.isNull_of_nonneg (hchecked.value_range _ (List.getElem_mem hlt)).1⟩
  · by_cases hid : txid = tx.getHash
    · exact .inl hid
    · rw [coinsAt_setCoins_of_ne hid] at hrecord
      refine .inr (Bool.eq_false_iff.mpr fun hp => ?_)
      rw [(CTransaction.spendInputs_below hspend).isPruned hp] at hrecord
      cases hrecord

/-- Transactions that are connected one after the other. -/
def AppliedAll : CoinsView → List CTransaction → CoinsView → Prop
  | view, [], view' => ∀ txid, view'.coinsAt txid = view.coinsAt txid
  | view, tx :: txs, view' => ∃ view1, Applied view tx view1 ∧ AppliedAll view1 txs view'

theorem Applied.congr (h : Applied u tx w) (hv : ∀ txid, u.coinsAt txid = v.coinsAt txid) :
    Applied v tx w := by
  refine ⟨fun o ho => h.keeps o ((unspent_congr hv).mpr ho), h.own, fun txid hrecord => ?_⟩
  rw [← hv]
  exact h.records txid hrecord

theorem AppliedAll.congr (h : AppliedAll u txs w) (hv : ∀ txid, u.coinsAt txid = v.coinsAt txid) :
    AppliedAll v txs w := by
  cases txs with
  | nil => exact fun txid => (h txid).trans (hv txid)
  | cons tx txs =>
    obtain ⟨u1, happlied, hrest⟩ := h
    exact ⟨u1, happlied.congr hv, hrest⟩

theorem AppliedAll.append (h : AppliedAll u txs v) (h' : AppliedAll v txs' w) :
    AppliedAll u (txs ++ txs') w := by
  induction txs generalizing u with
  | nil => exact h'.congr h
  | cons tx txs ih =>
    obtain ⟨u1, happlied, hrest⟩ := h
    exact ⟨u1, happlied, ih hrest⟩

theorem AppliedAll.records (h : AppliedAll v txs w) {txid : uint256}
    (hrecord : (w.coinsAt txid).isPruned = false) :
    (∃ B ∈ txs, B.getHash = txid) ∨ (v.coinsAt txid).isPruned = false := by
  induction txs generalizing v with
  | nil => exact .inr (h txid ▸ hrecord)
  | cons tx txs ih =>
    obtain ⟨v1, happlied, hrest⟩ := h
    rcases ih hrest with ⟨B, hB, hhash⟩ | hrecord1
    · exact .inl ⟨B, List.mem_cons_of_mem _ hB, hhash⟩
    · exact (happlied.records txid hrecord1).imp_left fun hid =>
        ⟨tx, List.mem_cons_self, hid.symm⟩

theorem appliedAll_of_applyTransactions {undos : List (Option CTxUndo)}
    (hchecked : ∀ tx ∈ vtx, tx.Checked) (hnodup : (vtx.map CTransaction.getHash).Nodup)
    (hpruned : ∀ tx ∈ vtx, (view.coinsAt tx.getHash).isPruned = true)
    (h : applyTransactions nHeight view vtx = .ok (view', undos)) : AppliedAll view vtx view' := by
  induction vtx generalizing view undos with
  | nil =>
    obtain ⟨rfl, -⟩ := Prod.mk.inj (UndoLog.applyAll_nil.mp h)
    exact fun _ => rfl
  | cons tx vtx ih =>
    obtain ⟨view1, txundo, undos', h1, h2, -⟩ := UndoLog.applyAll_cons.mp h
    rw [List.map_cons, List.nodup_cons] at hnodup
    have happlied := applied_of_applyTransaction (hchecked tx List.mem_cons_self)
      (hpruned tx List.mem_cons_self) h1
    refine ⟨view1, happlied, ih (fun t ht => hchecked t (List.mem_cons_of_mem _ ht)) hnodup.2
      (fun t ht => ?_) h2⟩
    -- the transactions still to come have other hashes
    by_contra hrecord
    rcases happlied.records t.getHash (Bool.eq_false_iff.mpr hrecord) with heq | hbefore
    · exact hnodup.1 (heq ▸ List.mem_map_of_mem ht)
    · rw [hpruned t (List.mem_cons_of_mem _ ht)] at hbefore
      cases hbefore

theorem appliedAll_of_connectBlock [ScriptEngine] [NodeConfig] {env : ConnectEnv} {b : CBlock}
    {pindex : CBlockIndex} {phashBlock : Option uint256} {data data' : BlockData}
    (hgenesis : b.getHash ≠ hashGenesisBlock)
    (hbip30 : enforceBIP30 phashBlock pindex.nHeight = true)
    (h : connectBlock env b pindex phashBlock data view false = (data', .ok view')) :
    AppliedAll view b.vtx view' := by
  obtain ⟨hb, -, coins, blockundo, hcoins, rfl, -⟩ := connectBlock_ok hgenesis h
  obtain ⟨undos, hconn, -⟩ := connected_of_connectCoins hb.checked hcoins
  have hall := appliedAll_of_applyTransactions hb.checked hb.nodup (hconn.noOverwrite hbip30)
    hconn.apply
  have hbest : AppliedAll coins [] (coins.setBestBlock (some pindex)) := fun _ => rfl
  have happend := hall.append hbest
  rwa [List.append_nil] at happend

end Connect

/-! ## Disconnecting -/

section Disconnect

variable [Hashing] {nHeight : Int} {view view' u v w : CoinsView} {tx : CTransaction}
  {vtx txs txs' : List CTransaction}

/-- The effect of disconnecting transactions: their outputs go, what they spent comes back. -/
structure Undone (view : CoinsView) (txs : List CTransaction) (view' : CoinsView) : Prop where
  keeps : ∀ o, view.Unspent o →
    view'.Unspent o ∨ ∃ tx ∈ txs, o.hash = tx.getHash ∧ o.n.toNat < tx.vout.length
  records : ∀ txid, (view'.coinsAt txid).isPruned = false → (view.coinsAt txid).isPruned = false ∨
    ∃ tx ∈ txs, ∃ txin ∈ tx.vin, txin.prevout.hash = txid

theorem Undone.of_eq (h : ∀ txid, view'.coinsAt txid = view.coinsAt txid) : Undone view [] view' :=
  ⟨fun _ ho => .inl ((unspent_congr h).mpr ho), fun txid hrecord => .inl (h txid ▸ hrecord)⟩

theorem Undone.trans (h : Undone u txs v) (h' : Undone v txs' w) : Undone u (txs ++ txs') w := by
  refine ⟨fun o ho => ?_, fun txid hrecord => ?_⟩
  · rcases h.keeps o ho with hv | ⟨tx, hmem, hown⟩
    · refine (h'.keeps o hv).imp_right ?_
      rintro ⟨tx, hmem, hown⟩
      exact ⟨tx, List.mem_append_right _ hmem, hown⟩
    · exact .inr ⟨tx, List.mem_append_left _ hmem, hown⟩
  · rcases h'.records txid hrecord with hv | ⟨tx, hmem, hspent⟩
    · refine (h.records txid hv).imp_right ?_
      rintro ⟨tx, hmem, hspent⟩
      exact ⟨tx, List.mem_append_left _ hmem, hspent⟩
    · exact .inr ⟨tx, List.mem_append_right _ hmem, hspent⟩

theorem Undone.mono (h : Undone u txs v) (hsub : ∀ tx ∈ txs, tx ∈ txs') : Undone u txs' v := by
  refine ⟨fun o ho => (h.keeps o ho).imp_right ?_, fun txid hr => (h.records txid hr).imp_right ?_⟩
  · rintro ⟨tx, hmem, hown⟩
    exact ⟨tx, hsub tx hmem, hown⟩
  · rintro ⟨tx, hmem, hspent⟩
    exact ⟨tx, hsub tx hmem, hspent⟩

omit [Hashing] in
/-- An input that is put back cleanly takes the place of no output. -/
theorem restoreInput_clean {txin : CTxIn} {undo : CTxInUndo}
    (h : restoreInput view txin undo = .ok (view', true)) :
    (∀ o, view.Unspent o → view'.Unspent o) ∧
      ∀ txid, (view'.coinsAt txid).isPruned = false →
        (view.coinsAt txid).isPruned = false ∨ txin.prevout.hash = txid := by
  obtain ⟨rfl, hclean⟩ := Prod.mk.inj (Except.ok.inj h)
  obtain ⟨hpruned, hnone⟩ := CCoins.restore_clean.mp hclean
  refine ⟨fun o ho => ?_, fun txid hrecord => ?_⟩
  · by_cases hhash : o.hash = txin.prevout.hash
    · obtain ⟨out, hout⟩ := ho
      rw [hhash] at hout
      by_cases hheight : undo.nHeight ≠ 0
      · rw [if_pos hheight, CCoins.isPruned_iff] at hpruned
        rw [hpruned] at hout
        cases hout
      · rw [CCoins.restoreBase, if_neg hheight] at hnone
        have hn : o.n.toNat ≠ txin.prevout.n.toNat := by
          intro hn
          rw [hn, hnone] at hout
          cases hout
        refine ⟨out, ?_⟩
        rw [hhash, coinsAt_setCoins_self, CCoins.restore, if_neg hheight]
        exact (CCoins.put_output_of_ne undo.txout hn).trans hout
    · exact (unspent_setCoins_of_ne hhash).mpr ho
  · by_cases hid : txid = txin.prevout.hash
    · exact .inr hid.symm
    · rw [coinsAt_setCoins_of_ne hid] at hrecord
      exact .inl hrecord

theorem undone_disconnectTransaction {txundo : Option CTxUndo}
    (h : disconnectTransaction nHeight view tx txundo = .ok (view', true)) :
    Undone view [tx] view' := by
  have hclear : view.coinsAt tx.getHash = CCoins.ofTx tx nHeight →
      Undone view [tx] (view.setCoins tx.getHash CCoins.empty) := by
    intro houts
    refine ⟨fun o ho => ?_, fun txid hrecord => ?_⟩
    · by_cases hhash : o.hash = tx.getHash
      · obtain ⟨out, hout⟩ := ho
        rw [hhash, houts, CCoins.output_eq_some] at hout
        exact .inr ⟨tx, List.mem_singleton_self _, hhash,
          (List.getElem?_eq_some_iff.mp hout.1).1⟩
      · exact .inl ((unspent_setCoins_of_ne hhash).mpr ho)
    · by_cases hid : txid = tx.getHash
      · rw [hid, coinsAt_setCoins_self] at hrecord
        cases hrecord
      · rw [coinsAt_setCoins_of_ne hid] at hrecord
        exact .inl hrecord
  unfold disconnectTransaction at h
  cases txundo with
  | none =>
    obtain ⟨rfl, hclean⟩ := Prod.mk.inj (Except.ok.inj h)
    rw [Bool.and_eq_true, beq_iff_eq] at hclean
    exact hclear hclean.2
  | some txundo =>
    simp only [bind_ok, require_ok, pure_ok, Prod.exists, Prod.mk.injEq, Bool.and_eq_true,
      beq_iff_eq] at h
    obtain ⟨_, -, view1, fClean, hrevert, rfl, ⟨-, houts⟩, rfl⟩ := h
    refine UndoLog.revertAll_clean_invariant (P := fun v => Undone view [tx] v)
      (fun v txin hmem undo v' hv hstep => ?_) (hclear houts) hrevert
    obtain ⟨hkeeps, hrecords⟩ := restoreInput_clean hstep
    refine ⟨fun o ho => (hv.keeps o ho).imp_left (hkeeps o), fun txid hrecord => ?_⟩
    rcases hrecords txid hrecord with hbefore | hid
    · exact hv.records txid hbefore
    · exact .inr ⟨tx, List.mem_singleton_self _, txin, hmem, hid⟩

theorem undone_disconnectBlock {b : CBlock} {pindex : CBlockIndex} {data : BlockData}
    {fReadUndo : Bool} (h : disconnectBlock b pindex data fReadUndo view = .ok (view', true)) :
    Undone view b.vtx view' := by
  obtain ⟨-, -, pprev, blockUndo, coins, -, -, -, -, hrevert, rfl⟩ := disconnectBlock_ok.mp h
  have hall : Undone view b.vtx coins := by
    refine UndoLog.revertAll_clean_invariant (P := fun v => Undone view b.vtx v)
      (fun v tx hmem txundo v' hv hstep => ?_) ?_ hrevert
    · refine (hv.trans (undone_disconnectTransaction hstep)).mono fun t ht => ?_
      rcases List.mem_append.mp ht with ht | ht
      · exact ht
      · exact List.mem_singleton.mp ht ▸ hmem
    · exact (Undone.of_eq fun _ => rfl).mono nofun
  have hbest : Undone coins [] (coins.setBestBlock (some pprev)) := .of_eq fun _ => rfl
  have hboth := hall.trans hbest
  rwa [List.append_nil] at hboth

end Disconnect

/-! ## Entries -/

section Entries

/-- Every entry of the one view has one in the other. -/
def Kept (view view' : CoinsView) : Prop :=
  ∀ txid, view.haveCoins txid = true → view'.haveCoins txid = true

variable {nHeight : Int} {view view' u v w : CoinsView} {tx : CTransaction}
  {vtx : List CTransaction}

theorem Kept.refl (view : CoinsView) : Kept view view := fun _ h => h

theorem Kept.trans (h : Kept u v) (h' : Kept v w) : Kept u w := fun txid hu => h' txid (h txid hu)

theorem haveCoins_setCoins_self {txid : uint256} {coins : CCoins} :
    (view.setCoins txid coins).haveCoins txid = true := by
  have hself : (view.setCoins txid coins).coins txid = some coins := Function.update_self _ _ _
  rw [CoinsView.haveCoins, hself]
  rfl

theorem kept_setCoins (txid : uint256) (coins : CCoins) : Kept view (view.setCoins txid coins) := by
  intro txid' h
  by_cases hid : txid' = txid
  · rw [hid]
    exact haveCoins_setCoins_self
  · have hother : (view.setCoins txid coins).coins txid' = view.coins txid' :=
      Function.update_of_ne hid _ _
    rw [CoinsView.haveCoins, hother]
    exact h

variable [Hashing]

theorem kept_applyTransaction {txundo : Option CTxUndo}
    (h : applyTransaction nHeight view tx = .ok (view', txundo)) : Kept view view' := by
  obtain ⟨undo, hupdate, -⟩ := applyTransaction_ok.mp h
  obtain ⟨spent, hspend, rfl⟩ := CTransaction.updateCoins_ok.mp hupdate
  refine Kept.trans ?_ (kept_setCoins _ _)
  unfold CTransaction.spendInputs at hspend
  split at hspend
  · obtain ⟨rfl, -⟩ := Prod.mk.inj (Except.ok.inj hspend)
    exact .refl view
  · refine UndoLog.applyAll_invariant (P := fun v => Kept view v) (fun v txin v' undo hv hstep => ?_)
      (.refl view) hspend
    obtain ⟨coins, -, rfl⟩ := CTransaction.spendInput_ok.mp hstep
    exact hv.trans (kept_setCoins _ _)

theorem kept_connectBlock [ScriptEngine] [NodeConfig] {env : ConnectEnv} {b : CBlock}
    {pindex : CBlockIndex} {phashBlock : Option uint256} {data data' : BlockData}
    (h : connectBlock env b pindex phashBlock data view false = (data', .ok view')) :
    Kept view view' := by
  by_cases hgenesis : b.getHash = hashGenesisBlock
  · obtain ⟨-, rfl⟩ := connectBlock_ok_genesis hgenesis h
    exact fun _ h => h
  · obtain ⟨hb, -, coins, blockundo, hcoins, rfl, -⟩ := connectBlock_ok hgenesis h
    obtain ⟨undos, hconn, -⟩ := connected_of_connectCoins hb.checked hcoins
    have hall : Kept view coins := UndoLog.applyAll_invariant (P := fun v => Kept view v)
      (fun v tx v' undo hv hstep => hv.trans (kept_applyTransaction hstep)) (.refl view) hconn.apply
    exact hall

/-- A disconnected transaction leaves an entry without outputs. -/
theorem kept_disconnectTransaction {txundo : Option CTxUndo} {fClean : Bool}
    (h : disconnectTransaction nHeight view tx txundo = .ok (view', fClean)) :
    Kept view view' ∧ view'.haveCoins tx.getHash = true := by
  have hclear : Kept view (view.setCoins tx.getHash CCoins.empty) := kept_setCoins _ _
  unfold disconnectTransaction at h
  cases txundo with
  | none =>
    obtain ⟨rfl, -⟩ := Prod.mk.inj (Except.ok.inj h)
    exact ⟨hclear, haveCoins_setCoins_self⟩
  | some txundo =>
    simp only [bind_ok, require_ok, pure_ok, Prod.exists, Prod.mk.injEq] at h
    obtain ⟨_, -, view1, fClean1, hrevert, rfl, -⟩ := h
    have hrest : Kept (view.setCoins tx.getHash CCoins.empty) view1 := by
      refine UndoLog.revertAll_invariant
        (P := fun v => Kept (view.setCoins tx.getHash CCoins.empty) v) (Q := fun _ => True)
        (fun v txin undo v' b _ hv hstep => ?_) (fun _ _ => trivial) (.refl _) hrevert
      obtain ⟨rfl, -⟩ := Prod.mk.inj (Except.ok.inj hstep)
      exact hv.trans (kept_setCoins _ _)
    exact ⟨hclear.trans hrest, hrest _ haveCoins_setCoins_self⟩

/-- All transactions that were disconnected have an entry afterwards. -/
theorem kept_revertAll {nHeight : Nat} {vtx : List CTransaction} {undos : List (Option CTxUndo)}
    {fClean : Bool} (hlen : undos.length = vtx.length)
    (h : UndoLog.revertAll (disconnectTransaction nHeight) view vtx undos = .ok (view', fClean)) :
    Kept view view' ∧ ∀ tx ∈ vtx, view'.haveCoins tx.getHash = true := by
  induction vtx generalizing undos view' fClean with
  | nil =>
    obtain ⟨rfl, -⟩ := UndoLog.revertAll_nil.mp h
    exact ⟨.refl view, fun tx htx => absurd htx List.not_mem_nil⟩
  | cons tx vtx ih =>
    cases undos with
    | nil => cases hlen
    | cons undo undos =>
      obtain ⟨w1, b1, b2, h1, h2, -⟩ := UndoLog.revertAll_cons.mp h
      obtain ⟨hkept1, hall⟩ := ih (Nat.succ.inj hlen) h1
      obtain ⟨hkept2, hown⟩ := kept_disconnectTransaction h2
      refine ⟨hkept1.trans hkept2, List.forall_mem_cons.mpr ⟨hown, fun t ht => ?_⟩⟩
      exact hkept2 _ (hall t ht)

theorem kept_disconnectBlock {b : CBlock} {pindex : CBlockIndex} {data : BlockData}
    {fReadUndo fClean : Bool}
    (h : disconnectBlock b pindex data fReadUndo view = .ok (view', fClean)) :
    Kept view view' ∧ ∀ tx ∈ b.vtx, view'.haveCoins tx.getHash = true := by
  obtain ⟨-, -, pprev, blockUndo, coins, -, -, -, hlen, hrevert, rfl⟩ := disconnectBlock_ok.mp h
  have hlen' : (none :: blockUndo.vtxundo.map some).length = b.vtx.length := by
    rw [List.length_cons, List.length_map, hlen]
  have hkept := kept_revertAll hlen' hrevert
  exact hkept

end Entries

end Terracoin
