import Terracoin.Validation.Accounting

/-!
# No overflow in `ConnectBlock`

On a view worth at most `maxMoney` none of the 64-bit sums of `ConnectBlock` overflows, whatever
the block (`connectBlock_avoids_overflow`): not the ones of `GetValueIn` and `CheckInputs`, and
not the running total of the fees, although the fee of a transaction is added before
`CheckInputs` has looked at its inputs.

The loop keeps `LoopBounds`: the value of the view and the fees together stay below twice
`maxMoney`, since a transaction turns value into fees and only the coinbase adds any.
-/

namespace Terracoin

open Checked CoinsView CTransaction

/-! ## Checks without sums of inputs -/

theorem checkOutputs_avoids {n : Int} {vout : List CTxOut} :
    Avoids .overflow (checkOutputs n vout) := by
  induction vout generalizing n with
  | nil => exact avoids_ok
  | cons out vout ih =>
    refine avoids_bind (avoids_require (by simp)) fun _ _ => ?_
    refine avoids_bind (avoids_require (by simp)) fun _ _ => ?_
    exact avoids_bind (avoids_require (by simp)) fun _ _ => ih

theorem checkTransaction_avoids {tx : CTransaction} : Avoids .overflow tx.checkTransaction := by
  refine avoids_bind (avoids_require (by simp)) fun _ _ => ?_
  refine avoids_bind (avoids_require (by simp)) fun _ _ => ?_
  refine avoids_bind (avoids_require (by simp)) fun _ _ => ?_
  refine avoids_bind checkOutputs_avoids fun _ _ => ?_
  refine avoids_bind (avoids_require (by simp)) fun _ _ => ?_
  exact avoids_ite (fun _ => avoids_require (by simp)) fun _ => avoids_require (by simp)

theorem checkTransactions_avoids {vtx : List CTransaction} :
    Avoids .overflow (CBlock.checkTransactions vtx) := by
  induction vtx with
  | nil => exact avoids_ok
  | cons tx vtx ih => exact avoids_bind checkTransaction_avoids fun _ _ => ih

theorem checkBlock_avoids [Hashing] {b : CBlock} {t : Int} {fPOW fMerkle : Bool} :
    Avoids .overflow (b.checkBlock t fPOW fMerkle) := by
  refine avoids_bind (avoids_require (by simp)) fun _ _ => ?_
  refine avoids_bind (avoids_require (by simp)) fun _ _ => ?_
  refine avoids_bind (avoids_require (by simp)) fun _ _ => ?_
  refine avoids_bind (avoids_require (by simp)) fun _ _ => ?_
  refine avoids_bind (avoids_require (by simp)) fun _ _ => ?_
  refine avoids_bind (avoids_require (by simp)) fun _ _ => ?_
  refine avoids_bind checkTransactions_avoids fun _ _ => ?_
  refine avoids_bind (avoids_require (by simp)) fun _ _ => ?_
  exact avoids_bind (avoids_require (by simp)) fun _ _ => avoids_require (by simp)

theorem getOutputFor_avoids {inputs : CoinsView} {txin : CTxIn} :
    Avoids .overflow (getOutputFor inputs txin) := by
  refine avoids_bind (avoids_get (by simp)) fun _ _ => ?_
  exact avoids_bind (avoids_require (by simp)) fun _ _ => avoids_get (by simp)

theorem p2shSigOps_avoids {inputs : CoinsView} {vin : List CTxIn} :
    Avoids .overflow (p2shSigOps inputs vin) := by
  induction vin with
  | nil => exact avoids_ok
  | cons txin vin ih =>
    refine avoids_bind getOutputFor_avoids fun _ _ => ?_
    exact avoids_bind ih fun _ _ => avoids_pure

theorem scriptChecks_avoids {tx : CTransaction} {inputs : CoinsView} {flags nIn : Nat}
    {vin : List CTxIn} : Avoids .overflow (scriptChecks tx inputs flags nIn vin) := by
  induction vin generalizing nIn with
  | nil => exact avoids_ok
  | cons txin vin ih =>
    refine avoids_bind (avoids_get (by simp)) fun _ _ => ?_
    refine avoids_bind (avoids_get (by simp)) fun _ _ => ?_
    exact avoids_bind ih fun _ _ => avoids_pure

theorem applyAll_spendInput_avoids {inputs : CoinsView} {vin : List CTxIn} :
    Avoids .overflow (UndoLog.applyAll spendInput inputs vin) := by
  induction vin generalizing inputs with
  | nil => exact avoids_ok
  | cons txin vin ih =>
    refine avoids_bind ?_ fun _ _ => avoids_bind ih fun _ _ => avoids_pure
    refine avoids_bind (avoids_get (by simp)) fun _ _ => ?_
    exact avoids_bind (avoids_get (by simp)) fun _ _ => avoids_pure

theorem applyTransaction_avoids [Hashing] {nHeight : Int} {view : CoinsView} {tx : CTransaction} :
    Avoids .overflow (applyTransaction nHeight view tx) := by
  refine avoids_bind (avoids_bind ?_ fun _ _ => avoids_pure) fun _ _ => avoids_pure
  exact avoids_ite (fun _ => avoids_ok) fun _ => applyAll_spendInput_avoids

/-! ## Sums of inputs -/

theorem int64Range_of_le {x : Int} (h0 : -(2 * maxMoney) ≤ x) (h1 : x ≤ 2 * maxMoney) :
    Int64Range x := by
  rw [maxMoney_eq] at h0 h1
  constructor <;> omega

theorem undos_nonneg {s s' : CoinsView} {vin : List CTxIn} {undos : List CTxInUndo}
    (hs : s.NonNeg) (h : UndoLog.applyAll spendInput s vin = .ok (s', undos)) :
    ∀ undo ∈ undos, 0 ≤ undo.txout.nValue := by
  induction vin generalizing s undos with
  | nil =>
    obtain ⟨-, rfl⟩ := Prod.mk.inj (UndoLog.applyAll_nil.mp h)
    simp
  | cons txin vin ih =>
    obtain ⟨s1, undo, undos', h1, h2, rfl⟩ := UndoLog.applyAll_cons.mp h
    obtain ⟨coins, hspend, -⟩ := spendInput_ok.mp h1
    rw [List.forall_mem_cons]
    exact ⟨hs _ _ _ (CCoins.spent_of_spend hspend).txout, ih (hs.of_below (spendInput_below h1)) h2⟩

theorem undoValue_nonneg {undos : List CTxInUndo}
    (h : ∀ undo ∈ undos, 0 ≤ undo.txout.nValue) : 0 ≤ undoValue undos := by
  apply List.sum_nonneg
  intro v hv
  obtain ⟨undo, hundo, rfl⟩ := List.mem_map.mp hv
  exact h undo hundo

section Sums

variable {inputs view view' : CoinsView} {n : Int} {vin : List CTxIn} {undos : List CTxInUndo}

theorem valueInFrom_avoids (hbelow : Below view inputs)
    (h : UndoLog.applyAll spendInput view vin = .ok (view', undos))
    (hundos : ∀ undo ∈ undos, 0 ≤ undo.txout.nValue) (hn : 0 ≤ n)
    (hmax : n + undoValue undos ≤ 2 * maxMoney) : Avoids .overflow (valueInFrom inputs n vin) := by
  induction vin generalizing n view undos with
  | nil => exact avoids_ok
  | cons txin vin ih =>
    obtain ⟨view1, undo, undos', h1, h2, rfl⟩ := UndoLog.applyAll_cons.mp h
    rw [List.forall_mem_cons] at hundos
    have hrest := undoValue_nonneg hundos.2
    simp only [undoValue, List.map_cons, List.sum_cons] at hmax hrest
    refine avoids_bind getOutputFor_avoids fun out hout => ?_
    obtain ⟨_, hspend, -⟩ := spendInput_ok.mp h1
    have hsame := hbelow _ _ _ (CCoins.spent_of_spend hspend).txout
    rw [getOutputFor_ok.mp hout, Option.some.injEq] at hsame
    subst hsame
    refine avoids_bind (avoids_add64 (int64Range_of_le (by omega) (by omega))) fun r hr => ?_
    obtain ⟨rfl, -⟩ := add64_ok.mp hr
    exact ih ((spendInput_below h1).trans hbelow) h2 hundos.2 (by omega)
      (by simp only [undoValue]; omega)

theorem checkInputValues_avoids {nSpendHeight : Int} (hbelow : Below view inputs)
    (h : UndoLog.applyAll spendInput view vin = .ok (view', undos))
    (hundos : ∀ undo ∈ undos, 0 ≤ undo.txout.nValue) (hn : 0 ≤ n)
    (hmax : n + undoValue undos ≤ 2 * maxMoney) :
    Avoids .overflow (checkInputValues inputs nSpendHeight n vin) := by
  induction vin generalizing n view undos with
  | nil => exact avoids_ok
  | cons txin vin ih =>
    obtain ⟨view1, undo, undos', h1, h2, rfl⟩ := UndoLog.applyAll_cons.mp h
    rw [List.forall_mem_cons] at hundos
    have hrest := undoValue_nonneg hundos.2
    simp only [undoValue, List.map_cons, List.sum_cons] at hmax hrest
    refine avoids_bind (avoids_get (by simp)) fun coins hcoins => ?_
    refine avoids_bind (avoids_require (by simp)) fun _ _ => ?_
    refine avoids_bind (avoids_get (by simp)) fun out hout => ?_
    obtain ⟨_, hspend, -⟩ := spendInput_ok.mp h1
    have hsame := hbelow _ _ _ (CCoins.spent_of_spend hspend).txout
    rw [coinsAt_of_getCoins hcoins] at hsame
    rw [get_ok, (CCoins.output_eq_some.mp hsame).1, Option.some.injEq] at hout
    subst hout
    refine avoids_bind (avoids_add64 (int64Range_of_le (by omega) (by omega))) fun r hr => ?_
    obtain ⟨rfl, -⟩ := add64_ok.mp hr
    refine avoids_bind (avoids_require (by simp)) fun _ _ => ?_
    exact ih ((spendInput_below h1).trans hbelow) h2 hundos.2 (by omega)
      (by simp only [undoValue]; omega)

end Sums

/-! ## The loop -/

/-- What keeps the sums of the loop small. -/
structure LoopBounds (st : ConnectState) : Prop where
  nonNeg : st.view.NonNeg
  nFees_nonneg : 0 ≤ st.nFees
  total_le : st.view.total + st.nFees ≤ 2 * maxMoney

section Loop

variable {params : ConnectParams} {st st' : ConnectState} {tx : CTransaction}

theorem exists_undos (hst : LoopBounds st) (hchecked : tx.Checked)
    (hcb : tx.isCoinBase = false) (hhave : tx.haveInputs st.view = true) :
    ∃ view' undos, UndoLog.applyAll spendInput st.view tx.vin = .ok (view', undos) ∧
      (∀ undo ∈ undos, 0 ≤ undo.txout.nValue) ∧ undoValue undos ≤ st.view.total := by
  obtain ⟨view', undos, h⟩ := applyAll_spendInput_of_haveInput hchecked.prevout_nodup
    ((haveInputs_iff hcb).mp hhave)
  refine ⟨view', undos, h, undos_nonneg hst.nonNeg h, ?_⟩
  have htotal := total_applyAll_spendInput h
  have hnonneg := (hst.nonNeg.of_below (applyAll_spendInput_below h)).total
  omega

variable [ScriptEngine]

theorem checkInputs_avoids {fScriptChecks fQueue : Bool} {flags : Nat} (hst : LoopBounds st) (hchecked : tx.Checked)
    (hcb : tx.isCoinBase = false) (hhave : tx.haveInputs st.view = true) :
    Avoids .overflow (tx.checkInputs st.view fScriptChecks flags fQueue) := by
  obtain ⟨view', undos, h, hundos, hle⟩ := exists_undos hst hchecked hcb hhave
  have htotal := hst.total_le
  have hfees := hst.nFees_nonneg
  have hout := hchecked.valueOut_le
  have hout0 := hchecked.valueOut_nonneg
  have hmm := maxMoney_eq
  have hin0 := undoValue_nonneg hundos
  refine avoids_ite (fun _ => avoids_ok) fun _ => ?_
  refine avoids_bind (avoids_require (by simp)) fun _ _ => ?_
  refine avoids_bind (avoids_get (by simp)) fun pindex _ => ?_
  refine avoids_bind (checkInputValues_avoids (Below.refl _) h hundos (le_refl 0) (by omega))
    fun vin hvin => ?_
  have hvin := checkInputValues_eq (Below.refl _) hvin h
  rw [hchecked.getValueOut_eq]
  refine avoids_bind avoids_ok fun vout hvout => ?_
  obtain rfl := Except.ok.inj hvout
  refine avoids_bind (avoids_require (by simp)) fun _ _ => ?_
  refine avoids_bind (avoids_add64 (int64Range_of_le (by omega) (by omega))) fun _ _ => ?_
  refine avoids_bind (avoids_require (by simp)) fun _ _ => ?_
  refine avoids_bind (avoids_require (by simp)) fun _ _ => ?_
  refine avoids_ite (fun _ => ?_) fun _ => avoids_ok
  refine avoids_bind scriptChecks_avoids fun _ _ => ?_
  refine avoids_ite (fun _ => avoids_ok) fun _ => ?_
  exact avoids_bind (avoids_require (by simp)) fun _ _ => avoids_pure

theorem connectInputs_avoids (hst : LoopBounds st) (hchecked : tx.Checked)
    (hcb : tx.isCoinBase = false) :
    Avoids .overflow (connectInputs params st tx) := by
  refine avoids_bind (avoids_require (by simp)) fun _ hhave => ?_
  rw [require_ok] at hhave
  obtain ⟨view', undos, h, hundos, hle⟩ := exists_undos hst hchecked hcb hhave
  have htotal := hst.total_le
  have hfees := hst.nFees_nonneg
  have hout := hchecked.valueOut_le
  have hout0 := hchecked.valueOut_nonneg
  have hmm := maxMoney_eq
  have hin0 := undoValue_nonneg hundos
  refine avoids_bind ?_ fun _ _ => ?_
  · cases params.fStrictPayToScriptHash with
    | false => exact avoids_ok
    | true => exact avoids_ite (fun _ => avoids_ok) fun _ => p2shSigOps_avoids
  refine avoids_bind (avoids_require (by simp)) fun _ _ => ?_
  have hvalueIn : Avoids .overflow (tx.getValueIn st.view) :=
    avoids_ite (fun _ => avoids_ok) fun _ =>
      valueInFrom_avoids (Below.refl _) h hundos (le_refl 0) (by omega)
  refine avoids_bind hvalueIn fun vin hvin => ?_
  rw [getValueIn, if_neg (by simp [hcb])] at hvin
  have hvin := valueInFrom_eq (Below.refl _) hvin h
  rw [hchecked.getValueOut_eq]
  refine avoids_bind avoids_ok fun vout hvout => ?_
  obtain rfl := Except.ok.inj hvout
  refine avoids_bind (avoids_add64 (int64Range_of_le (by omega) (by omega))) fun fee hfee => ?_
  obtain ⟨rfl, -⟩ := add64_ok.mp hfee
  refine avoids_bind (avoids_add64 (int64Range_of_le (by omega) (by omega))) fun _ _ => ?_
  exact avoids_bind (checkInputs_avoids hst hchecked hcb hhave) fun _ _ => avoids_pure

theorem fee_nonneg_of_connectInputs (hst : LoopBounds st) (hchecked : tx.Checked)
    (hcb : tx.isCoinBase = false)
    (h : connectInputs params st tx = .ok st') :
    st.nFees ≤ st'.nFees := by
  simp only [connectInputs, bind_ok, require_ok, add64_ok, pure_ok] at h
  obtain ⟨_, hhave, _, -, _, -, vin, hvin, vout, hvout, _, ⟨rfl, -⟩, _, ⟨rfl, -⟩, _, hcheck, rfl⟩ := h
  obtain ⟨view', undos, happly, -, -⟩ := exists_undos hst hchecked hcb hhave
  rw [getValueIn, if_neg (by simp [hcb])] at hvin
  have hvin := valueInFrom_eq (Below.refl _) hvin happly
  rw [checkInputs, if_neg (by simp [hcb])] at hcheck
  simp only [bind_ok, require_ok, get_ok, decide_eq_true_eq] at hcheck
  obtain ⟨_, -, pindex, -, vin', hvin', vout', hvout', _, hle, -⟩ := hcheck
  have hvin' := checkInputValues_eq (Below.refl _) hvin' happly
  rw [hvout, Except.ok.injEq] at hvout'
  dsimp only
  omega

end Loop

section Block

variable [Hashing] [ScriptEngine] {params : ConnectParams} {st st' : ConnectState}

theorem connectTransaction_avoids {tx : CTransaction} (hst : LoopBounds st)
    (hchecked : tx.Checked) :
    Avoids .overflow (connectTransaction params st tx) := by
  refine avoids_bind ?_ fun _ _ => avoids_bind applyTransaction_avoids fun _ _ => avoids_pure
  refine avoids_bind (avoids_require (by simp)) fun _ _ => ?_
  refine avoids_ite (fun _ => avoids_ok) fun hcb => ?_
  exact connectInputs_avoids ⟨hst.nonNeg, hst.nFees_nonneg, hst.total_le⟩ hchecked
    (Bool.eq_false_iff.mpr hcb)

theorem loopBounds_connectTransaction {tx : CTransaction} {txundo : Option CTxUndo}
    (hst : LoopBounds st) (hchecked : tx.Checked) (hcb : tx.isCoinBase = false)
    (h : connectTransaction params st tx = .ok (st', txundo)) : LoopBounds st' := by
  obtain ⟨happly, hfee⟩ := connectTransaction_ok hchecked h
  obtain ⟨hnonneg, htotal⟩ := total_applyTransaction hst.nonNeg hchecked happly
  have hle : st.nFees ≤ st'.nFees := by
    simp only [connectTransaction, bind_ok, pure_ok, Prod.exists, Prod.mk.injEq, checkConnect,
      require_ok, hcb, Bool.false_eq_true, if_false] at h
    obtain ⟨st1, ⟨_, -, hinputs⟩, _, _, -, rfl, -⟩ := h
    have hst1 : LoopBounds { st with nSigOps := st.nSigOps + tx.getLegacySigOpCount } :=
      ⟨hst.nonNeg, hst.nFees_nonneg, hst.total_le⟩
    have hfees := fee_nonneg_of_connectInputs hst1 hchecked hcb hinputs
    exact hfees
  have h0 := hst.nFees_nonneg
  have h1 := hst.total_le
  simp only [coinbaseValue, hcb, Bool.false_eq_true, if_false] at htotal
  exact ⟨hnonneg, by omega, by omega⟩

theorem connectTransactions_avoids {vtx : List CTransaction} (hst : LoopBounds st)
    (hchecked : ∀ tx ∈ vtx, tx.Checked) (hcb : ∀ tx ∈ vtx, tx.isCoinBase = false) :
    Avoids .overflow (connectTransactions params st vtx) ∧
      ∀ st' undos, connectTransactions params st vtx = .ok (st', undos) → LoopBounds st' := by
  induction vtx generalizing st with
  | nil =>
    refine ⟨avoids_ok, fun st' undos h => ?_⟩
    obtain ⟨rfl, -⟩ := Prod.mk.inj (UndoLog.applyAll_nil.mp h)
    exact hst
  | cons tx vtx ih =>
    have hc := hchecked tx List.mem_cons_self
    have hcb1 := hcb tx List.mem_cons_self
    have hrest := fun st1 (hst1 : LoopBounds st1) => ih hst1
      (fun t ht => hchecked t (List.mem_cons_of_mem _ ht))
      (fun t ht => hcb t (List.mem_cons_of_mem _ ht))
    constructor
    · refine avoids_bind (connectTransaction_avoids hst hc) fun r hr => ?_
      have hst1 : LoopBounds r.1 := loopBounds_connectTransaction hst hc hcb1 hr
      exact avoids_bind (hrest _ hst1).1 fun _ _ => avoids_pure
    · intro st' undos h
      obtain ⟨st1, txundo, undos', h1, h2, rfl⟩ := UndoLog.applyAll_cons.mp h
      exact (hrest st1 (loopBounds_connectTransaction hst hc hcb1 h1)).2 st' undos' h2

/-- The whole loop over a checked block, from a view worth at most `maxMoney`. -/
theorem connectTransactions_checked (params : ConnectParams) {b : CBlock} {view : CoinsView} (hb : b.Checked)
    (hview : view.NonNeg) (htotal : view.total ≤ maxMoney) :
    Avoids .overflow (connectTransactions params ⟨view, 0, 0, []⟩ b.vtx) ∧
      ∀ st' undos, connectTransactions params ⟨view, 0, 0, []⟩ b.vtx = .ok (st', undos) →
        LoopBounds st' := by
  obtain ⟨cb, rest, hvtx, hcb, hrest⟩ := hb.coinbase
  have hchecked := hb.checked
  rw [hvtx, List.forall_mem_cons] at hchecked
  have hmm := maxMoney_eq
  have hstart : LoopBounds ⟨view, 0, 0, []⟩ := ⟨hview, le_refl 0, by dsimp only; omega⟩
  -- the coinbase is the one transaction that adds value
  have hfirst : ∀ st1 txundo,
      connectTransaction params ⟨view, 0, 0, []⟩ cb = .ok (st1, txundo) → LoopBounds st1 := by
    intro st1 txundo h
    obtain ⟨happly, hfee⟩ := connectTransaction_ok hchecked.1 h
    obtain ⟨hnonneg, hle⟩ := total_applyTransaction hview hchecked.1 happly
    obtain ⟨_, -, rfl⟩ := applyTransaction_ok.mp happly
    have hout := hchecked.1.valueOut_le
    simp only [coinbaseValue, hcb, if_true, feeOf, add_zero] at hle hfee
    exact ⟨hnonneg, by omega, by omega⟩
  rw [hvtx]
  constructor
  · refine avoids_bind (connectTransaction_avoids hstart hchecked.1) fun r hr => ?_
    have hnext : Avoids .overflow (connectTransactions params r.1 rest) :=
      (connectTransactions_avoids (hfirst r.1 r.2 hr) hchecked.2 hrest).1
    exact avoids_bind hnext fun _ _ => avoids_pure
  · intro st' undos h
    obtain ⟨st1, txundo, undos', h1, h2, rfl⟩ := UndoLog.applyAll_cons.mp h
    exact (connectTransactions_avoids (hfirst st1 txundo h1) hchecked.2 hrest).2 st' undos' h2

end Block

/-! ## The block -/

theorem getBlockSubsidy_nonneg (nHeight : Nat) : 0 ≤ getBlockSubsidy nHeight :=
  Int.ediv_nonneg (by decide) (by positivity)

theorem getBlockSubsidy_le (nHeight : Nat) : getBlockSubsidy nHeight ≤ 20 * coin :=
  Int.ediv_le_self _ (by decide)

section

variable [Hashing] [ScriptEngine] [NodeConfig]

theorem connectCoins_avoids {b : CBlock} {pindex : CBlockIndex} {phashBlock : Option uint256}
    {view : CoinsView} (hb : b.Checked) (hview : view.NonNeg) (htotal : view.total ≤ maxMoney) :
    Avoids .overflow (connectCoins b pindex phashBlock view) := by
  refine avoids_bind (avoids_require (by simp)) fun _ _ => ?_
  have hloop := fun params => connectTransactions_checked params hb hview htotal
  refine avoids_bind (hloop _).1 fun r hr => ?_
  have hbounds := (hloop _).2 r.1 r.2 hr
  refine avoids_bind (avoids_get (by simp)) fun cb hcb => ?_
  rw [get_ok] at hcb
  rw [(hb.checked cb (List.mem_of_mem_head? hcb)).getValueOut_eq]
  refine avoids_bind avoids_ok fun _ _ => ?_
  have hvalue : Avoids .overflow (getBlockValue pindex.nHeight r.1.nFees) := by
    refine avoids_bind (avoids_require (by simp)) fun _ _ => ?_
    have h0 := getBlockSubsidy_nonneg pindex.nHeight
    have h1 := getBlockSubsidy_le pindex.nHeight
    have h2 := hbounds.nFees_nonneg
    have h3 := hbounds.total_le
    have h4 := hbounds.nonNeg.total
    have hmm := maxMoney_eq
    have hcoin : coin = 100000000 := rfl
    refine avoids_add64 ⟨by omega, by omega⟩
  refine avoids_bind hvalue fun _ _ => ?_
  refine avoids_bind (avoids_require (by simp)) fun _ _ => ?_
  exact avoids_bind (avoids_require (by simp)) fun _ _ => avoids_pure

/-- **No overflow**: on a view worth at most `maxMoney`, `ConnectBlock` computes all its sums
exactly. -/
theorem connectBlock_avoids_overflow {env : ConnectEnv} {b : CBlock} {pindex : CBlockIndex}
    {phashBlock : Option uint256} {data : BlockData} {view : CoinsView} {fJustCheck : Bool}
    (hview : view.NonNeg) (htotal : view.total ≤ maxMoney) :
    Avoids .overflow (connectBlock env b pindex phashBlock data view fJustCheck).2 := by
  have hcoins : Avoids .overflow (connectView env b pindex phashBlock view fJustCheck) := by
    refine avoids_bind checkBlock_avoids fun _ hcheck => ?_
    refine avoids_bind (avoids_require (by simp)) fun _ _ => ?_
    refine avoids_ite (fun _ => avoids_pure) fun _ => ?_
    have hb := CBlock.checked_of_checkBlock hcheck
    exact avoids_bind (connectCoins_avoids hb hview htotal) fun _ _ => avoids_pure
  unfold connectBlock
  split
  · rename_i e he
    rw [he] at hcoins
    intro h
    obtain rfl := Except.error.inj h
    exact hcoins rfl
  · exact avoids_ok
  · split
    · exact avoids_ok
    · split
      · rename_i data' e hwrite
        unfold writeUndoData at hwrite
        intro h
        obtain rfl := Except.error.inj h
        split at hwrite
        · cases (Prod.mk.inj hwrite).2
        · split at hwrite
          · cases (Prod.mk.inj hwrite).2
          · split at hwrite
            · cases (Prod.mk.inj hwrite).2
            · have := (Prod.mk.inj hwrite).2
              split at this <;> cases this
      · split
        · intro h
          cases h
        · exact avoids_ok

end

end Terracoin
