import Terracoin.Validation.Inverse

/-!
# Validation reads a view up to pruned entries

Everything `ConnectBlock` reads of a view is read through outputs that are available, so on a view
that means the same it does the same: `connectCoins_congr`. The loops over the inputs are followed
one by one, and `UndoLog.applyAll_sim` follows the two loops that change the view.
-/

namespace Terracoin

open Checked

namespace CoinsView

variable {u v w : CoinsView}

theorem Equiv.refl (v : CoinsView) : Equiv v v := ⟨fun _ => CCoins.Same.refl _, rfl⟩

theorem Equiv.symm (h : Equiv w v) : Equiv v w := ⟨fun txid => (h.coins txid).symm, h.pindexTip.symm⟩

theorem Equiv.trans (h : Equiv u v) (h' : Equiv v w) : Equiv u w :=
  ⟨fun txid => (h.coins txid).trans (h'.coins txid), h.pindexTip.trans h'.pindexTip⟩

theorem Equiv.setCoins {c d : CCoins} (h : Equiv w v) (hsame : CCoins.Same c d) (txid : uint256) :
    Equiv (w.setCoins txid c) (v.setCoins txid d) := by
  refine ⟨fun t => ?_, h.pindexTip⟩
  by_cases ht : t = txid
  · subst ht
    rw [coinsAt_setCoins_self, coinsAt_setCoins_self]
    exact hsame
  · rw [coinsAt_setCoins_of_ne ht, coinsAt_setCoins_of_ne ht]
    exact h.coins t

theorem Equiv.setBestBlock (h : Equiv w v) (p : Option CBlockIndex) :
    Equiv (w.setBestBlock p) (v.setBestBlock p) := ⟨h.coins, rfl⟩

theorem equiv_dropPruned (v : CoinsView) : Equiv v.dropPruned v :=
  ⟨fun _ => coinsAt_dropPruned, rfl⟩

end CoinsView

open CoinsView

variable {v w w' : CoinsView}

/-! ## Reading the inputs -/

namespace CTransaction

theorem getOutputFor_congr (h : Equiv w v) {txin : CTxIn} {out : CTxOut}
    (hok : getOutputFor w txin = .ok out) : getOutputFor v txin = .ok out := by
  rw [getOutputFor_ok] at hok ⊢
  rw [← (h.coins _).output]
  exact hok

theorem valueInFrom_congr (h : Equiv w v) {vin : List CTxIn} {n r : Int}
    (hok : valueInFrom w n vin = .ok r) : valueInFrom v n vin = .ok r := by
  induction vin generalizing n with
  | nil => exact hok
  | cons txin vin ih =>
    simp only [valueInFrom, bind_ok] at hok ⊢
    obtain ⟨out, hout, n', hadd, hrest⟩ := hok
    exact ⟨out, getOutputFor_congr h hout, n', hadd, ih hrest⟩

theorem getValueIn_congr (h : Equiv w v) {tx : CTransaction} {r : Int}
    (hok : tx.getValueIn w = .ok r) : tx.getValueIn v = .ok r := by
  unfold getValueIn at hok ⊢
  split
  · next hcb => rwa [if_pos hcb] at hok
  · next hcb =>
    rw [if_neg hcb] at hok
    exact valueInFrom_congr h hok

theorem p2shSigOps_congr (h : Equiv w v) {vin : List CTxIn} {r : Nat}
    (hok : p2shSigOps w vin = .ok r) : p2shSigOps v vin = .ok r := by
  induction vin generalizing r with
  | nil => exact hok
  | cons txin vin ih =>
    simp only [p2shSigOps, bind_ok, pure_ok] at hok ⊢
    obtain ⟨out, hout, rest, hrest, rfl⟩ := hok
    exact ⟨out, getOutputFor_congr h hout, rest, ih hrest, rfl⟩

theorem getP2SHSigOpCount_congr (h : Equiv w v) {tx : CTransaction} {r : Nat}
    (hok : tx.getP2SHSigOpCount w = .ok r) : tx.getP2SHSigOpCount v = .ok r := by
  unfold getP2SHSigOpCount at hok ⊢
  split
  · next hcb => rwa [if_pos hcb] at hok
  · next hcb =>
    rw [if_neg hcb] at hok
    exact p2shSigOps_congr h hok

theorem haveInput_congr (h : Equiv w v) (txin : CTxIn) : haveInput w txin = haveInput v txin := by
  rw [haveInput, haveInput, CCoins.isAvailable_eq, CCoins.isAvailable_eq, (h.coins _).output]

theorem haveInputs_congr (h : Equiv w v) (tx : CTransaction) :
    tx.haveInputs w = tx.haveInputs v := by
  cases hcb : tx.isCoinBase with
  | true => simp [haveInputs, hcb]
  | false =>
    rw [Bool.eq_iff_iff, haveInputs_iff hcb, haveInputs_iff hcb]
    simp only [haveInput_congr h]

theorem getCoins_congr (h : Equiv w v) {txin : CTxIn} {coins : CCoins} {txout : CTxOut}
    (hhave : haveInput w txin = true) (hcoins : w.getCoins txin.prevout.hash = .ok coins)
    (hout : coins.vout[txin.prevout.n.toNat]? = some txout) :
    ∃ coins', v.getCoins txin.prevout.hash = .ok coins' ∧
      coins'.vout[txin.prevout.n.toNat]? = some txout ∧ coins'.fCoinBase = coins.fCoinBase ∧
      coins'.nHeight = coins.nHeight := by
  obtain rfl := coinsAt_of_getCoins hcoins
  obtain ⟨out, ho⟩ := haveInput_iff.mp hhave
  obtain rfl := Option.some.inj (hout.symm.trans (CCoins.output_eq_some.mp ho).1)
  obtain ⟨hcb, hheight, -⟩ := (h.coins _).metadata (CCoins.isPruned_eq_false_of_output ho)
  rw [(h.coins _).output] at ho
  exact ⟨_, getCoins_of_output ho, (CCoins.output_eq_some.mp ho).1, hcb.symm, hheight.symm⟩

theorem checkInputValues_congr (h : Equiv w v) {nSpendHeight n r : Int} {vin : List CTxIn}
    (hhave : ∀ txin ∈ vin, haveInput w txin = true)
    (hok : checkInputValues w nSpendHeight n vin = .ok r) :
    checkInputValues v nSpendHeight n vin = .ok r := by
  induction vin generalizing n with
  | nil => exact hok
  | cons txin vin ih =>
    simp only [checkInputValues, bind_ok, require_ok, get_ok] at hok ⊢
    obtain ⟨coins, hcoins, u, hmature, txout, hout, n', hadd, hrange, hmoney, hrest⟩ := hok
    obtain ⟨coins', hcoins', hout', hcb, hheight⟩ :=
      getCoins_congr h (hhave txin List.mem_cons_self) hcoins hout
    refine ⟨coins', hcoins', u, by rw [hcb, hheight]; exact hmature, txout, hout', n', hadd, hrange,
      hmoney, ?_⟩
    exact ih (fun t ht => hhave t (List.mem_cons_of_mem _ ht)) hrest

theorem scriptChecks_congr (h : Equiv w v) {tx : CTransaction} {flags nIn : Nat} {vin : List CTxIn}
    {checks : List CScriptCheck} (hhave : ∀ txin ∈ vin, haveInput w txin = true)
    (hok : scriptChecks tx w flags nIn vin = .ok checks) :
    scriptChecks tx v flags nIn vin = .ok checks := by
  induction vin generalizing nIn checks with
  | nil => exact hok
  | cons txin vin ih =>
    simp only [scriptChecks, bind_ok, get_ok, pure_ok] at hok ⊢
    obtain ⟨coins, hcoins, txout, hout, rest, hrest, rfl⟩ := hok
    obtain ⟨coins', hcoins', hout', -, -⟩ :=
      getCoins_congr h (hhave txin List.mem_cons_self) hcoins hout
    exact ⟨coins', hcoins', txout, hout', rest,
      ih (fun t ht => hhave t (List.mem_cons_of_mem _ ht)) hrest, rfl⟩

theorem checkInputs_congr [ScriptEngine] (h : Equiv w v) {tx : CTransaction} {fScriptChecks : Bool}
    {flags : Nat} {fQueue : Bool} {checks : List CScriptCheck}
    (hok : tx.checkInputs w fScriptChecks flags fQueue = .ok checks) :
    tx.checkInputs v fScriptChecks flags fQueue = .ok checks := by
  unfold checkInputs at hok ⊢
  by_cases hcb : tx.isCoinBase
  · rwa [if_pos hcb] at hok ⊢
  rw [if_neg hcb] at hok ⊢
  simp only [bind_ok, require_ok, get_ok] at hok ⊢
  obtain ⟨u1, hhave, p, htip, nValueIn, hvalues, nValueOut, hout, u2, hle, fee, hfee, u3, hpos, u4,
    hrange, hrest⟩ := hok
  have hinputs := (haveInputs_iff (Bool.eq_false_iff.mpr hcb)).mp hhave
  refine ⟨u1, haveInputs_congr h tx ▸ hhave, p, ?_, nValueIn, checkInputValues_congr h hinputs hvalues,
    nValueOut, hout, u2, hle, fee, hfee, u3, hpos, u4, hrange, ?_⟩
  · rw [getBestBlock, ← h.pindexTip]
    exact htip
  · split at hrest
    · obtain ⟨checks', hchecks, hrest⟩ := bind_ok.mp hrest
      rw [if_pos ‹_›, bind_ok]
      exact ⟨checks', scriptChecks_congr h hinputs hchecks, hrest⟩
    · rw [if_neg ‹_›]
      exact hrest

theorem spendInput_congr (h : Equiv w v) {txin : CTxIn} {undo : CTxInUndo}
    (hok : spendInput w txin = .ok (w', undo)) :
    ∃ v', spendInput v txin = .ok (v', undo) ∧ Equiv w' v' := by
  obtain ⟨coins, hspend, rfl⟩ := spendInput_ok.mp hok
  have hspent := CCoins.spent_of_spend hspend
  have hhave : haveInput v txin = true := by
    rw [← haveInput_congr h, haveInput_iff]
    exact ⟨_, hspent.txout⟩
  obtain ⟨v', undo', hv⟩ := spendInput_of_haveInput hhave
  obtain ⟨coins', hspend', rfl⟩ := spendInput_ok.mp hv
  obtain ⟨hsame, rfl⟩ := hspent.congr (CCoins.spent_of_spend hspend') (h.coins _)
  exact ⟨_, hv, h.setCoins hsame _⟩

theorem spendInputs_congr (h : Equiv w v) {tx : CTransaction} {undos : List CTxInUndo}
    (hok : tx.spendInputs w = .ok (w', undos)) :
    ∃ v', tx.spendInputs v = .ok (v', undos) ∧ Equiv w' v' := by
  unfold spendInputs at hok ⊢
  split
  · next hcb =>
    rw [if_pos hcb] at hok
    obtain ⟨rfl, rfl⟩ := Prod.mk.inj (Except.ok.inj hok)
    exact ⟨v, rfl, h⟩
  · next hcb =>
    rw [if_neg hcb] at hok
    obtain ⟨v', undos', hv, hequiv, hundos⟩ := UndoLog.applyAll_sim (R := Equiv) (Q := Eq)
      (fun w v txin w' undo h hok => by
        obtain ⟨v', hv, hequiv⟩ := spendInput_congr h hok
        exact ⟨v', undo, hv, hequiv, rfl⟩) h hok
    rw [List.forall₂_eq_eq_eq] at hundos
    subst hundos
    exact ⟨v', hv, hequiv⟩

end CTransaction

/-! ## A block -/

section

variable [Hashing]

theorem applyTransaction_congr (h : Equiv w v) {nHeight : Int} {tx : CTransaction}
    {txundo : Option CTxUndo} (hok : applyTransaction nHeight w tx = .ok (w', txundo)) :
    ∃ v', applyTransaction nHeight v tx = .ok (v', txundo) ∧ Equiv w' v' := by
  obtain ⟨undo, hupdate, rfl⟩ := applyTransaction_ok.mp hok
  obtain ⟨view, hspend, rfl⟩ := CTransaction.updateCoins_ok.mp hupdate
  obtain ⟨view', hspend', hequiv⟩ := CTransaction.spendInputs_congr h hspend
  exact ⟨_, applyTransaction_ok.mpr ⟨undo, CTransaction.updateCoins_ok.mpr ⟨view', hspend', rfl⟩, rfl⟩,
    hequiv.setCoins (CCoins.Same.refl _) _⟩

variable [ScriptEngine] {params : ConnectParams}

/-- States of the loop that differ in the pruned entries of their views. -/
structure ConnectState.Equiv (st st' : ConnectState) : Prop where
  view : CoinsView.Equiv st.view st'.view
  nFees : st.nFees = st'.nFees
  nSigOps : st.nSigOps = st'.nSigOps
  vChecks : st.vChecks = st'.vChecks

omit [Hashing] in
theorem connectInputs_congr {st st' st1 : ConnectState} (h : st.Equiv st') {tx : CTransaction}
    (hok : connectInputs params st tx = .ok st1) :
    ∃ st1', connectInputs params st' tx = .ok st1' ∧ st1.Equiv st1' := by
  simp only [connectInputs, bind_ok, require_ok, pure_ok] at hok ⊢
  obtain ⟨u1, hhave, p2sh, hp2sh, u2, hsigops, vin, hvin, vout, hvout, fee, hfee, fees, hfees, checks,
    hchecks, rfl⟩ := hok
  refine ⟨_, ⟨u1, CTransaction.haveInputs_congr h.view tx ▸ hhave, p2sh, ?_, u2, h.nSigOps ▸ hsigops,
    vin, CTransaction.getValueIn_congr h.view hvin, vout, hvout, fee, hfee, fees, h.nFees ▸ hfees,
    checks, CTransaction.checkInputs_congr h.view hchecks, rfl⟩, ?_⟩
  · cases hstrict : params.fStrictPayToScriptHash with
    | true =>
      rw [hstrict] at hp2sh
      exact CTransaction.getP2SHSigOpCount_congr h.view hp2sh
    | false =>
      rw [hstrict] at hp2sh
      exact hp2sh
  · exact ⟨h.view, rfl, by rw [h.nSigOps], by rw [h.vChecks]⟩

omit [Hashing] in
theorem checkConnect_congr {st st' st1 : ConnectState} (h : st.Equiv st') {tx : CTransaction}
    (hok : checkConnect params st tx = .ok st1) :
    ∃ st1', checkConnect params st' tx = .ok st1' ∧ st1.Equiv st1' := by
  simp only [checkConnect, bind_ok, require_ok] at hok ⊢
  obtain ⟨u, hsigops, hok⟩ := hok
  have hst : ConnectState.Equiv { st with nSigOps := st.nSigOps + tx.getLegacySigOpCount }
      { st' with nSigOps := st'.nSigOps + tx.getLegacySigOpCount } :=
    ⟨h.view, h.nFees, by rw [h.nSigOps], h.vChecks⟩
  split at hok
  · next hcb =>
    obtain rfl := Except.ok.inj hok
    exact ⟨_, ⟨u, h.nSigOps ▸ hsigops, if_pos hcb⟩, hst⟩
  · next hcb =>
    obtain ⟨st1', hst1', hequiv⟩ := connectInputs_congr hst hok
    exact ⟨st1', ⟨u, h.nSigOps ▸ hsigops, by rw [if_neg hcb]; exact hst1'⟩, hequiv⟩

theorem connectTransaction_congr {st st' st1 : ConnectState} (h : st.Equiv st') {tx : CTransaction}
    {txundo : Option CTxUndo} (hok : connectTransaction params st tx = .ok (st1, txundo)) :
    ∃ st1', connectTransaction params st' tx = .ok (st1', txundo) ∧ st1.Equiv st1' := by
  simp only [connectTransaction, bind_ok, pure_ok, Prod.exists, Prod.mk.injEq] at hok ⊢
  obtain ⟨st2, hcheck, view, undo, happly, rfl, rfl⟩ := hok
  obtain ⟨st2', hcheck', h2⟩ := checkConnect_congr h hcheck
  obtain ⟨view', happly', hview⟩ := applyTransaction_congr h2.view happly
  exact ⟨_, ⟨st2', hcheck', view', undo, happly', rfl, rfl⟩, hview, h2.nFees, h2.nSigOps, h2.vChecks⟩

theorem connectTransactions_congr {st st' st1 : ConnectState} (h : st.Equiv st')
    {vtx : List CTransaction} {undos : List (Option CTxUndo)}
    (hok : connectTransactions params st vtx = .ok (st1, undos)) :
    ∃ st1', connectTransactions params st' vtx = .ok (st1', undos) ∧ st1.Equiv st1' := by
  have hstep : ∀ (st st' : ConnectState) (tx : CTransaction) (st1 : ConnectState)
      (txundo : Option CTxUndo), st.Equiv st' →
      connectTransaction params st tx = .ok (st1, txundo) →
      ∃ st1' txundo', connectTransaction params st' tx = .ok (st1', txundo') ∧ st1.Equiv st1' ∧
        txundo = txundo' := by
    intro st st' tx st1 txundo h hok
    obtain ⟨st1', hst1', hequiv⟩ := connectTransaction_congr h hok
    exact ⟨st1', txundo, hst1', hequiv, rfl⟩
  obtain ⟨st1', undos', hconn, hst, hundos⟩ := UndoLog.applyAll_sim hstep h hok
  rw [List.forall₂_eq_eq_eq] at hundos
  subst hundos
  exact ⟨st1', hconn, hst⟩

/-- **On a view that means the same a block connects with the same undo data.** -/
theorem connectCoins_congr [NodeConfig] (h : Equiv w v) {b : CBlock} {pindex : CBlockIndex}
    {phashBlock : Option uint256} {blockundo : CBlockUndo}
    (hok : connectCoins b pindex phashBlock w = .ok (w', blockundo)) :
    ∃ v', connectCoins b pindex phashBlock v = .ok (v', blockundo) ∧ Equiv w' v' := by
  simp only [connectCoins, bind_ok, require_ok, get_ok, pure_ok, Prod.exists, Prod.mk.injEq] at hok ⊢
  obtain ⟨u, hbip30, st, undos, hconn, cb, hcb, vout, hvout, limit, hlimit, u1, hpay, u2, hchecks, rfl,
    rfl⟩ := hok
  have hstart : ConnectState.Equiv ⟨w, 0, 0, []⟩ ⟨v, 0, 0, []⟩ := ⟨h, rfl, rfl, rfl⟩
  obtain ⟨st', hconn', hst⟩ := connectTransactions_congr hstart hconn
  refine ⟨_, ⟨u, ?_, st', undos, hconn', cb, hcb, vout, hvout, limit, ?_, u1, hpay, u2, ?_, rfl, rfl⟩,
    hst.view⟩
  · simp only [(h.coins _).isPruned] at hbip30
    exact hbip30
  · rw [← hst.nFees]
    exact hlimit
  · rw [← hst.vChecks]
    exact hchecks

/-! ## `ConnectBlock` with another clock and other disks -/

omit [ScriptEngine] in
theorem CBlock.checkBlock_at {b : CBlock} {t t' : Int} {fCheckPOW fCheckMerkleRoot : Bool} {u : Unit}
    (htime : b.getBlockTime ≤ t' + 15 * 60) (hok : b.checkBlock t fCheckPOW fCheckMerkleRoot = .ok u) :
    b.checkBlock t' fCheckPOW fCheckMerkleRoot = .ok u := by
  simp only [CBlock.checkBlock, bind_ok, require_ok] at hok ⊢
  obtain ⟨u1, hsize, u2, hlocks, u3, hpow, u4, -, hrest⟩ := hok
  exact ⟨u1, hsize, u2, hlocks, u3, hpow, u4, decide_eq_true htime, hrest⟩

def ConnectEnv.diskWorks (env : ConnectEnv) : Bool :=
  env.findUndoPos && env.writeUndo && env.writeBlockIndex && env.writeTxIndex

omit [Hashing] [ScriptEngine] in
theorem writeUndoData_diskWorks {env : ConnectEnv} (hdisk : env.diskWorks = true) (data : BlockData)
    (blockundo : CBlockUndo) : ∃ data', writeUndoData env data blockundo = (data', .ok ()) := by
  simp only [ConnectEnv.diskWorks, Bool.and_eq_true] at hdisk
  obtain ⟨⟨⟨hfind, hundo⟩, hindex⟩, -⟩ := hdisk
  unfold writeUndoData
  rw [hfind, hundo, hindex]
  simp only [Bool.not_true, Bool.and_false, Bool.false_eq_true, if_false, if_true]
  split <;> exact ⟨_, rfl⟩

theorem connectBlock_checkBlock [NodeConfig] {env : ConnectEnv} {b : CBlock} {pindex : CBlockIndex}
    {phashBlock : Option uint256} {data data' : BlockData}
    (hok : connectBlock env b pindex phashBlock data w false = (data', .ok w')) :
    ∃ u, b.checkBlock env.nAdjustedTime true true = .ok u := by
  unfold connectBlock at hok
  cases hview : connectView env b pindex phashBlock w false with
  | error e =>
    rw [hview] at hok
    cases (Prod.mk.inj hok).2
  | ok r =>
    simp only [connectView, bind_ok] at hview
    obtain ⟨u, hcheck, -⟩ := hview
    exact ⟨u, hcheck⟩

/-- A block that has been connected connects wherever the view means the same, the clock is not too
far behind and the disk works. -/
theorem connectBlock_congr [NodeConfig] (h : Equiv w v) {env env' : ConnectEnv} {b : CBlock}
    {pindex : CBlockIndex} {phashBlock : Option uint256} {data data' : BlockData}
    (hdisk : env'.diskWorks = true) (htime : b.getBlockTime ≤ env'.nAdjustedTime + 15 * 60)
    (hok : connectBlock env b pindex phashBlock data w false = (data', .ok w'))
    (stored : BlockData) :
    ∃ stored' v', connectBlock env' b pindex phashBlock stored v false = (stored', .ok v') ∧
      Equiv w' v' := by
  obtain ⟨u, hcheck⟩ := connectBlock_checkBlock hok
  have hcheck' := CBlock.checkBlock_at htime hcheck
  have hview : ∀ r, pindex.pprev = v.getBestBlock →
      (b.getHash = hashGenesisBlock ∧ r = (v.setBestBlock (some pindex), none) ∨
        b.getHash ≠ hashGenesisBlock ∧ ∃ coins blockundo,
          connectCoins b pindex phashBlock v = .ok (coins, blockundo) ∧
            r = (coins, some blockundo)) →
      connectView env' b pindex phashBlock v false = .ok r := by
    intro r htip hrest
    simp only [connectView, bind_ok, require_ok, beq_iff_eq]
    refine ⟨u, hcheck', (), htip, ?_⟩
    rcases hrest with ⟨hgenesis, rfl⟩ | ⟨hgenesis, coins, blockundo, hcoins, rfl⟩
    · rw [if_pos hgenesis]
      rfl
    · rw [if_neg hgenesis, hcoins]
      rfl
  by_cases hgenesis : b.getHash = hashGenesisBlock
  · obtain ⟨htip, rfl⟩ := connectBlock_ok_genesis hgenesis hok
    refine ⟨stored, v.setBestBlock (some pindex), ?_, h.setBestBlock _⟩
    unfold connectBlock
    rw [hview _ (htip.trans h.pindexTip) (.inl ⟨hgenesis, rfl⟩)]
  · obtain ⟨-, htip, coins, blockundo, hcoins, rfl, -⟩ := connectBlock_ok hgenesis hok
    obtain ⟨coins', hcoins', hequiv⟩ := connectCoins_congr h hcoins
    obtain ⟨stored', hwrite⟩ := writeUndoData_diskWorks hdisk stored blockundo
    refine ⟨stored', coins'.setBestBlock (some pindex), ?_, hequiv.setBestBlock _⟩
    simp only [ConnectEnv.diskWorks, Bool.and_eq_true] at hdisk
    unfold connectBlock
    rw [hview _ (htip.trans h.pindexTip) (.inr ⟨hgenesis, _, _, hcoins', rfl⟩)]
    dsimp only
    rw [if_neg Bool.false_ne_true, hwrite]
    dsimp only
    rw [hdisk.2, Bool.not_true, Bool.and_false, if_neg Bool.false_ne_true]

end

end Terracoin
