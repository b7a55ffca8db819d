import Terracoin.Mining.Gather
import Terracoin.Validation.Accounting

/-!
# The transactions of a template

What the second loop of `CreateNewBlock` does, for any order in which the heap gives the transactions
out. `Adds` and `Leaves` are the two ways a round can go. After every round the selected transactions
connect one after the other to the coins at the tip, with the fees and counts of the template, and
within its limits (`Assembled`). Next to this the rounds work off the agenda of `MinerInput.plan`
(`Working`): a transaction goes into the block after the ones it waits for, and what is not in the
block at the end either waits for one that is not in it, or was refused.
-/

namespace Terracoin

open Checked

theorem returned_some {α : Type} {x : Check α} {a : α} : returned x = .ok (some a) ↔ x = .ok a := by
  unfold returned
  split <;> simp

/-! ## One transaction -/

section Admit

variable [Hashing] [ScriptEngine] {nHeight nTxFees : Int} {view view' : CoinsView}
  {nBlockSigOps nTxSigOps : Nat} {tx : CTransaction}

/-- A transaction that can go into the block: what `ConnectBlock` is going to ask of it. -/
structure Admitted (nHeight : Int) (view : CoinsView) (nBlockSigOps : Nat) (tx : CTransaction)
    (view' : CoinsView) (nTxFees : Int) (nTxSigOps : Nat) : Prop where
  haveInputs : tx.haveInputs view = true
  fee : ∃ nValueIn nValueOut, tx.getValueIn view = .ok nValueIn ∧ tx.getValueOut = .ok nValueOut ∧
    nTxFees = nValueIn + -nValueOut ∧ Int64Range nTxFees
  sigOps : ∃ nP2SHSigOps, tx.getP2SHSigOpCount view = .ok nP2SHSigOps ∧
    nTxSigOps = tx.getLegacySigOpCount + nP2SHSigOps
  sigOps_lt : nBlockSigOps + nTxSigOps < maxBlockSigOps
  checkInputs : ∃ checks, tx.checkInputs view true SCRIPT_VERIFY_P2SH false = .ok checks
  updateCoins : ∃ undo, tx.updateCoins view nHeight tx.getHash = .ok (view', undo)

theorem admitted_of_admit
    (h : admitTx nHeight view nBlockSigOps tx = .ok (some (view', nTxFees, nTxSigOps))) :
    Admitted nHeight view nBlockSigOps tx view' nTxFees nTxSigOps := by
  unfold admitTx at h
  cases hhave : tx.haveInputs view with
  | false =>
    rw [hhave] at h
    cases Except.ok.inj h
  | true =>
    rw [hhave, Bool.not_true, if_neg Bool.false_ne_true] at h
    simp only [bind_ok, add64_ok] at h
    obtain ⟨vin, hvin, vout, hvout, fee, ⟨hfee, hrange⟩, p, hp, h⟩ := h
    split at h
    · cases Except.ok.inj h
    · rename_i hlimit
      obtain ⟨r, hchecks, h⟩ := bind_ok.mp h
      cases r with
      | none => cases Except.ok.inj h
      | some checks =>
        obtain ⟨r, hupdate, h⟩ := bind_ok.mp h
        cases r with
        | none => cases Except.ok.inj h
        | some r =>
          obtain ⟨view1, undo⟩ := r
          rw [pure_ok, Option.some.injEq, Prod.mk.injEq, Prod.mk.injEq] at h
          obtain ⟨rfl, rfl, rfl⟩ := h
          exact ⟨hhave, ⟨vin, vout, hvin, hvout, hfee, hfee ▸ hrange⟩, ⟨p, hp, rfl⟩,
            Nat.lt_of_not_le hlimit, ⟨checks, returned_some.mp hchecks⟩,
            ⟨undo, returned_some.mp hupdate⟩⟩

namespace Admitted

variable (h : Admitted nHeight view nBlockSigOps tx view' nTxFees nTxSigOps)

include h

theorem applied (hcb : tx.isCoinBase = false) :
    ∃ txundo, applyTransaction nHeight view tx = .ok (view', txundo) ∧ feeOf tx txundo = nTxFees := by
  obtain ⟨undo, hupdate⟩ := h.updateCoins
  obtain ⟨vin, vout, hvin, hvout, rfl, -⟩ := h.fee
  refine ⟨some undo, applyTransaction_ok.mpr ⟨undo, hupdate, by simp [hcb]⟩, ?_⟩
  obtain ⟨view1, hspend, -⟩ := CTransaction.updateCoins_ok.mp hupdate
  rw [CTransaction.spendInputs, if_neg (by simp [hcb])] at hspend
  rw [CTransaction.getValueIn, if_neg (by simp [hcb])] at hvin
  have hv := CTransaction.valueInFrom_eq (CoinsView.Below.refl _) hvin hspend
  rw [feeOf, hv, CTransaction.getValueOut_ok hvout]
  omega

theorem fee_range (hcb : tx.isCoinBase = false) : 0 ≤ nTxFees ∧ nTxFees ≤ maxMoney := by
  obtain ⟨checks, hchecks⟩ := h.checkInputs
  obtain ⟨undo, hupdate⟩ := h.updateCoins
  obtain ⟨vin, vout, hvin, hvout, rfl, -⟩ := h.fee
  obtain ⟨view1, hspend, -⟩ := CTransaction.updateCoins_ok.mp hupdate
  rw [CTransaction.spendInputs, if_neg (by simp [hcb])] at hspend
  rw [CTransaction.getValueIn, if_neg (by simp [hcb])] at hvin
  rw [CTransaction.checkInputs, if_neg (by simp [hcb])] at hchecks
  simp only [bind_ok, require_ok, add64_ok, decide_eq_true_eq] at hchecks
  obtain ⟨_, -, pindex, -, nValueIn, hvalues, nValueOut, hvout', _, hle, nTxFee, ⟨rfl, -⟩, _, h0, _,
    hrange, -⟩ := hchecks
  have h1 := CTransaction.valueInFrom_eq (CoinsView.Below.refl _) hvin hspend
  have h2 := CTransaction.checkInputValues_eq (CoinsView.Below.refl _) hvalues hspend
  obtain rfl := Except.ok.inj (hvout.symm.trans hvout')
  rw [moneyRange_iff] at hrange
  rw [h1, ← h2]
  exact ⟨h0, hrange.2⟩

end Admitted

/-- Transactions that were put into the block one after the other, with their fees and signature
operations; `n` are the signature operations before the first one. -/
inductive AdmittedAll (nHeight : Int) (view : CoinsView) (n : Nat) :
    List CTransaction → CoinsView → List Int → List Nat → Prop
  | nil : AdmittedAll nHeight view n [] view [] []
  | concat {vtx : List CTransaction} {view1 view2 : CoinsView} {vTxFees : List Int}
      {vTxSigOps : List Nat} {tx : CTransaction} {nTxFees : Int} {nTxSigOps : Nat}
      (init : AdmittedAll nHeight view n vtx view1 vTxFees vTxSigOps)
      (last : Admitted nHeight view1 (n + vTxSigOps.sum) tx view2 nTxFees nTxSigOps)
      (notCoinBase : tx.isCoinBase = false) (range : Int64Range (vTxFees.sum + nTxFees)) :
      AdmittedAll nHeight view n (vtx ++ [tx]) view2 (vTxFees ++ [nTxFees]) (vTxSigOps ++ [nTxSigOps])

/-- The signature operations of transactions that are applied one after the other: those in the
scripts of each one, and those in the scripts whose hashes it spends. -/
def SigOpsOf (nHeight : Int) (view : CoinsView) (vtx : List CTransaction) (vTxSigOps : List Nat) :
    Prop :=
  vTxSigOps.length = vtx.length ∧ ∀ (i : Nat) (tx : CTransaction), vtx[i]? = some tx →
    ∃ view' undos nP2SHSigOps, applyTransactions nHeight view (vtx.take i) = .ok (view', undos) ∧
      tx.getP2SHSigOpCount view' = .ok nP2SHSigOps ∧
      vTxSigOps[i]? = some (tx.getLegacySigOpCount + nP2SHSigOps)

namespace AdmittedAll

variable {n : Nat} {vtx : List CTransaction} {vTxFees : List Int} {vTxSigOps : List Nat}

theorem applied (h : AdmittedAll nHeight view n vtx view' vTxFees vTxSigOps) :
    ∃ undos, applyTransactions nHeight view vtx = .ok (view', undos) ∧
      vTxFees = List.zipWith feeOf vtx undos := by
  induction h with
  | nil => exact ⟨[], rfl, rfl⟩
  | concat init last notCoinBase range ih =>
    obtain ⟨undos, happlied, rfl⟩ := ih
    obtain ⟨txundo, happly, hfee⟩ := last.applied notCoinBase
    refine ⟨undos ++ [txundo], UndoLog.applyAll_concat happlied happly, ?_⟩
    rw [List.zipWith_append (UndoLog.applyAll_length happlied).symm]
    simp [hfee]

theorem fees (h : AdmittedAll nHeight view n vtx view' vTxFees vTxSigOps) :
    ∀ nTxFees ∈ vTxFees, 0 ≤ nTxFees ∧ nTxFees ≤ maxMoney := by
  induction h with
  | nil => exact fun _ hn => absurd hn List.not_mem_nil
  | concat init last notCoinBase range ih =>
    intro fee hfee
    rcases List.mem_append.mp hfee with hfee | hfee
    · exact ih fee hfee
    · rw [List.mem_singleton.mp hfee]
      exact last.fee_range notCoinBase

theorem sigOps (h : AdmittedAll nHeight view n vtx view' vTxFees vTxSigOps) :
    List.Forall₂ (fun tx n => CTransaction.getLegacySigOpCount tx ≤ n) vtx vTxSigOps := by
  induction h with
  | nil => exact .nil
  | concat init last notCoinBase range ih =>
    obtain ⟨p, -, hp⟩ := last.sigOps
    exact List.rel_append ih (.cons (by omega) .nil)

/-- The signature operations listed are those of the transactions. -/
theorem sigOpsOf (h : AdmittedAll nHeight view n vtx view' vTxFees vTxSigOps) :
    SigOpsOf nHeight view vtx vTxSigOps := by
  induction h with
  | nil => exact ⟨rfl, fun i tx htx => absurd htx (by simp)⟩
  | @concat vtx view1 view2 vTxFees vTxSigOps tx nTxFees nTxSigOps init last notCoinBase range ih =>
    obtain ⟨hlength, hcounts⟩ := ih
    refine ⟨by simp [hlength], fun i tx' htx' => ?_⟩
    rcases Nat.lt_or_ge i vtx.length with hi | hi
    · rw [List.getElem?_append_left hi] at htx'
      obtain ⟨view', undos, nP2SHSigOps, happlied, hcount, hget⟩ := hcounts i tx' htx'
      refine ⟨view', undos, nP2SHSigOps, ?_, hcount, ?_⟩
      · rw [List.take_append_of_le_length hi.le]
        exact happlied
      · rw [List.getElem?_append_left (hlength ▸ hi)]
        exact hget
    · obtain ⟨undos, happlied, -⟩ := init.applied
      obtain ⟨nP2SHSigOps, hcount, hn⟩ := last.sigOps
      have hlast : i = vtx.length ∧ tx' = tx := by
        have hlt := (List.getElem?_eq_some_iff.mp htx').1
        rw [List.length_append, List.length_singleton] at hlt
        obtain rfl : i = vtx.length := by omega
        simpa [eq_comm] using htx'
      obtain ⟨rfl, rfl⟩ := hlast
      refine ⟨view1, undos, nP2SHSigOps, ?_, hcount, ?_⟩
      · rw [List.take_left' rfl]
        exact happlied
      · rw [← hlength, List.getElem?_concat_length, hn]

theorem notCoinBase (h : AdmittedAll nHeight view n vtx view' vTxFees vTxSigOps) :
    ∀ tx ∈ vtx, tx.isCoinBase = false := by
  induction h with
  | nil => exact fun _ hn => absurd hn List.not_mem_nil
  | concat init last notCoinBase range ih =>
    intro tx hmem
    rcases List.mem_append.mp hmem with hmem | hmem
    · exact ih tx hmem
    · exact List.mem_singleton.mp hmem ▸ notCoinBase

end AdmittedAll

end Admit

/-! ## One round -/

section Round

variable [Hashing] [ScriptEngine] [PriorityArithmetic] [HeapAlgorithms] {input : MinerInput}
  {limits : BlockLimits} {mapDependers : uint256 → List uint256} {st st' : Assembly}
  {entry : TxPriority} {tx : CTransaction}

/-- The transaction is not put into the block. -/
structure Assembly.Leaves (input : MinerInput) (limits : BlockLimits) (st : Assembly)
    (entry : TxPriority) (st' : Assembly) : Prop where
  refused : ∃ tx, input.pool.mapTx entry.ptx = some tx ∧ (withinLimits limits st entry tx = false ∨
    admitTx (input.pindexPrev.nHeight + 1) st.view st.nBlockSigOps tx = .ok none)
  queue : st'.vecPriority.Perm st.vecPriority
  frame : st' = { st with fSortedByFee := st'.fSortedByFee, vecPriority := st'.vecPriority }

/-- The transaction is put into the block, before those that wait for it are looked at. -/
structure Assembly.Adds (input : MinerInput) (limits : BlockLimits) (st : Assembly)
    (entry : TxPriority) (tx : CTransaction) (st' : Assembly) : Prop where
  ptx : input.pool.mapTx entry.ptx = some tx
  within : withinLimits limits st entry tx = true
  admitted : ∃ nTxFees nTxSigOps,
    Admitted (input.pindexPrev.nHeight + 1) st.view st.nBlockSigOps tx st'.view nTxFees nTxSigOps ∧
      st'.vTxFees = st.vTxFees ++ [nTxFees] ∧ st'.vTxSigOps = st.vTxSigOps ++ [nTxSigOps] ∧
      st'.nBlockSigOps = st.nBlockSigOps + nTxSigOps ∧ st'.nFees = st.nFees + nTxFees ∧
      Int64Range st'.nFees
  vtx : st'.vtx = st.vtx ++ [tx]
  nBlockSize : st'.nBlockSize = st.nBlockSize + tx.getSerializeSize
  nBlockTx : st'.nBlockTx = st.nBlockTx + 1
  vOrphan : st'.vOrphan = st.vOrphan
  queue : st'.vecPriority.Perm st.vecPriority

omit [Hashing] [ScriptEngine] in
theorem prioritizeByFee_frame : prioritizeByFee limits st entry tx =
    { st with
      fSortedByFee := (prioritizeByFee limits st entry tx).fSortedByFee
      vecPriority := (prioritizeByFee limits st entry tx).vecPriority } := by
  unfold prioritizeByFee
  split <;> rfl

omit [Hashing] [ScriptEngine] in
theorem prioritizeByFee_queue :
    (prioritizeByFee limits st entry tx).vecPriority.Perm st.vecPriority := by
  unfold prioritizeByFee
  split
  · exact HeapAlgorithms.makeHeap_perm _ _
  · exact List.Perm.refl _

/-- The ways a round can go. -/
theorem selectEntry_cases (h : selectEntry input limits mapDependers st entry = .ok st') :
    st.Leaves input limits entry st' ∨
    ∃ tx st1, st.Adds input limits entry tx st1 ∧
      (mapDependers tx.getHash).foldlM (releaseOrphan tx.getHash) st1 = .ok st' := by
  simp only [selectEntry, bind_ok, get_ok] at h
  obtain ⟨tx, hptx, h⟩ := h
  have hframe := @prioritizeByFee_frame _ _ limits st entry tx
  have hqueue := @prioritizeByFee_queue _ _ limits st entry tx
  revert h hframe hqueue
  generalize prioritizeByFee limits st entry tx = st0
  intro h hframe hqueue
  cases hwithin : withinLimits limits st entry tx with
  | false =>
    rw [hwithin] at h
    obtain rfl := Except.ok.inj h
    exact .inl ⟨⟨tx, hptx, .inl hwithin⟩, List.Perm.refl _, rfl⟩
  | true =>
    rw [hwithin, Bool.not_true, if_neg Bool.false_ne_true] at h
    obtain ⟨r, hadmit, h⟩ := bind_ok.mp h
    have hview : st0.view = st.view := by rw [hframe]
    have hsigops : st0.nBlockSigOps = st.nBlockSigOps := by rw [hframe]
    rw [hview, hsigops] at hadmit
    cases r with
    | none =>
      obtain rfl := Except.ok.inj h
      exact .inl ⟨⟨tx, hptx, .inr hadmit⟩, hqueue, hframe⟩
    | some r =>
      obtain ⟨view, nTxFees, nTxSigOps⟩ := r
      simp only [bind_ok, add64_ok] at h
      obtain ⟨nFees, ⟨rfl, hrange⟩, h⟩ := h
      refine .inr ⟨tx, _, ?_, h⟩
      refine ⟨hptx, hwithin, ⟨nTxFees, nTxSigOps, admitted_of_admit hadmit, ?_, ?_, ?_, ?_, hrange⟩,
        ?_, ?_, ?_, ?_, hqueue⟩
      all_goals rw [hframe]

/-! ## The transactions that wait -/

/-- Taking `hash` off the prerequisites of the waiting transactions `before`, as far as it has got:
those that have none left have gone to the heap. -/
structure Assembly.Released (hash : uint256) (st : Assembly) (before : List uint256)
    (st' : Assembly) : Prop where
  frame : st' = { st with vOrphan := st'.vOrphan, vecPriority := st'.vecPriority }
  touched : ∀ h ∈ before, st'.vOrphan h = (st.vOrphan h).map fun orphan =>
    { orphan with setDependsOn := orphan.setDependsOn.erase hash }
  others : ∀ h, h ∉ before → st'.vOrphan h = st.vOrphan h
  exists_orphan : ∀ h ∈ before, (st.vOrphan h).isSome
  queue : ∃ new, (st'.vecPriority.map TxPriority.ptx).Perm
    (st.vecPriority.map TxPriority.ptx ++ new) ∧ new.Nodup ∧ ∀ h, h ∈ new ↔
      h ∈ before ∧ ∃ orphan, st.vOrphan h = some orphan ∧ orphan.setDependsOn.erase hash = ∅

omit [Hashing] [ScriptEngine] [HeapAlgorithms] in
theorem Assembly.Released.refl (hash : uint256) (st : Assembly) :
    Assembly.Released hash st [] st where
  frame := rfl
  touched _ h := absurd h List.not_mem_nil
  others _ _ := rfl
  exists_orphan _ h := absurd h List.not_mem_nil
  queue := ⟨[], by simp, List.nodup_nil, by simp⟩

omit [Hashing] [ScriptEngine] in
theorem Assembly.Released.again {hash porphan : uint256} {before : List uint256}
    {st1 st2 : Assembly} (h : Assembly.Released hash st before st1) (hmem : porphan ∈ before)
    (hstep : releaseOrphan hash st1 porphan = .ok st2) :
    Assembly.Released hash st (before ++ [porphan]) st2 := by
  simp only [Terracoin.releaseOrphan, bind_ok, get_ok] at hstep
  obtain ⟨orphan1, ho1, hstep⟩ := hstep
  obtain ⟨new, hperm, hnodup, hnew⟩ := h.queue
  have htouched := h.touched porphan hmem
  rw [ho1] at htouched
  obtain ⟨orphan, ho, rfl⟩ := Option.map_eq_some_iff.mp htouched.symm
  have hsame : ∀ h', h' ∈ before ++ [porphan] ↔ h' ∈ before := by
    intro h'
    rw [List.mem_append, List.mem_singleton]
    exact ⟨fun hor => hor.elim id fun heq => heq ▸ hmem, .inl⟩
  have hst2 : st2.vOrphan = st1.vOrphan ∧ st2.vecPriority = st1.vecPriority ∧
      st2 = { st1 with vOrphan := st2.vOrphan, vecPriority := st2.vecPriority } := by
    split at hstep
    · obtain rfl := Except.ok.inj hstep
      exact ⟨rfl, rfl, rfl⟩
    · rename_i hne
      rw [Finset.erase_idem, if_neg hne] at hstep
      obtain rfl := Except.ok.inj hstep
      refine ⟨?_, rfl, rfl⟩
      dsimp only
      rw [← ho1, Function.update_eq_self]
  obtain ⟨horphan, hqueue, hframe⟩ := hst2
  refine ⟨?_, fun h' hm => ?_, fun h' hm => ?_, fun h' hm => ?_, new, ?_, hnodup, fun h' => ?_⟩
  · rw [hframe, h.frame]
  · rw [horphan]
    exact h.touched h' ((hsame h').mp hm)
  · rw [horphan]
    exact h.others h' fun hb => hm ((hsame h').mpr hb)
  · exact h.exists_orphan h' ((hsame h').mp hm)
  · rw [hqueue]
    exact hperm
  · rw [hsame]
    exact hnew h'

omit [Hashing] [ScriptEngine] in
theorem Assembly.Released.first {hash porphan : uint256} {before : List uint256}
    {st1 st2 : Assembly} (h : Assembly.Released hash st before st1) (hmem : porphan ∉ before)
    (hwaits : ∀ orphan, st.vOrphan porphan = some orphan →
      orphan.ptx = porphan ∧ hash ∈ orphan.setDependsOn)
    (hstep : releaseOrphan hash st1 porphan = .ok st2) :
    Assembly.Released hash st (before ++ [porphan]) st2 := by
  simp only [Terracoin.releaseOrphan, bind_ok, get_ok] at hstep
  obtain ⟨orphan1, ho1, hstep⟩ := hstep
  obtain ⟨new, hperm, hnodup, hnew⟩ := h.queue
  have ho : st.vOrphan porphan = some orphan1 := (h.others porphan hmem).symm.trans ho1
  obtain ⟨hptx, hin⟩ := hwaits orphan1 ho
  rw [if_neg (Finset.ne_empty_of_mem hin)] at hstep
  have hsome : ∀ h' ∈ before ++ [porphan], (st.vOrphan h').isSome := by
    intro h' hm
    rcases List.mem_append.mp hm with hb | hs
    · exact h.exists_orphan h' hb
    · rw [List.mem_singleton.mp hs, ho]
      rfl
  have htouched : ∀ h' ∈ before ++ [porphan], Function.update st1.vOrphan porphan
      (some { orphan1 with setDependsOn := orphan1.setDependsOn.erase hash }) h' =
        (st.vOrphan h').map fun orphan =>
          { orphan with setDependsOn := orphan.setDependsOn.erase hash } := by
    intro h' hm
    by_cases heq : h' = porphan
    · subst heq
      rw [Function.update_self, ho]
      rfl
    · rw [Function.update_of_ne heq]
      exact h.touched h' (by simpa [heq] using hm)
  have hothers : ∀ h', h' ∉ before ++ [porphan] → Function.update st1.vOrphan porphan
      (some { orphan1 with setDependsOn := orphan1.setDependsOn.erase hash }) h' =
        st.vOrphan h' := by
    intro h' hm
    rw [List.mem_append, List.mem_singleton, not_or] at hm
    rw [Function.update_of_ne hm.2]
    exact h.others h' hm.1
  split at hstep
  · rename_i hempty
    obtain rfl := Except.ok.inj hstep
    refine ⟨?_, htouched, hothers, hsome, new ++ [porphan], ?_, ?_, fun h' => ?_⟩
    · rw [h.frame]
    · refine (List.Perm.map _ (HeapAlgorithms.pushHeap_perm _ _)).trans ?_
      rw [List.map_append, ← List.append_assoc]
      exact hperm.append (by simp [hptx])
    · refine List.nodup_append.mpr ⟨hnodup, by simp, fun a ha b hb heq => ?_⟩
      rw [List.mem_singleton.mp hb] at heq
      exact hmem ((hnew porphan).mp (heq ▸ ha)).1
    · rw [List.mem_append, List.mem_append, List.mem_singleton, hnew]
      constructor
      · rintro (⟨hb, hor⟩ | rfl)
        · exact ⟨.inl hb, hor⟩
        · exact ⟨.inr rfl, orphan1, ho, hempty⟩
      · rintro ⟨hb | rfl, hor⟩
        · exact .inl ⟨hb, hor⟩
        · exact .inr rfl
  · rename_i hne
    obtain rfl := Except.ok.inj hstep
    refine ⟨?_, htouched, hothers, hsome, new, hperm, hnodup, fun h' => ?_⟩
    · rw [h.frame]
    · rw [List.mem_append, List.mem_singleton, hnew]
      constructor
      · rintro ⟨hb, hor⟩
        exact ⟨.inl hb, hor⟩
      · rintro ⟨hb | rfl, orphan, hor, hempty⟩
        · exact ⟨hb, orphan, hor, hempty⟩
        · obtain rfl := Option.some.inj (ho.symm.trans hor)
          exact absurd hempty hne

omit [Hashing] [ScriptEngine] in
/-- One more pointer. A transaction may be listed several times; it goes to the heap when its last
prerequisite is taken off, and not again. -/
theorem Assembly.Released.releaseOrphan {hash porphan : uint256} {before : List uint256}
    {st1 st2 : Assembly} (h : Assembly.Released hash st before st1)
    (hwaits : ∀ orphan, st.vOrphan porphan = some orphan →
      orphan.ptx = porphan ∧ hash ∈ orphan.setDependsOn)
    (hstep : releaseOrphan hash st1 porphan = .ok st2) :
    Assembly.Released hash st (before ++ [porphan]) st2 := by
  by_cases hmem : porphan ∈ before
  · exact h.again hmem hstep
  · exact h.first hmem hwaits hstep

omit [Hashing] [ScriptEngine] in
theorem foldlM_releaseOrphan {hash : uint256} {before porphans : List uint256} {st1 st2 : Assembly}
    (h : Assembly.Released hash st before st1)
    (hwaits : ∀ porphan ∈ porphans, ∀ orphan, st.vOrphan porphan = some orphan →
      orphan.ptx = porphan ∧ hash ∈ orphan.setDependsOn)
    (hrun : porphans.foldlM (releaseOrphan hash) st1 = .ok st2) :
    Assembly.Released hash st (before ++ porphans) st2 := by
  induction porphans generalizing before st1 with
  | nil =>
    obtain rfl := Except.ok.inj hrun
    rwa [List.append_nil]
  | cons porphan porphans ih =>
    rw [List.foldlM_cons, bind_ok] at hrun
    obtain ⟨st3, h1, h2⟩ := hrun
    rw [List.append_cons]
    exact ih (h.releaseOrphan (hwaits porphan List.mem_cons_self) h1)
      (fun p hp => hwaits p (List.mem_cons_of_mem _ hp)) h2

end Round

end Terracoin
