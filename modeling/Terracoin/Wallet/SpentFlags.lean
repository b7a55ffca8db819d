import Mathlib.Data.List.GetD
import Terracoin.Wallet.AddToWallet

/-!
# Spent flags

`MarkSpent` resizes the flags of a transaction to its outputs, and `IsSpent` takes an output without
a flag as unspent. `UpdateSpent`, which merges the flags of another copy of the transaction, stops
where the flags of the first one end: the flags of the copy beyond that are lost. Without such flags
an output is spent exactly if it was marked, or its flag was set in a copy (`spentFlags_iff`).
-/

namespace Terracoin

open Std (TreeMap)
open CWalletTx WalletState

/-! ## Merging -/

theorem getD_mergeSpent (vfSpent vfNewSpent : List Bool) (n : Nat) :
    (mergeSpent vfSpent vfNewSpent).1.getD n false =
      (vfSpent.getD n false || (decide (n < vfSpent.length) && vfNewSpent.getD n false)) := by
  induction vfSpent generalizing vfNewSpent n with
  | nil => simp [mergeSpent]
  | cons fSpent vfSpent ih =>
    cases vfNewSpent with
    | nil => simp [mergeSpent]
    | cons fNewSpent vfNewSpent =>
      cases n with
      | zero => simp [mergeSpent]
      | succ n =>
        rw [mergeSpent]
        simpa using ih vfNewSpent n

theorem vfSpent_merge (wtx wtxIn : CWalletTx) :
    (wtx.merge wtxIn).1.vfSpent = (mergeSpent wtx.vfSpent wtxIn.vfSpent).1 := by
  unfold CWalletTx.merge CWalletTx.updateSpent
  dsimp only
  split <;> split <;> split <;> rfl

theorem isSpent_merge (wtx wtxIn : CWalletTx) (n : Nat) :
    (wtx.merge wtxIn).1.isSpent n =
      (wtx.isSpent n || (decide (n < wtx.vfSpent.length) && wtxIn.vfSpent.getD n false)) := by
  rw [isSpent, vfSpent_merge, getD_mergeSpent]
  rfl

theorem isSpent_markSpent {wtx : CWalletTx} {nOut n : Nat} (hOut : nOut < wtx.tx.vout.length)
    (hn : n < wtx.tx.vout.length) :
    (wtx.markSpent nOut).isSpent n = (wtx.isSpent n || decide (n = nOut)) := by
  have hresize : ∀ m < wtx.tx.vout.length,
      (wtx.vfSpent.takeD wtx.tx.vout.length false).getD m false = wtx.isSpent m :=
    fun m hm => getD_takeD hm wtx.vfSpent false
  unfold CWalletTx.markSpent
  dsimp only
  split
  · rename_i hspent
    rw [isSpent, hresize nOut hOut] at hspent
    rw [isSpent, hresize n hn]
    by_cases heq : n = nOut
    · rw [heq, hspent]
      rfl
    · rw [decide_eq_false heq, Bool.or_false]
  · rw [isSpent]
    dsimp only
    by_cases heq : n = nOut
    · subst heq
      rw [List.getD_eq_getElem?_getD, List.getElem?_set_self (by rwa [List.takeD_length])]
      simp
    · rw [List.getD_eq_getElem?_getD, List.getElem?_set_ne (Ne.symm heq),
        ← List.getD_eq_getElem?_getD, hresize n hn, decide_eq_false heq, Bool.or_false]

section

variable [EllipticCurve] [ByteHashing160] [Hashing]

variable {w w' : WalletState} {hash : uint256} {wtx : CWalletTx}

theorem spendInput_other {txin : CTxIn} (h : txin.prevout.hash ≠ hash) :
    (w.spendInput txin).1.mapWallet[hash]? = w.mapWallet[hash]? := by
  unfold WalletState.spendInput
  split
  · rfl
  · split
    · rfl
    · split
      · split
        · rw [getElem?_setTx, if_neg h.symm]
        · rw [getElem?_setTx, if_neg h.symm]
      · rfl

theorem walletUpdateSpent_other {vin : List CTxIn} (h : ∀ txin ∈ vin, txin.prevout.hash ≠ hash) :
    (w.walletUpdateSpent vin).mapWallet[hash]? = w.mapWallet[hash]? := by
  induction vin generalizing w with
  | nil => rfl
  | cons txin vin ih =>
    have hother := spendInput_other (w := w) (h txin List.mem_cons_self)
    rw [WalletState.walletUpdateSpent]
    split
    · rename_i w1 heq
      rw [heq] at hother
      rw [ih fun t ht => h t (List.mem_cons_of_mem _ ht)]
      exact hother
    · rename_i w1 heq
      rwa [heq] at hother

/-- A transaction does not spend its own outputs. -/
def SpendsOthers (tx : CTransaction) : Prop := ∀ txin ∈ tx.vin, txin.prevout.hash ≠ tx.getHash

theorem tx_added {wtxIn : CWalletTx}
    (hentry : ∀ wtx, w.mapWallet[wtxIn.tx.getHash]? = some wtx → wtx.tx = wtxIn.tx) :
    (w.added wtxIn).1.tx = wtxIn.tx := by
  unfold WalletState.added
  split
  · rfl
  · rename_i wtx hget
    rw [tx_merge]
    exact hentry wtx hget

theorem getElem?_addToWallet {wtxIn : CWalletTx} (hspends : SpendsOthers wtxIn.tx)
    (hentry : ∀ wtx, w.mapWallet[wtxIn.tx.getHash]? = some wtx → wtx.tx = wtxIn.tx)
    (fWritten : Bool) (calls : List PoolCall) :
    (w.addToWallet wtxIn fWritten calls).mapWallet[wtxIn.tx.getHash]? = some (w.added wtxIn).1 := by
  have hset : (w.setTx wtxIn.tx.getHash (w.added wtxIn).1).mapWallet[wtxIn.tx.getHash]? =
      some (w.added wtxIn).1 := by
    rw [getElem?_setTx, if_pos rfl]
  unfold WalletState.addToWallet
  split
  · exact hset
  · rw [tx_added hentry, walletUpdateSpent_other hspends, mapWallet_addTx, hset]

/-! ## Runs -/

/-- A call of `AddToWallet` with a copy of the transaction, or of `MarkSpent`. -/
def IsAbout (tx : CTransaction) : WalletOp → Prop
  | .addToWallet wtxIn _ _ _ => wtxIn.tx = tx ∧ wtxIn.vfSpent.length ≤ tx.vout.length
  | .markSpent hash nOut => hash = tx.getHash ∧ nOut < tx.vout.length
  | _ => False

/-- The call marks the output, or its flag is set in the copy that is added. -/
def Spends (nOut : Nat) : WalletOp → Prop
  | .addToWallet wtxIn _ _ _ => wtxIn.vfSpent.getD nOut false = true
  | .markSpent _ n => nOut = n
  | _ => False

def ReportsSpent (tx : CTransaction) (ops : List WalletOp) (w : WalletState) : Prop :=
  ∃ wtx, w.mapWallet[tx.getHash]? = some wtx ∧ wtx.tx = tx ∧
    ∀ nOut < tx.vout.length, wtx.isSpent nOut = true ↔ ∃ op ∈ ops, Spends nOut op

/-- A copy that is merged has no flag set beyond the flags that are there. -/
def KeepsFlags (w : WalletState) : WalletOp → Prop
  | .addToWallet wtxIn _ _ _ => ∀ wtx, w.mapWallet[wtxIn.tx.getHash]? = some wtx →
      ∀ nOut, wtxIn.vfSpent.getD nOut false = true → nOut < wtx.vfSpent.length
  | _ => True

variable {tx : CTransaction} {ops : List WalletOp} {op : WalletOp}

theorem reportsSpent_insert {wtxIn : CWalletTx} {hnew : wtxIn.nImmatureCreditCached = none}
    {fWritten : Bool} {calls : List PoolCall} (hspends : SpendsOthers tx) (htx : wtxIn.tx = tx)
    (hnone : w.mapWallet[tx.getHash]? = none)
    (hstep : w.step (.addToWallet wtxIn hnew fWritten calls) = some w') :
    ReportsSpent tx [.addToWallet wtxIn hnew fWritten calls] w' := by
  subst htx
  have hadded : (w.added wtxIn).1 = wtxIn.markDirty := by
    rw [added, hnone]
  have hget := getElem?_addToWallet hspends (fun wtx h => by rw [hnone] at h; cases h) fWritten calls
  rw [← Option.some.inj hstep]
  refine ⟨wtxIn.markDirty, hadded ▸ hget, rfl, fun nOut _ => ?_⟩
  simp [Spends, isSpent, CWalletTx.markDirty]

/-- The entry after one more call. -/
theorem reportsSpent_append {wtx' : CWalletTx} (h : ∀ nOut < tx.vout.length,
      (wtx.isSpent nOut = true ↔ ∃ op ∈ ops, Spends nOut op))
    (hget' : w'.mapWallet[tx.getHash]? = some wtx') (htx' : wtx'.tx = tx) :
    ReportsSpent tx (ops ++ [op]) w' ↔ ∀ nOut < tx.vout.length,
      (wtx'.isSpent nOut = true ↔ wtx.isSpent nOut = true ∨ Spends nOut op) := by
  have hcalls : ∀ nOut < tx.vout.length, ((∃ o ∈ ops ++ [op], Spends nOut o) ↔
      wtx.isSpent nOut = true ∨ Spends nOut op) := by
    intro nOut hn
    rw [h nOut hn]
    constructor
    · rintro ⟨o, ho, hspends⟩
      rcases List.mem_append.mp ho with ho | ho
      · exact .inl ⟨o, ho, hspends⟩
      · exact .inr (List.mem_singleton.mp ho ▸ hspends)
    · rintro (⟨o, ho, hspends⟩ | hspends)
      · exact ⟨o, List.mem_append_left _ ho, hspends⟩
      · exact ⟨op, List.mem_append_right _ (List.mem_singleton_self op), hspends⟩
  constructor
  · rintro ⟨wtx0, hget0, -, hspent⟩ nOut hn
    obtain rfl := Option.some.inj (hget0.symm.trans hget')
    exact (hspent nOut hn).trans (hcalls nOut hn)
  · intro hspent
    exact ⟨wtx', hget', htx', fun nOut hn => (hspent nOut hn).trans (hcalls nOut hn).symm⟩

/-- One more call keeps what is reported exactly if it loses no flag. -/
theorem reportsSpent_step (hspends : SpendsOthers tx) (hop : IsAbout tx op)
    (h : ReportsSpent tx ops w) (hstep : w.step op = some w') :
    ReportsSpent tx (ops ++ [op]) w' ↔ KeepsFlags w op := by
  obtain ⟨wtx, hget, htx, hspent⟩ := h
  cases op with
  | addToWallet wtxIn hnew fWritten calls =>
    obtain ⟨hcopy, hlen⟩ := hop
    subst hcopy
    have hentry : ∀ wtx, w.mapWallet[wtxIn.tx.getHash]? = some wtx → wtx.tx = wtxIn.tx := by
      intro wtx0 hget0
      rw [Option.some.inj (hget0.symm.trans hget), htx]
    have hadded : (w.added wtxIn).1 = (wtx.markDirty.merge wtxIn).1 := by
      rw [added, hget]
    have hget' := getElem?_addToWallet hspends hentry fWritten calls
    have hdirty : ∀ nOut, wtx.markDirty.isSpent nOut = wtx.isSpent nOut := fun _ => rfl
    rw [hadded, Option.some.inj hstep] at hget'
    rw [reportsSpent_append hspent hget' ((tx_merge _ _).trans htx)]
    constructor
    · intro hall wtx0 hget0 nOut hflag
      obtain rfl := Option.some.inj (hget0.symm.trans hget)
      have hn : nOut < wtxIn.vfSpent.length := by
        by_contra hge
        rw [List.getD_eq_default _ _ (by omega)] at hflag
        cases hflag
      have hmerged := (hall nOut (by omega)).mpr (.inr hflag)
      rw [isSpent_merge, hdirty, Bool.or_eq_true, Bool.and_eq_true, decide_eq_true_iff] at hmerged
      rcases hmerged with hset | ⟨hlt, -⟩
      · by_contra hge
        rw [isSpent, List.getD_eq_default _ _ (by omega)] at hset
        cases hset
      · exact hlt
    · intro hkeeps nOut hn
      rw [isSpent_merge, hdirty, Bool.or_eq_true, Bool.and_eq_true, decide_eq_true_iff]
      refine or_congr_right ⟨fun hand => hand.2, fun hflag => ⟨?_, hflag⟩⟩
      exact hkeeps wtx hget nOut hflag
  | markSpent hash nOut =>
    obtain ⟨rfl, hOut⟩ := hop
    have hget' : w'.mapWallet[tx.getHash]? = some (wtx.markSpent nOut) := by
      rw [← Option.some.inj hstep, modifyTx, hget]
      dsimp only
      rw [getElem?_setTx, if_pos rfl, htx, if_pos hOut]
    rw [reportsSpent_append hspent hget' ((tx_markSpent _ _).trans htx)]
    refine iff_of_true (fun n hn => ?_) trivial
    rw [isSpent_markSpent (htx ▸ hOut) (htx ▸ hn), Bool.or_eq_true, decide_eq_true_iff]
    rfl
  | _ => exact hop.elim

theorem step_isAbout (hop : IsAbout tx op) : ∃ w', w.step op = some w' := by
  cases op with
  | addToWallet wtxIn hnew fWritten calls => exact ⟨_, rfl⟩
  | markSpent hash nOut => exact ⟨_, rfl⟩
  | _ => exact hop.elim

/-- What is reported is right after each of the calls that follow. -/
theorem reportsSpent_run {calls : List WalletOp} (hspends : SpendsOthers tx)
    (hops : ∀ op ∈ calls, IsAbout tx op) (h : ReportsSpent tx ops w) :
    (∀ calls', calls' <+: calls → ∀ w', Run.run WalletState.step w calls' = some w' →
      ReportsSpent tx (ops ++ calls') w') ↔ Run.Meets KeepsFlags WalletState.step w calls := by
  induction calls generalizing w ops with
  | nil =>
    refine iff_of_true (fun calls' hpre w' hrun => ?_) trivial
    rw [List.prefix_nil.mp hpre] at hrun ⊢
    rw [List.append_nil]
    exact Option.some.inj hrun ▸ h
  | cons op calls ih =>
    have hop := hops op List.mem_cons_self
    have hrest : ∀ op ∈ calls, IsAbout tx op := fun o ho => hops o (List.mem_cons_of_mem _ ho)
    constructor
    · intro hall
      have hone : ∀ w1, w.step op = some w1 → ReportsSpent tx (ops ++ [op]) w1 := fun w1 hw1 =>
        hall [op] (List.prefix_append [op] calls) w1 (Run.run_cons.mpr ⟨w1, hw1, rfl⟩)
      refine ⟨?_, fun w1 hw1 => ?_⟩
      · obtain ⟨w1, hw1⟩ := step_isAbout (w := w) hop
        exact (reportsSpent_step hspends hop h hw1).mp (hone w1 hw1)
      · refine (ih hrest (hone w1 hw1)).mp fun calls' hpre w' hrun => ?_
        rw [List.append_assoc]
        exact hall (op :: calls') (List.cons_prefix_cons.mpr ⟨rfl, hpre⟩) w'
          (Run.run_cons.mpr ⟨w1, hw1, hrun⟩)
    · rintro ⟨hkeeps, hmeets⟩ calls' hpre w' hrun
      cases calls' with
      | nil =>
        rw [List.append_nil]
        exact Option.some.inj hrun ▸ h
      | cons op' calls' =>
        obtain ⟨rfl, hrest'⟩ := List.cons_prefix_cons.mp hpre
        obtain ⟨w1, hw1, hrun⟩ := Run.run_cons.mp hrun
        have hone := (reportsSpent_step hspends hop h hw1).mpr hkeeps
        have hlater := (ih hrest hone).mpr (hmeets w1 hw1) calls' hrest' w' hrun
        rwa [List.append_assoc] at hlater

/-- A transaction is inserted, and then copies of it are merged and outputs marked. After each of
these calls the outputs reported spent are those that were marked or have a flag in a copy, exactly
if every copy that is merged has flags only where there are some already. -/
theorem spentFlags_iff {wtxIn : CWalletTx} {hnew : wtxIn.nImmatureCreditCached = none}
    {fWritten : Bool} {poolCalls : List PoolCall} {calls : List WalletOp}
    (hspends : SpendsOthers wtxIn.tx) (hnone : w.mapWallet[wtxIn.tx.getHash]? = none)
    (hcalls : ∀ op ∈ calls, IsAbout wtxIn.tx op) :
    (∀ calls', calls' <+: calls → ∀ w',
      Run.run WalletState.step w (.addToWallet wtxIn hnew fWritten poolCalls :: calls') = some w' →
      ReportsSpent wtxIn.tx (.addToWallet wtxIn hnew fWritten poolCalls :: calls') w') ↔
    Run.Meets KeepsFlags WalletState.step w (.addToWallet wtxIn hnew fWritten poolCalls :: calls) := by
  have hinsert : w.step (.addToWallet wtxIn hnew fWritten poolCalls) =
      some (w.addToWallet wtxIn fWritten poolCalls) := rfl
  have hfirst := reportsSpent_insert hspends rfl hnone hinsert
  have hkeeps : KeepsFlags w (.addToWallet wtxIn hnew fWritten poolCalls) := by
    intro wtx hget
    rw [hnone] at hget
    cases hget
  have hrun := reportsSpent_run hspends hcalls hfirst
  constructor
  · intro hall
    refine ⟨hkeeps, fun w1 hw1 => ?_⟩
    obtain rfl := Option.some.inj (hinsert.symm.trans hw1)
    exact hrun.mp fun calls' hpre w' hw' => hall calls' hpre w' (Run.run_cons.mpr ⟨_, hinsert, hw'⟩)
  · rintro ⟨-, hmeets⟩ calls' hpre w' hw'
    obtain ⟨w1, hw1, hw'⟩ := Run.run_cons.mp hw'
    obtain rfl := Option.some.inj (hinsert.symm.trans hw1)
    exact hrun.mpr (hmeets _ hinsert) calls' hpre w' hw'

end

namespace WalletSample

open KeySample Sample

/-- The payment with the flags of its only output. -/
def flagged (vfSpent : List Bool) : CWalletTx := { parent with vfSpent := vfSpent }

/-- The payment is added, and then a copy. -/
def copies (vfSpent vfNewSpent : List Bool) : List WalletOp :=
  [.addToWallet (flagged vfSpent) rfl true [], .addToWallet (flagged vfNewSpent) rfl true []]

/-- The flags of the payment in a wallet. -/
def flags (w : WalletState) : Option (List Bool) :=
  w.mapWallet[parent.tx.getHash]?.map fun wtx => wtx.vfSpent

theorem spentFlags_iff_sample : ∃ w', Run.run WalletState.step wallet (copies [false] [true]) = some w' ∧
    ReportsSpent parent.tx (copies [false] [true]) w' := by
  have hflags : flags (wallet.addToWallet (flagged [false]) true []) = some [false] := by
    decide +kernel
  have hmeets : Run.Meets KeepsFlags WalletState.step wallet (copies [false] [true]) := by
    refine ⟨fun wtx hget => by simp [wallet] at hget, fun w1 hw1 => ⟨?_, fun _ _ => trivial⟩⟩
    intro wtx hget nOut hflag
    obtain rfl := Option.some.inj hw1
    have hlen : wtx.vfSpent = [false] := by
      have hmap := congrArg (Option.map fun wtx => wtx.vfSpent) hget
      exact Option.some.inj (hmap.symm.trans hflags)
    rw [hlen]
    by_contra hge
    rw [List.length_singleton] at hge
    rw [List.getD_eq_default _ _ (by exact Nat.le_of_not_lt hge)] at hflag
    cases hflag
  have hspends : SpendsOthers (flagged [false]).tx := by
    show ∀ txin ∈ parent.tx.vin, txin.prevout.hash ≠ parent.tx.getHash
    decide
  have hcalls : ∀ op ∈ [WalletOp.addToWallet (flagged [true]) rfl true []],
      IsAbout (flagged [false]).tx op := by
    intro op hop
    rw [List.mem_singleton.mp hop]
    exact ⟨rfl, by decide⟩
  have hall := (spentFlags_iff hspends (by simp [wallet]) hcalls).mpr hmeets
  exact ⟨_, rfl, hall _ (List.prefix_refl _) _ rfl⟩

/-- A copy without flags is there first. -/
theorem not_spentFlags : ∃ w', Run.run WalletState.step wallet (copies [] [true]) = some w' ∧
    ¬ ReportsSpent parent.tx (copies [] [true]) w' := by
  have hflags : (Run.run WalletState.step wallet (copies [] [true])).bind flags = some [] := by
    decide +kernel
  obtain ⟨w', hrun, hw'⟩ := Option.bind_eq_some_iff.mp hflags
  refine ⟨w', hrun, ?_⟩
  rintro ⟨wtx, hget, -, hspent⟩
  have hlen : wtx.vfSpent = [] := by
    rw [flags, hget] at hw'
    exact Option.some.inj hw'
  have hset := (hspent 0 (by decide)).mpr
    ⟨.addToWallet (flagged [true]) rfl true [], List.mem_cons_of_mem _ List.mem_cons_self, rfl⟩
  rw [isSpent, hlen] at hset
  cases hset

end WalletSample

end Terracoin
