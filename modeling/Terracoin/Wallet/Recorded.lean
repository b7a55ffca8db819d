import Terracoin.Wallet.AddToWallet

/-!
# Recorded transactions

A wallet that is filled by `AddToWallet` with transactions that the node has accepted, parents before
children. Its spent flags say which of its outputs are spent by one of its transactions
(`recorded_of_run`): `WalletUpdateSpent` sets them when the spending transaction is added.
-/

namespace Terracoin

open Std (TreeMap)
open Memo CWalletTx

def CTxIn.Names (txin : CTxIn) (hash : uint256) (n : Nat) : Prop :=
  txin.prevout.hash = hash ∧ txin.prevout.n.toNat = n

/-! ## Sums that stay in range -/

theorem foldlM_addMoney {α : Type} {value : α → Option Int} {g : α → Int} {l : List α} {n : Int}
    (h : ∀ a ∈ l, value a = some (g a)) (hg : ∀ a ∈ l, 0 ≤ g a) (hn : 0 ≤ n)
    (hsum : n + (l.map g).sum ≤ maxMoney) :
    l.foldlM (addMoney value) n = some (n + (l.map g).sum) := by
  induction l generalizing n with
  | nil => simp
  | cons a l ih =>
    have ha := hg a List.mem_cons_self
    have hg' : ∀ b ∈ l, 0 ≤ g b := fun b hb => hg b (List.mem_cons_of_mem _ hb)
    have hrest : 0 ≤ (l.map g).sum := by
      apply List.sum_nonneg
      intro v hv
      obtain ⟨b, hb, rfl⟩ := List.mem_map.mp hv
      exact hg' b hb
    rw [List.map_cons, List.sum_cons, ← Int.add_assoc] at hsum ⊢
    have hrange : moneyRange (n + g a) = true := moneyRange_iff.mpr ⟨by omega, by omega⟩
    have hstep : addMoney value n a = some (n + g a) := by
      rw [addMoney, h a List.mem_cons_self]
      exact if_pos hrange
    rw [List.foldlM_cons, hstep]
    exact ih (fun b hb => h b (List.mem_cons_of_mem _ hb)) hg' (by omega) hsum

theorem sumMoney_eq {α : Type} {value : α → Option Int} {g : α → Int} {l : List α}
    (h : ∀ a ∈ l, value a = some (g a)) (hg : ∀ a ∈ l, 0 ≤ g a) (hsum : (l.map g).sum ≤ maxMoney) :
    sumMoney value l = some (l.map g).sum := by
  have hfold := foldlM_addMoney h hg (Int.le_refl 0) (by rwa [Int.zero_add])
  rwa [Int.zero_add] at hfold

section

variable [EllipticCurve] [ByteHashing160]

namespace WalletState

def mineValue (w : WalletState) (txout : CTxOut) : Int := if w.isMine txout then txout.nValue else 0

variable {w w' : WalletState} {hash : uint256} {wtx wtx' : CWalletTx} {tx : CTransaction}

theorem mineValue_nonneg (htx : tx.Checked) {txout : CTxOut} (hmem : txout ∈ tx.vout) :
    0 ≤ w.mineValue txout := by
  rw [mineValue]
  split
  · exact (htx.value_range txout hmem).1
  · exact Int.le_refl 0

omit [EllipticCurve] [ByteHashing160] in
theorem sum_le_of_sublist (htx : tx.Checked) {l : List CTxOut} (hl : l.Sublist tx.vout)
    {g : CTxOut → Int} (hg : ∀ txout ∈ tx.vout, 0 ≤ g txout ∧ g txout ≤ txout.nValue) :
    (l.map g).sum ≤ maxMoney := by
  have hnonneg : ∀ v ∈ tx.vout.map g, 0 ≤ v := by
    intro v hv
    obtain ⟨txout, hmem, rfl⟩ := List.mem_map.mp hv
    exact (hg txout hmem).1
  calc (l.map g).sum ≤ (tx.vout.map g).sum := (hl.map g).sum_le_sum hnonneg
    _ ≤ tx.valueOut := List.sum_le_sum fun txout hmem => (hg txout hmem).2
    _ ≤ maxMoney := htx.valueOut_le

theorem mineValue_range (htx : tx.Checked) (txout : CTxOut) (hmem : txout ∈ tx.vout) :
    0 ≤ w.mineValue txout ∧ w.mineValue txout ≤ txout.nValue := by
  have hrange := htx.value_range txout hmem
  refine ⟨mineValue_nonneg htx hmem, ?_⟩
  rw [mineValue]
  split
  · exact Int.le_refl _
  · exact hrange.1

theorem creditOf_eq (htx : tx.Checked) {txout : CTxOut} (hmem : txout ∈ tx.vout) :
    w.creditOf txout = some (w.mineValue txout) := by
  rw [creditOf, if_pos (moneyRange_iff.mpr (htx.value_range txout hmem)), mineValue]

theorem sumMoney_creditOf (htx : tx.Checked) {l : List CTxOut} (hl : l.Sublist tx.vout) :
    sumMoney w.creditOf l = some (l.map w.mineValue).sum :=
  sumMoney_eq (fun _ hmem => creditOf_eq htx (hl.subset hmem))
    (fun _ hmem => mineValue_nonneg htx (hl.subset hmem))
    (sum_le_of_sublist htx hl (mineValue_range htx))

/-! ## The same transactions -/

/-- The same transactions, and the same of their outputs are mine. -/
structure SameTxs (w w' : WalletState) : Prop where
  tx_eq : ∀ hash : uint256, (w'.mapWallet[hash]?).map (fun wtx => wtx.tx) =
    (w.mapWallet[hash]?).map fun wtx => wtx.tx
  mine : ∀ (hash : uint256) (wtx : CWalletTx), w.mapWallet[hash]? = some wtx →
    ∀ txout ∈ wtx.tx.vout, w'.isMine txout = w.isMine txout

theorem SameTxs.exists_of_get (h : SameTxs w w') (hget : w'.mapWallet[hash]? = some wtx') :
    ∃ wtx : CWalletTx, w.mapWallet[hash]? = some wtx ∧ wtx.tx = wtx'.tx := by
  have htx := h.tx_eq hash
  rw [hget, Option.map_some, eq_comm, Option.map_eq_some_iff] at htx
  exact htx

theorem SameTxs.symm (h : SameTxs w w') : SameTxs w' w where
  tx_eq hash := (h.tx_eq hash).symm
  mine hash wtx' hget txout hmem := by
    obtain ⟨wtx, hget', htx⟩ := h.exists_of_get hget
    exact (h.mine hash wtx hget' txout (htx ▸ hmem)).symm

theorem SameTxs.trans {w'' : WalletState} (h : SameTxs w w') (h' : SameTxs w' w'') :
    SameTxs w w'' where
  tx_eq hash := (h'.tx_eq hash).trans (h.tx_eq hash)
  mine hash wtx hget txout hmem := by
    obtain ⟨wtx', hget', htx⟩ := h.symm.exists_of_get hget
    exact (h'.mine hash wtx' hget' txout (htx ▸ hmem)).trans (h.mine hash wtx hget txout hmem)

theorem SameTxs.refl (w : WalletState) : SameTxs w w := ⟨fun _ => rfl, fun _ _ _ _ _ => rfl⟩

theorem sameTxs_setTx (hget : w.mapWallet[hash]? = some wtx) (htx : wtx'.tx = wtx.tx) :
    SameTxs w (w.setTx hash wtx') where
  tx_eq hash' := by
    rw [getElem?_setTx]
    split
    · rename_i heq
      rw [heq, hget, Option.map_some, Option.map_some, htx]
    · rfl
  mine _ _ _ _ _ := rfl

theorem SameTxs.prevOut_eq (h : SameTxs w w') (txin : CTxIn) : w'.prevOut txin = w.prevOut txin := by
  have hmap : ∀ w0 : WalletState, w0.prevOut txin =
      (w0.mapWallet[txin.prevout.hash]?.map fun wtx => wtx.tx).bind
        fun tx => tx.vout[txin.prevout.n.toNat]? := by
    intro w0
    rw [prevOut, Option.bind_map]
    rfl
  rw [hmap, hmap, h.tx_eq]

theorem SameTxs.debitOf_eq (h : SameTxs w w') (txin : CTxIn) : w'.debitOf txin = w.debitOf txin := by
  rw [debitOf, debitOf, h.prevOut_eq]
  cases hout : w.prevOut txin with
  | none => rfl
  | some txout =>
    obtain ⟨prev, hget, hmem⟩ := Option.bind_eq_some_iff.mp hout
    dsimp only
    rw [h.mine _ prev hget txout (List.mem_of_getElem? hmem)]

theorem SameTxs.debit_eq (h : SameTxs w w') (tx : CTransaction) : w'.debit tx = w.debit tx :=
  sumMoney_congr fun txin _ => by rw [h.debitOf_eq]

/-- A transaction of the wallet spends the output. -/
def Spends (w : WalletState) (hash : uint256) (n : Nat) : Prop :=
  ∃ (hash' : uint256) (wtx : CWalletTx), w.mapWallet[hash']? = some wtx ∧
    ∃ txin ∈ wtx.tx.vin, txin.Names hash n

theorem SameTxs.spends_of (h : SameTxs w w') {n : Nat} (hspends : w.Spends hash n) :
    w'.Spends hash n := by
  obtain ⟨hash', wtx, hget, txin, hmem, hprevout⟩ := hspends
  obtain ⟨wtx', hget', htx⟩ := h.symm.exists_of_get hget
  exact ⟨hash', wtx', hget', txin, htx ▸ hmem, hprevout⟩

theorem SameTxs.spends_iff (h : SameTxs w w') {n : Nat} : w'.Spends hash n ↔ w.Spends hash n :=
  ⟨h.symm.spends_of, h.spends_of⟩

/-! ## The flags -/

/-- The flags of the outputs that are mine. -/
def FlagsAre (w : WalletState) (S : uint256 → Nat → Prop) : Prop :=
  ∀ (hash : uint256) (wtx : CWalletTx), w.mapWallet[hash]? = some wtx →
    ∀ n txout, wtx.tx.vout[n]? = some txout → w.isMine txout = true →
      (wtx.isSpent n = true ↔ S hash n)

variable {S S' : uint256 → Nat → Prop}

theorem FlagsAre.of_iff (h : w.FlagsAre S) (hS : ∀ hash n, S hash n ↔ S' hash n) : w.FlagsAre S' :=
  fun hash wtx hget n txout hout hmine => (h hash wtx hget n txout hout hmine).trans (hS hash n)

omit [EllipticCurve] [ByteHashing160] in
theorem isSpent_markSpent {nOut n : Nat} (hnOut : nOut < wtx.tx.vout.length)
    (hn : n < wtx.tx.vout.length) :
    (wtx.markSpent nOut).isSpent n = true ↔ n = nOut ∨ wtx.isSpent n = true := by
  have hresize : ∀ i < wtx.tx.vout.length,
      (wtx.vfSpent.takeD wtx.tx.vout.length false).getD i false = wtx.isSpent i :=
    fun i hi => getD_takeD hi wtx.vfSpent false
  unfold CWalletTx.markSpent
  dsimp only
  split
  · rename_i hspent
    have hspentOut : wtx.isSpent nOut = true := (hresize nOut hnOut).symm.trans hspent
    have hsame : (wtx.vfSpent.takeD wtx.tx.vout.length false).getD n false = wtx.isSpent n :=
      hresize n hn
    refine ⟨fun h => .inr (hsame.symm.trans h), ?_⟩
    rintro (rfl | h)
    · exact hspent
    · exact hsame.trans h
  · have hlength : (wtx.vfSpent.takeD wtx.tx.vout.length false).length = wtx.tx.vout.length :=
      List.takeD_length _ _ _
    have hset : ((wtx.vfSpent.takeD wtx.tx.vout.length false).set nOut true).getD n false =
        if nOut = n then true else wtx.isSpent n := by
      rw [← hresize n hn, List.getD_eq_getElem?_getD, List.getD_eq_getElem?_getD,
        List.getElem?_set]
      split
      · rw [if_pos (hlength.symm ▸ hnOut)]
        rfl
      · rfl
    change ((wtx.vfSpent.takeD wtx.tx.vout.length false).set nOut true).getD n false = true ↔ _
    rw [hset]
    by_cases heq : nOut = n
    · simp [heq]
    · simp [heq, Ne.symm heq]

theorem FlagsAre.setTx (h : w.FlagsAre S) (hget : w.mapWallet[hash]? = some wtx)
    (htx : wtx'.tx = wtx.tx)
    (hother : ∀ hash', hash' ≠ hash → ∀ n, S hash' n ↔ S' hash' n)
    (hflags : ∀ n txout, wtx.tx.vout[n]? = some txout → w.isMine txout = true →
      (wtx.isSpent n = true ↔ S hash n) → (wtx'.isSpent n = true ↔ S' hash n)) :
    (w.setTx hash wtx').FlagsAre S' := by
  intro hash0 wtx0 hget0 n txout hout hmine
  have hmine' : w.isMine txout = true := hmine
  rw [getElem?_setTx] at hget0
  split at hget0
  · rename_i heq
    obtain rfl := Option.some.inj hget0
    subst heq
    rw [htx] at hout
    exact hflags n txout hout hmine' (h hash0 wtx hget n txout hout hmine')
  · rename_i hne
    exact (h hash0 wtx0 hget0 n txout hout hmine').trans (hother hash0 hne n)

theorem FlagsAre.getter (hash : uint256) (h : w.FlagsAre S) (hvalid : w.CachesValid)
    {getter : CWalletTx → Option Int × CWalletTx}
    (hgetter : ∀ wtx, wtx.CachesValid w → Answers w wtx getter) :
    (w.modifyTx hash fun wtx => (getter wtx).2).FlagsAre S ∧
      SameTxs w (w.modifyTx hash fun wtx => (getter wtx).2) := by
  unfold WalletState.modifyTx
  split
  · exact ⟨h, SameTxs.refl w⟩
  · rename_i wtx hget
    obtain ⟨-, -, htx, hspent⟩ := hgetter wtx (hvalid hash wtx hget)
    refine ⟨h.setTx hget htx (fun _ _ _ => Iff.rfl) fun n txout _ _ hflag => ?_,
      sameTxs_setTx hget htx⟩
    rw [isSpent, hspent]
    exact hflag

end WalletState

section

variable [Hashing]

namespace WalletState

variable {w w' : WalletState} {hash : uint256} {wtx wtx' : CWalletTx} {S : uint256 → Nat → Prop}

/-! ## Inputs that are spent -/

theorem getCredit_isSome (hvalid : wtx.CachesValid w) (hcredit : (w.credit wtx.tx).isSome) :
    ∃ nCredit, (wtx.getCredit w true).1 = some nCredit := by
  have hlook : ∀ wtx0 : CWalletTx, wtx0.tx = wtx.tx →
      (wtx0.uncached.lookCredit w true).1 = w.credit wtx.tx := fun wtx0 htx => by
    have h0 : wtx0.uncached.tx = wtx.tx := htx
    exact (look_none_fst true).trans (congrArg w.credit h0)
  obtain ⟨nCredit, hn⟩ := Option.isSome_iff_exists.mp hcredit
  rw [(hvalid.getCredit true).value]
  unfold CWalletTx.getCredit
  dsimp only
  split
  · exact ⟨0, rfl⟩
  · refine ⟨nCredit, ?_⟩
    rw [← hn]
    exact hlook (wtx.isImmature w).2 ((blind_isImmature w).tx_eq wtx)

/-- What `WalletUpdateSpent` does for an input. -/
theorem spendInput_spec (hvalid : w.CachesValid)
    (hcredit : ∀ (hash : uint256) (wtx : CWalletTx), w.mapWallet[hash]? = some wtx →
      (w.credit wtx.tx).isSome) (h : w.FlagsAre S) (txin : CTxIn) :
    (w.spendInput txin).2 = true ∧ SameTxs w (w.spendInput txin).1 ∧
      (w.spendInput txin).1.FlagsAre (fun hash n => S hash n ∨ txin.Names hash n) := by
  unfold WalletState.spendInput
  split
  · rename_i hnone
    refine ⟨rfl, SameTxs.refl w, fun hash wtx hget n txout hout hmine => ?_⟩
    rw [h hash wtx hget n txout hout hmine]
    refine ⟨.inl, fun hor => hor.resolve_right ?_⟩
    rintro ⟨rfl, -⟩
    rw [hnone] at hget
    cases hget
  · rename_i prev hprev
    split
    · rename_i hnone
      refine ⟨rfl, SameTxs.refl w, fun hash wtx hget n txout hout hmine => ?_⟩
      rw [h hash wtx hget n txout hout hmine]
      refine ⟨.inl, fun hor => hor.resolve_right ?_⟩
      rintro ⟨rfl, rfl⟩
      rw [hprev] at hget
      obtain rfl := Option.some.inj hget
      rw [hnone] at hout
      cases hout
    · rename_i txout hout
      split
      · rename_i htest
        obtain ⟨nCredit, hsome⟩ := getCredit_isSome (hvalid _ prev hprev) (hcredit _ prev hprev)
        obtain ⟨-, -, htx, hspent⟩ := (hvalid _ prev hprev).getCredit true
        split
        · rename_i hnone
          rw [hnone] at hsome
          cases hsome
        · rename_i wtx1 heq
          rw [heq] at htx hspent
          dsimp only at htx hspent
          have htx' : (wtx1.markSpent txin.prevout.n.toNat).tx = prev.tx :=
            (tx_markSpent _ _).trans htx
          refine ⟨rfl, sameTxs_setTx hprev htx', h.setTx hprev htx' ?_ ?_⟩
          · intro hash' hne n
            refine ⟨.inl, fun hor => hor.resolve_right ?_⟩
            rintro ⟨rfl, -⟩
            exact hne rfl
          · intro n txout' hout' _ hflag
            have hlt := (List.getElem?_eq_some_iff.mp hout).1
            have hlt' := (List.getElem?_eq_some_iff.mp hout').1
            have hsame : wtx1.isSpent n = prev.isSpent n := by rw [isSpent, isSpent, hspent]
            rw [isSpent_markSpent (htx ▸ hlt) (htx ▸ hlt'), hsame, hflag, or_comm]
            refine or_congr Iff.rfl ⟨fun heq => ⟨rfl, heq.symm⟩, fun hnames => hnames.2.symm⟩
      · rename_i htest
        refine ⟨rfl, SameTxs.refl w, fun hash wtx hget n txout' hout' hmine => ?_⟩
        rw [h hash wtx hget n txout' hout' hmine]
        refine ⟨.inl, fun hor => ?_⟩
        obtain hS | ⟨rfl, rfl⟩ := hor
        · exact hS
        · rw [hprev] at hget
          obtain rfl := Option.some.inj hget
          rw [hout] at hout'
          obtain rfl := Option.some.inj hout'
          have hflag : prev.isSpent txin.prevout.n.toNat = true := by simpa [hmine] using htest
          exact (h _ prev hprev _ txout hout hmine).mp hflag

/-- All transactions passed `CheckTransaction`. -/
def AllChecked (w : WalletState) : Prop :=
  ∀ (hash : uint256) (wtx : CWalletTx), w.mapWallet[hash]? = some wtx → wtx.tx.Checked

omit [Hashing] in
theorem AllChecked.of_sameTxs (h : w.AllChecked) (hsame : SameTxs w w') : w'.AllChecked := by
  intro hash wtx' hget
  obtain ⟨wtx, hget', htx⟩ := hsame.exists_of_get hget
  exact htx ▸ h hash wtx hget'

omit [Hashing] in
theorem AllChecked.credit_isSome (h : w.AllChecked) (hget : w.mapWallet[hash]? = some wtx) :
    (w.credit wtx.tx).isSome := by
  rw [credit, sumMoney_creditOf (h hash wtx hget) (List.Sublist.refl _)]
  rfl

/-- `WalletUpdateSpent` sets the flags of the outputs that are spent. -/
theorem walletUpdateSpent_spec (hvalid : w.CachesValid) (hchecked : w.AllChecked)
    (h : w.FlagsAre S) (vin : List CTxIn) :
    SameTxs w (w.walletUpdateSpent vin) ∧
      (w.walletUpdateSpent vin).FlagsAre fun hash n =>
        S hash n ∨ ∃ txin ∈ vin, txin.Names hash n := by
  induction vin generalizing w S with
  | nil => exact ⟨SameTxs.refl w, h.of_iff fun hash n => by simp⟩
  | cons txin vin ih =>
    obtain ⟨hdone, hsame, hflags⟩ :=
      spendInput_spec hvalid (fun _ _ hget => hchecked.credit_isSome hget) h txin
    have hspend : w.spendInput txin = ((w.spendInput txin).1, true) := Prod.ext rfl hdone
    obtain ⟨hsame', hflags'⟩ :=
      ih (hvalid.spendInput txin) (hchecked.of_sameTxs hsame) hflags
    rw [WalletState.walletUpdateSpent, hspend]
    refine ⟨hsame.trans hsame', hflags'.of_iff fun hash n => ?_⟩
    simp only [List.mem_cons, exists_eq_or_imp, or_assoc]

/-! ## Recorded transactions -/

/-- The wallet has transactions that the node has accepted, and its flags say which of its outputs
they spend. -/
structure Recorded (w : WalletState) : Prop where
  cachesValid : w.CachesValid
  checked : w.AllChecked
  debit : ∀ (hash : uint256) (wtx : CWalletTx), w.mapWallet[hash]? = some wtx →
    (w.debit wtx.tx).isSome
  flags : w.FlagsAre w.Spends

/-- A transaction is added after the transactions that it spends, and none pays to a key that comes
out of the key pool. -/
structure Adds (w : WalletState) (wtxIn : CWalletTx) (fWritten : Bool) (calls : List PoolCall) :
    Prop where
  written : fWritten = true
  unspent : wtxIn.vfSpent = []
  checkTransaction : wtxIn.tx.checkTransaction = .ok ()
  /-- The inputs are in range, as `CheckInputs` has it. -/
  debit : (w.debit wtxIn.tx).isSome
  parentFirst : w.mapWallet[wtxIn.tx.getHash]? = none →
    (∀ n, ¬ w.Spends wtxIn.tx.getHash n) ∧
      ∀ txin ∈ wtxIn.tx.vin, txin.prevout.hash ≠ wtxIn.tx.getHash
  sameTxs : SameTxs (w.setTx wtxIn.tx.getHash (w.added wtxIn).1) (w.addTx wtxIn calls)
  sameOwner : (w.setTx wtxIn.tx.getHash (w.added wtxIn).1).SameOwner (w.addTx wtxIn calls)

/-- The operations that record transactions, and ask for what is recorded. -/
def Records (w : WalletState) : WalletOp → Prop
  | .addToWallet wtxIn _ fWritten calls => w.Adds wtxIn fWritten calls
  | .markSpent hash nOut => w.Spends hash nOut
  | .walletUpdateSpent _ => False
  | .importKeys _ _ => False
  | _ => True

omit [Hashing] in
theorem Recorded.of_sameTxs (h : w.Recorded) (hvalid : w'.CachesValid) (hsame : SameTxs w w')
    (hflags : w'.FlagsAre w.Spends) : w'.Recorded where
  cachesValid := hvalid
  checked := h.checked.of_sameTxs hsame
  debit hash wtx' hget := by
    obtain ⟨wtx, hget', htx⟩ := hsame.exists_of_get hget
    rw [hsame.debit_eq, ← htx]
    exact h.debit hash wtx hget'
  flags := hflags.of_iff fun _ _ => hsame.spends_iff.symm

omit [Hashing] in
theorem FlagsAre.of_sameTxs (h : w.FlagsAre S) (hmap : w'.mapWallet = w.mapWallet)
    (hsame : SameTxs w w') : w'.FlagsAre S := by
  intro hash wtx hget n txout hout hmine
  rw [hmap] at hget
  rw [hsame.mine hash wtx hget txout (List.mem_of_getElem? hout)] at hmine
  exact h hash wtx hget n txout hout hmine

omit [EllipticCurve] [ByteHashing160] [Hashing] in
theorem vfSpent_merge {wtxIn : CWalletTx} (hunspent : wtxIn.vfSpent = []) :
    (wtx.merge wtxIn).1.vfSpent = wtx.vfSpent := by
  have hnil : ∀ vfSpent : List Bool, mergeSpent vfSpent [] = (vfSpent, false) := fun vfSpent => by
    cases vfSpent <;> rfl
  unfold CWalletTx.merge CWalletTx.updateSpent
  dsimp only
  rw [hunspent, hnil]
  split <;> split <;> split <;> rfl

/-- The transaction is inserted: nothing spends it yet. -/
theorem Recorded.setTx_new (h : w.Recorded) {wtxIn : CWalletTx} {fWritten : Bool}
    {calls : List PoolCall} (hadds : w.Adds wtxIn fWritten calls)
    (hnone : w.mapWallet[wtxIn.tx.getHash]? = none) :
    (w.setTx wtxIn.tx.getHash wtxIn.markDirty).AllChecked ∧
      (∀ (hash : uint256) (wtx : CWalletTx),
        (w.setTx wtxIn.tx.getHash wtxIn.markDirty).mapWallet[hash]? = some wtx →
          ((w.setTx wtxIn.tx.getHash wtxIn.markDirty).debit wtx.tx).isSome) ∧
      (w.setTx wtxIn.tx.getHash wtxIn.markDirty).FlagsAre w.Spends ∧
      ∀ hash n, (w.setTx wtxIn.tx.getHash wtxIn.markDirty).Spends hash n ↔
        w.Spends hash n ∨ ∃ txin ∈ wtxIn.tx.vin, txin.Names hash n := by
  obtain ⟨hnospend, hself⟩ := hadds.parentFirst hnone
  have hchecked := CTransaction.checked_of_checkTransaction hadds.checkTransaction
  -- no input is of the new transaction
  have hprev : ∀ txin : CTxIn, txin.prevout.hash ≠ wtxIn.tx.getHash →
      (w.setTx wtxIn.tx.getHash wtxIn.markDirty).debitOf txin = w.debitOf txin := by
    intro txin hne
    have hsame : (w.setTx wtxIn.tx.getHash wtxIn.markDirty).prevOut txin = w.prevOut txin := by
      rw [prevOut, prevOut, getElem?_setTx, if_neg hne]
    rw [debitOf, debitOf, hsame]
    rfl
  refine ⟨fun hash wtx hget => ?_, fun hash wtx hget => ?_, fun hash wtx hget n txout hout hmine => ?_,
    fun hash n => ⟨?_, ?_⟩⟩
  · rw [getElem?_setTx] at hget
    split at hget
    · exact Option.some.inj hget ▸ hchecked
    · exact h.checked hash wtx hget
  · rw [getElem?_setTx] at hget
    split at hget
    · obtain rfl := Option.some.inj hget
      have hdebit : (w.setTx wtxIn.tx.getHash wtxIn.markDirty).debit wtxIn.tx = w.debit wtxIn.tx :=
        sumMoney_congr fun txin hmem => by rw [hprev txin (hself txin hmem)]
      exact hdebit ▸ hadds.debit
    · have hdebit : (w.setTx wtxIn.tx.getHash wtxIn.markDirty).debit wtx.tx = w.debit wtx.tx := by
        refine sumMoney_congr fun txin hmem => ?_
        rw [hprev txin fun heq => hnospend txin.prevout.n.toNat ⟨hash, wtx, hget, txin, hmem, heq, rfl⟩]
      exact hdebit ▸ h.debit hash wtx hget
  · rw [getElem?_setTx] at hget
    split at hget
    · rename_i heq
      obtain rfl := Option.some.inj hget
      subst heq
      have hunspent : wtxIn.markDirty.isSpent n = false := by
        have hvfSpent : wtxIn.markDirty.vfSpent = [] := hadds.unspent
        rw [isSpent, hvfSpent]
        rfl
      rw [hunspent]
      exact iff_of_false Bool.false_ne_true (hnospend n)
    · exact h.flags hash wtx hget n txout hout hmine
  · rintro ⟨hash', wtx, hget, txin, hmem, hnames⟩
    rw [getElem?_setTx] at hget
    split at hget
    · obtain rfl := Option.some.inj hget
      exact .inr ⟨txin, hmem, hnames⟩
    · exact .inl ⟨hash', wtx, hget, txin, hmem, hnames⟩
  · rintro (⟨hash', wtx, hget, txin, hmem, hnames⟩ | ⟨txin, hmem, hnames⟩)
    · refine ⟨hash', wtx, ?_, txin, hmem, hnames⟩
      rw [getElem?_setTx, if_neg]
      · exact hget
      · rintro rfl
        rw [hnone] at hget
        cases hget
    · refine ⟨wtxIn.tx.getHash, wtxIn.markDirty, ?_, txin, hmem, hnames⟩
      rw [getElem?_setTx, if_pos rfl]

omit [Hashing] in
theorem Recorded.setTx_merge (h : w.Recorded) {wtxIn : CWalletTx} (hunspent : wtxIn.vfSpent = [])
    (hget : w.mapWallet[hash]? = some wtx) :
    SameTxs w (w.setTx hash (wtx.markDirty.merge wtxIn).1) ∧
      (w.setTx hash (wtx.markDirty.merge wtxIn).1).FlagsAre w.Spends := by
  have htx : (wtx.markDirty.merge wtxIn).1.tx = wtx.tx := tx_merge _ _
  refine ⟨sameTxs_setTx hget htx, h.flags.setTx hget htx (fun _ _ _ => Iff.rfl) ?_⟩
  intro n txout _ _ hflag
  rw [isSpent, vfSpent_merge hunspent]
  exact hflag

theorem Recorded.addToWallet (h : w.Recorded) {wtxIn : CWalletTx}
    (hnew : wtxIn.nImmatureCreditCached = none) {fWritten : Bool} {calls : List PoolCall}
    (hadds : w.Adds wtxIn fWritten calls) : (w.addToWallet wtxIn fWritten calls).Recorded := by
  have hknown : w.mapWallet[wtxIn.tx.getHash]? = none → w.DebitsKnown wtxIn.tx :=
    fun hnone hash wtx hget _ txin hmem heq => absurd ⟨hash, wtx, hget, txin, hmem, heq, rfl⟩
      ((hadds.parentFirst hnone).1 txin.prevout.n.toNat)
  have hvalid := h.cachesValid.addToWallet hnew fWritten hknown hadds.sameOwner
  have hvalidAdd : (w.addTx wtxIn calls).CachesValid :=
    (h.cachesValid.setTx_added hnew hknown).of_sameOwner (mapWallet_addTx w wtxIn calls)
      hadds.sameOwner
  have hmap := mapWallet_addTx w wtxIn calls
  have hadd : w.addToWallet wtxIn fWritten calls =
      (w.addTx wtxIn calls).walletUpdateSpent (w.added wtxIn).1.tx.vin := by
    rw [WalletState.addToWallet, hadds.written, Bool.not_true, Bool.and_false]
    rfl
  rw [hadd] at hvalid ⊢
  cases hget : w.mapWallet[wtxIn.tx.getHash]? with
  | some wtx =>
    have hadded : w.added wtxIn = wtx.markDirty.merge wtxIn := by rw [added, hget]
    obtain ⟨hsame, hflags⟩ := h.setTx_merge hadds.unspent hget
    have hsameAdd := hadds.sameTxs
    rw [hadded] at hsameAdd hvalid hmap ⊢
    have hsame' := hsame.trans hsameAdd
    have hflags' := hflags.of_sameTxs hmap hsameAdd
    obtain ⟨hsame'', hflags''⟩ := walletUpdateSpent_spec hvalidAdd (h.checked.of_sameTxs hsame')
      hflags' (wtx.markDirty.merge wtxIn).1.tx.vin
    refine h.of_sameTxs hvalid (hsame'.trans hsame'') (hflags''.of_iff fun hash n => ?_)
    -- the transaction is there, so what it spends is spent already
    refine ⟨fun hor => hor.elim id ?_, .inl⟩
    rintro ⟨txin, hmem, hnames⟩
    rw [tx_merge] at hmem
    exact ⟨wtxIn.tx.getHash, wtx, hget, txin, hmem, hnames⟩
  | none =>
    have hadded : w.added wtxIn = (wtxIn.markDirty, true) := by rw [added, hget]
    obtain ⟨hchecked, hdebit, hflags, hspends⟩ := h.setTx_new hadds hget
    have hsameAdd := hadds.sameTxs
    rw [hadded] at hsameAdd hvalid hmap ⊢
    have hflags' := hflags.of_sameTxs hmap hsameAdd
    obtain ⟨hsame', hflags''⟩ := walletUpdateSpent_spec hvalidAdd (hchecked.of_sameTxs hsameAdd)
      hflags' wtxIn.markDirty.tx.vin
    have hsame := hsameAdd.trans hsame'
    refine ⟨hvalid, hchecked.of_sameTxs hsame, fun hash wtx' hget' => ?_,
      hflags''.of_iff fun hash n => ?_⟩
    · obtain ⟨wtx, hget'', htx⟩ := hsame.exists_of_get hget'
      rw [hsame.debit_eq, ← htx]
      exact hdebit hash wtx hget''
    · rw [hsame.spends_iff, hspends]
      rfl

omit [Hashing] in
theorem Recorded.markSpent (h : w.Recorded) {nOut : Nat} (hspends : w.Spends hash nOut) :
    (w.modifyTx hash fun wtx => if nOut < wtx.tx.vout.length then wtx.markSpent nOut else wtx).Recorded := by
  unfold WalletState.modifyTx
  split
  · exact h
  · rename_i wtx hget
    dsimp only
    split
    · rename_i hlt
      have htx := tx_markSpent wtx nOut
      refine h.of_sameTxs (h.cachesValid.setTx hget htx ((h.cachesValid hash wtx hget).markSpent nOut))
        (sameTxs_setTx hget htx) (h.flags.setTx hget htx (fun _ _ _ => Iff.rfl) ?_)
      intro n txout hout _ hflag
      rw [isSpent_markSpent hlt (List.getElem?_eq_some_iff.mp hout).1, hflag]
      refine ⟨fun hor => hor.elim ?_ id, .inr⟩
      rintro rfl
      exact hspends
    · exact h.of_sameTxs (h.cachesValid.setTx hget rfl (h.cachesValid hash wtx hget))
        (sameTxs_setTx hget rfl)
        (h.flags.setTx hget rfl (fun _ _ _ => Iff.rfl) fun _ _ _ _ hflag => hflag)

omit [Hashing] in
theorem Recorded.getter (h : w.Recorded) {getter : CWalletTx → Option Int × CWalletTx}
    (hgetter : ∀ wtx, wtx.CachesValid w → Answers w wtx getter) :
    (w.modifyTx hash fun wtx => (getter wtx).2).Recorded := by
  obtain ⟨hflags, hsame⟩ := h.flags.getter hash h.cachesValid hgetter
  exact h.of_sameTxs (h.cachesValid.getter hgetter) hsame hflags

theorem Recorded.step (h : w.Recorded) {op : WalletOp} (hop : w.Records op)
    (hstep : w.step op = some w') : w'.Recorded := by
  cases op with
  | addToWallet wtxIn hnew fWritten calls => exact Option.some.inj hstep ▸ h.addToWallet hnew hop
  | markSpent hash nOut => exact Option.some.inj hstep ▸ h.markSpent hop
  | walletUpdateSpent tx => exact hop.elim
  | importKeys keystore mapAddressBook => exact hop.elim
  | setBestChain pindexBest =>
    refine Option.some.inj hstep ▸ h.of_sameTxs (h.cachesValid.setBestChain pindexBest)
      ⟨fun _ => rfl, fun _ _ _ _ _ => rfl⟩ ?_
    exact h.flags
  | getDebit hash => exact Option.some.inj hstep ▸ h.getter fun _ hwtx => hwtx.getDebit
  | getCredit hash fUseCache =>
    exact Option.some.inj hstep ▸ h.getter fun _ hwtx => hwtx.getCredit fUseCache
  | getImmatureCredit hash fUseCache =>
    exact Option.some.inj hstep ▸ h.getter fun _ hwtx => hwtx.getImmatureCredit fUseCache
  | getAvailableCredit hash fUseCache =>
    exact Option.some.inj hstep ▸ h.getter fun _ hwtx => hwtx.getAvailableCredit fUseCache
  | getChange hash => exact Option.some.inj hstep ▸ h.getter fun _ hwtx => hwtx.getChange

omit [Hashing] in
theorem recorded_of_empty (h : w.mapWallet = ∅) : w.Recorded := by
  have hnone : ∀ (hash : uint256) (wtx : CWalletTx), w.mapWallet[hash]? ≠ some wtx := by
    intro hash wtx hget
    simp [h] at hget
  exact ⟨fun hash wtx hget => absurd hget (hnone hash wtx),
    fun hash wtx hget => absurd hget (hnone hash wtx),
    fun hash wtx hget => absurd hget (hnone hash wtx),
    fun hash wtx hget => absurd hget (hnone hash wtx)⟩

theorem recorded_of_run {ops : List WalletOp} (hw : w.mapWallet = ∅)
    (hmeets : Run.Meets Records WalletState.step w ops)
    (hrun : Run.run WalletState.step w ops = some w') : w'.Recorded :=
  Run.run_invariant_of_meets (fun _ _ _ hop h hstep => h.step hop hstep) hmeets
    (recorded_of_empty hw) hrun

end WalletState

end

end

end Terracoin
