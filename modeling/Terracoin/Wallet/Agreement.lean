import Terracoin.Wallet.Balance

/-!
# The two balances

What `GetBalance` and `getbalance "*"` count of a transaction differs by what it spends, by what of it
is spent, and by what one of them counts alone (`balanceOf_sub_flowOf`). Over the wallet, what is
spent is what the transactions spend (`sum_debitSum`), so the balances are equal exactly if the rest
cancels (`getBalance_eq_getBalanceAll_iff`).
-/

namespace Terracoin

open Std (TreeMap)
open CWalletTx DoubleEntry

section

variable [EllipticCurve] [ByteHashing160] [Hashing]

namespace WalletState

variable {w w' : WalletState} {wtx : CWalletTx} {nAdjustedTime : Int} {fuel : Nat}

/-- What `GetBalance` counts alone: unconfirmed transactions that are taken for confirmed, and
outputs that are spent where it counts none. -/
def onlyBalance (w : WalletState) (nAdjustedTime : Int) (fuel : Nat) (wtx : CWalletTx) : Int :=
  if w.isConfirmed nAdjustedTime fuel wtx = some true ∧ w.immature wtx = false then
    if 1 ≤ w.depth wtx.toCMerkleTx then 0 else w.mineSum wtx.tx
  else w.spentSum wtx

/-- What `getbalance "*"` counts alone: immature coinbases of the chain, change that is unconfirmed or
not mine, and inputs of transactions that are not final. -/
def onlyFlow (w : WalletState) (nAdjustedTime : Int) (wtx : CWalletTx) : Int :=
  if w.isFinal nAdjustedTime wtx.tx then
    if 1 ≤ w.depth wtx.toCMerkleTx then
      (if w.immature wtx then w.mineSum wtx.tx else 0) +
        if 0 < w.debitSum wtx.tx then
          valueOf (fun txout => w.isChange txout && !w.isMine txout) wtx.tx.vout
        else 0
    else if 0 < w.debitSum wtx.tx then valueOf w.isChange wtx.tx.vout else 0
  else w.debitSum wtx.tx

/-! ## One transaction -/

omit [EllipticCurve] [ByteHashing160] [Hashing] in
theorem valueOf_add_valueOf_not (p : CTxOut → Bool) (vout : List CTxOut) :
    valueOf p vout + valueOf (fun txout => !p txout) vout = (vout.map CTxOut.nValue).sum :=
  sum_filter_add_sum_filter_not p CTxOut.nValue vout

omit [EllipticCurve] [ByteHashing160] [Hashing] in
theorem valueOf_and_add (p q : CTxOut → Bool) (vout : List CTxOut) :
    valueOf (fun txout => p txout && q txout) vout +
      valueOf (fun txout => !p txout && q txout) vout = valueOf q vout := by
  have hsplit := sum_filter_add_sum_filter_not p CTxOut.nValue (vout.filter q)
  rwa [List.filter_filter, List.filter_filter] at hsplit

omit [Hashing] in
/-- What is received, and what is sent with the fee: the debit without the change. -/
theorem getAmounts_eq (hvalid : wtx.CachesValid w) (hchecked : wtx.tx.Checked)
    (hdebit : (w.debit wtx.tx).isSome) :
    ∃ listReceived listSent nFee, w.getAmounts wtx = some (listReceived, listSent, nFee) ∧
      (listReceived.map Prod.snd).sum = w.mineSum wtx.tx -
        (if 0 < w.debitSum wtx.tx then
          valueOf (fun txout => w.isMine txout && w.isChange txout) wtx.tx.vout else 0) ∧
      (listSent.map Prod.snd).sum + nFee = w.debitSum wtx.tx -
        if 0 < w.debitSum wtx.tx then valueOf w.isChange wtx.tx.vout else 0 := by
  have hnonneg := (debit_eq_of_isSome hdebit).2
  have hentries : ∀ vout : List CTxOut, ((vout.map amountOf).map Prod.snd).sum =
      (vout.map CTxOut.nValue).sum := fun vout => by rw [List.map_map]; rfl
  rw [getAmounts, getDebit_eq hvalid hdebit, mineSum_eq]
  by_cases hpos : 0 < w.debitSum wtx.tx
  · have hsplit := valueOf_and_add w.isChange w.isMine wtx.tx.vout
    have hcomm : (fun txout => w.isChange txout && w.isMine txout) =
        fun txout => w.isMine txout && w.isChange txout := funext fun _ => Bool.and_comm _ _
    have hkept : (fun txout => w.isMine txout && !w.isChange txout) =
        fun txout => !w.isChange txout && w.isMine txout := funext fun _ => Bool.and_comm _ _
    rw [hcomm] at hsplit
    refine ⟨((wtx.tx.vout.filter fun txout => !w.isChange txout).filter w.isMine).map amountOf,
      (wtx.tx.vout.filter fun txout => !w.isChange txout).map amountOf,
      w.debitSum wtx.tx - wtx.tx.valueOut, ?_, ?_, ?_⟩
    · simp only [Option.bind_eq_bind, Option.bind_some, hpos, decide_true, if_true,
        hchecked.getValueOut_eq, Except.toOption, Option.map_some, Bool.true_and]
    · rw [hentries, List.filter_filter, hkept, if_pos hpos]
      exact eq_sub_of_add_eq' hsplit
    · have hout := valueOf_add_valueOf_not w.isChange wtx.tx.vout
      rw [hentries, if_pos hpos, CTransaction.valueOut, ← hout, valueOf, valueOf]
      omega
  · have hzero : w.debitSum wtx.tx = 0 := by omega
    refine ⟨(wtx.tx.vout.filter w.isMine).map amountOf, [], 0, ?_, ?_, ?_⟩
    · simp only [Option.bind_eq_bind, Option.bind_some, hpos, decide_false, Bool.false_and,
        Bool.not_false, List.filter_true, Bool.false_eq_true, if_false]
    · rw [hentries, if_neg hpos, Int.sub_zero]
      rfl
    · rw [if_neg hpos, hzero]
      rfl

/-- What `getbalance "*"` counts. -/
theorem flowOf_eq (nAdjustedTime : Int) (hvalid : wtx.CachesValid w) (hchecked : wtx.tx.Checked)
    (hdebit : (w.debit wtx.tx).isSome) :
    w.flowOf nAdjustedTime 1 wtx = some (w.onlyFlow nAdjustedTime wtx - w.debitSum wtx.tx +
      if w.isFinal nAdjustedTime wtx.tx = true ∧ 1 ≤ w.depth wtx.toCMerkleTx ∧
          w.immature wtx = false then w.mineSum wtx.tx else 0) := by
  obtain ⟨listReceived, listSent, nFee, hamounts, hreceived, hsent⟩ :=
    getAmounts_eq hvalid hchecked hdebit
  have hchange := valueOf_and_add w.isMine w.isChange wtx.tx.vout
  have hcomm : (fun txout => !w.isMine txout && w.isChange txout) =
      fun txout => w.isChange txout && !w.isMine txout := funext fun _ => Bool.and_comm _ _
  have hdepth : ((1 : Int) ≤ (w.depth wtx.toCMerkleTx : Int)) = (1 ≤ w.depth wtx.toCMerkleTx) :=
    propext (by omega)
  rw [hcomm] at hchange
  rw [flowOf, onlyFlow, hamounts]
  dsimp only [Option.bind_eq_bind, Option.bind_some]
  cases hfinal : w.isFinal nAdjustedTime wtx.tx with
  | false => simp
  | true =>
    simp only [hdepth, hreceived, if_true, true_and]
    cases himmature : w.immature wtx <;>
      by_cases hconfirmed : 1 ≤ w.depth wtx.toCMerkleTx <;>
      by_cases hpos : 0 < w.debitSum wtx.tx <;>
      simp only [hconfirmed, hpos, if_true, if_false] at hsent ⊢ <;> simp <;> omega

theorem final_of_isConfirmed
    (h : w.isConfirmed nAdjustedTime fuel wtx = some true) :
    w.isFinal nAdjustedTime wtx.tx = true := by
  by_contra hfinal
  rw [isConfirmed, if_pos (by simpa using hfinal)] at h
  cases h

theorem isConfirmed_of_depth (hfinal : w.isFinal nAdjustedTime wtx.tx = true)
    (hdepth : 1 ≤ w.depth wtx.toCMerkleTx) : w.isConfirmed nAdjustedTime fuel wtx = some true := by
  rw [isConfirmed, if_neg (by simp [hfinal]), if_pos hdepth]

/-- What `GetBalance` counts. -/
theorem balanceOf_eq (hvalid : wtx.CachesValid w) (hchecked : wtx.tx.Checked)
    (hconfirmed : (w.isConfirmed nAdjustedTime fuel wtx).isSome) :
    w.balanceOf nAdjustedTime fuel wtx = some (w.onlyBalance nAdjustedTime fuel wtx -
        w.spentSum wtx +
      if w.isFinal nAdjustedTime wtx.tx = true ∧ 1 ≤ w.depth wtx.toCMerkleTx ∧
          w.immature wtx = false then w.mineSum wtx.tx else 0) := by
  obtain ⟨fConfirmed, hfConfirmed⟩ := Option.isSome_iff_exists.mp hconfirmed
  rw [balanceOf, onlyBalance, hfConfirmed, getAvailableCredit_eq hvalid hchecked]
  cases hfinal : w.isFinal nAdjustedTime wtx.tx with
  | false =>
    have hnot : fConfirmed = false := by
      cases fConfirmed with
      | false => rfl
      | true => rw [final_of_isConfirmed hfConfirmed] at hfinal; cases hfinal
    simp [hnot]
  | true =>
    cases fConfirmed with
    | false =>
      have hdepth : ¬ 1 ≤ w.depth wtx.toCMerkleTx := by
        intro hdepth
        rw [isConfirmed_of_depth hfinal hdepth] at hfConfirmed
        cases hfConfirmed
      simp [hdepth]
    | true =>
      cases himmature : w.immature wtx with
      | true => simp
      | false =>
        by_cases hdepth : 1 ≤ w.depth wtx.toCMerkleTx
        · simp [hdepth]
          omega
        · simp [hdepth]

/-! ## The whole wallet -/

def outpointOf (txin : CTxIn) : uint256 × Nat := (txin.prevout.hash, txin.prevout.n.toNat)

def outpoints (w : WalletState) : List (uint256 × Nat) :=
  w.mapWallet.toList.flatMap fun p => (List.range p.2.tx.vout.length).map fun n => (p.1, n)

def spends (w : WalletState) : List (uint256 × Nat) :=
  w.mapWallet.toList.flatMap fun p => p.2.tx.vin.map outpointOf

def valueAt (w : WalletState) (outpoint : uint256 × Nat) : Int :=
  match w.mapWallet[outpoint.1]?.bind fun wtx => wtx.tx.vout[outpoint.2]? with
  | some txout => w.mineValue txout
  | none => 0

omit [Hashing] in
theorem nodup_outpoints (w : WalletState) : w.outpoints.Nodup := by
  have hkeys := Index.nodup_map_fst_toList w.mapWallet
  refine List.nodup_flatMap.mpr ⟨fun p _ => ?_, ?_⟩
  · exact List.nodup_range.map fun _ _ h => congrArg Prod.snd h
  · refine (List.pairwise_map.mp hkeys).imp fun {p q} hne => ?_
    rintro ⟨hash, n⟩ hp hq
    obtain ⟨i, -, hi⟩ := List.mem_map.mp hp
    obtain ⟨j, -, hj⟩ := List.mem_map.mp hq
    exact hne ((congrArg Prod.fst hi).trans (congrArg Prod.fst hj).symm)

omit [Hashing] in
theorem mem_outpoints_of_valueAt {outpoint : uint256 × Nat} (h : w.valueAt outpoint ≠ 0) :
    outpoint ∈ w.outpoints := by
  obtain ⟨hash, n⟩ := outpoint
  rw [valueAt] at h
  split at h
  · rename_i txout hout
    obtain ⟨wtx, hget, hout⟩ := Option.bind_eq_some_iff.mp hout
    refine List.mem_flatMap.mpr ⟨(hash, wtx), TreeMap.mem_toList_iff_getElem?_eq_some.mpr hget, ?_⟩
    exact List.mem_map.mpr ⟨n, List.mem_range.mpr (List.getElem?_eq_some_iff.mp hout).1, rfl⟩
  · exact absurd rfl h

omit [Hashing] in
theorem mem_spends_iff {hash : uint256} {n : Nat} : (hash, n) ∈ w.spends ↔ w.Spends hash n := by
  constructor
  · intro h
    obtain ⟨⟨hash', wtx⟩, hmem, hin⟩ := List.mem_flatMap.mp h
    obtain ⟨txin, htxin, heq⟩ := List.mem_map.mp hin
    exact ⟨hash', wtx, TreeMap.mem_toList_iff_getElem?_eq_some.mp hmem, txin, htxin,
      congrArg Prod.fst heq, congrArg Prod.snd heq⟩
  · rintro ⟨hash', wtx, hget, txin, htxin, rfl, rfl⟩
    exact List.mem_flatMap.mpr ⟨(hash', wtx), TreeMap.mem_toList_iff_getElem?_eq_some.mpr hget,
      List.mem_map.mpr ⟨txin, htxin, rfl⟩⟩

omit [EllipticCurve] [ByteHashing160] [Hashing] in
theorem sum_flatMap {α β : Type} (f : α → List β) (g : β → Int) (l : List α) :
    ((l.flatMap f).map g).sum = (l.map fun a => ((f a).map g).sum).sum := by
  induction l with
  | nil => rfl
  | cons a l ih => rw [List.flatMap_cons, List.map_append, List.sum_append, ih, List.map_cons,
      List.sum_cons]

omit [Hashing] in
/-- The outputs of a transaction that the wallet spends are those that are marked. -/
theorem named_eq_spentSum (h : w.Recorded) {hash : uint256} (hget : w.mapWallet[hash]? = some wtx) :
    named w.valueAt ((List.range wtx.tx.vout.length).map fun n => (hash, n)) w.spends =
      w.spentSum wtx := by
  have hrange : List.range wtx.tx.vout.length = wtx.tx.vout.zipIdx.map Prod.snd := by
    rw [List.zipIdx_map_snd, List.range_eq_range']
  have hfilter : ∀ l : List (CTxOut × Nat), ((l.filter fun p => wtx.isSpent p.2).map
      fun p => w.mineValue p.1).sum =
        (l.map fun p => if wtx.isSpent p.2 then w.mineValue p.1 else 0).sum := by
    intro l
    induction l with
    | nil => rfl
    | cons p l ih => cases hp : wtx.isSpent p.2 <;> simp [hp, ih]
  rw [named, spentSum, hfilter, hrange, List.map_map, List.map_map]
  congr 1
  refine List.map_congr_left fun p hp => ?_
  have hout : wtx.tx.vout[p.2]? = some p.1 := List.mem_zipIdx_iff_getElem?.mp hp
  have hvalue : w.valueAt (hash, p.2) = w.mineValue p.1 := by
    rw [valueAt, hget, Option.bind_some, hout]
  rw [Function.comp_apply, Function.comp_apply, hvalue]
  cases hmine : w.isMine p.1 with
  | false => simp [mineValue, hmine]
  | true =>
    have hspent := (h.flags hash wtx hget p.2 p.1 hout hmine).trans mem_spends_iff.symm
    by_cases hmem : (hash, p.2) ∈ w.spends
    · rw [if_pos hmem, if_pos (hspent.mpr hmem)]
    · rw [if_neg hmem, if_neg (mt hspent.mp hmem)]

omit [Hashing] in
/-- What the transactions spend is what is spent, and what is spent again. -/
theorem sum_debitSum (h : w.Recorded) :
    (w.mapWallet.toList.map fun p => w.debitSum p.2.tx).sum =
      (w.mapWallet.toList.map fun p => w.spentSum p.2).sum + excess w.valueAt w.outpoints w.spends := by
  have hentries : (w.spends.map w.valueAt).sum =
      (w.mapWallet.toList.map fun p => w.debitSum p.2.tx).sum := by
    rw [spends, sum_flatMap]
    simp only [List.map_map]
    rfl
  have hnamed : named w.valueAt w.outpoints w.spends =
      (w.mapWallet.toList.map fun p => w.spentSum p.2).sum := by
    rw [named, outpoints, sum_flatMap]
    congr 1
    refine List.map_congr_left fun p hp => ?_
    exact named_eq_spentSum h (TreeMap.mem_toList_iff_getElem?_eq_some.mp hp)
  rw [← hentries, ← hnamed]
  exact sum_entries_eq_named_add_excess w.nodup_outpoints fun _ _ => mem_outpoints_of_valueAt

/-! ## The loop of `IsConfirmed` ends -/

/-- The transaction spends outputs of transactions of a lower rank, in range. -/
structure Descends (w : WalletState) (rank : uint256 → Nat) (mtx : CMerkleTx) : Prop where
  rank_lt : ∀ txin ∈ mtx.tx.vin, rank txin.prevout.hash < rank mtx.tx.getHash
  debit : (w.debit mtx.tx).isSome

/-- The transactions of the wallet and those that support them spend what came before. -/
def Acyclic (w : WalletState) (rank : uint256 → Nat) : Prop :=
  ∀ (hash : uint256) (wtx : CWalletTx), w.mapWallet[hash]? = some wtx →
    ∀ mtx ∈ wtx.toCMerkleTx :: wtx.vtxPrev, w.Descends rank mtx

/-- An entry of the queue weighs more than those that it is replaced by. -/
def weight (rank : uint256 → Nat) (nInputs : Nat) (mtx : CMerkleTx) : Nat :=
  (nInputs + 1) ^ rank mtx.tx.getHash

variable {rank : uint256 → Nat} {nInputs : Nat} {vtxPrev : List CMerkleTx}

omit [EllipticCurve] [ByteHashing160] in
theorem findPrev_spec {hash : uint256} {mtx : CMerkleTx} (h : findPrev vtxPrev hash = some mtx) :
    mtx ∈ vtxPrev ∧ mtx.tx.getHash = hash :=
  ⟨List.mem_reverse.mp (List.mem_of_find?_eq_some h), by simpa using List.find?_some h⟩

omit [EllipticCurve] [ByteHashing160] in
theorem sum_weight_prevs (nInputs : Nat) {r : Nat} {vin : List CTxIn} {prevs : List CMerkleTx}
    (hrank : ∀ txin ∈ vin, rank txin.prevout.hash < r)
    (h : (vin.mapM fun txin => findPrev vtxPrev txin.prevout.hash) = some prevs) :
    (∀ mtx ∈ prevs, mtx ∈ vtxPrev) ∧
      (prevs.map (weight rank nInputs)).sum ≤ vin.length * (nInputs + 1) ^ (r - 1) := by
  induction vin generalizing prevs with
  | nil =>
    obtain rfl : [] = prevs := by simpa using h
    simp
  | cons txin vin ih =>
    rw [List.mapM_cons] at h
    obtain ⟨mtx, hfind, h⟩ := Option.bind_eq_some_iff.mp h
    obtain ⟨prevs', hrest, h⟩ := Option.bind_eq_some_iff.mp h
    obtain rfl := Option.some.inj h
    obtain ⟨hmem, hhash⟩ := findPrev_spec hfind
    obtain ⟨hmems, hsum⟩ := ih (fun t ht => hrank t (List.mem_cons_of_mem _ ht)) hrest
    have hlt := hrank txin List.mem_cons_self
    have hweight : weight rank nInputs mtx ≤ (nInputs + 1) ^ (r - 1) := by
      rw [weight, hhash]
      exact Nat.pow_le_pow_right (Nat.succ_pos _) (by omega)
    refine ⟨?_, ?_⟩
    · rintro m (_ | ⟨_, hm⟩)
      · exact hmem
      · exact hmems m hm
    · rw [List.map_cons, List.sum_cons, List.length_cons, Nat.succ_mul]
      omega

/-- The loop ends after as many entries as the queue weighs. -/
theorem confirmQueue_isSome
    (hprev : ∀ mtx ∈ vtxPrev, w.Descends rank mtx ∧ mtx.tx.vin.length ≤ nInputs)
    {vWorkQueue : List CMerkleTx}
    (hqueue : ∀ mtx ∈ vWorkQueue, w.Descends rank mtx ∧ mtx.tx.vin.length ≤ nInputs)
    (hfuel : (vWorkQueue.map (weight rank nInputs)).sum < fuel) :
    (w.confirmQueue nAdjustedTime vtxPrev fuel vWorkQueue).isSome := by
  induction fuel generalizing vWorkQueue with
  | zero => exact absurd hfuel (Nat.not_lt_zero _)
  | succ fuel ih =>
    cases vWorkQueue with
    | nil => rfl
    | cons ptx vWorkQueue =>
      obtain ⟨hdescends, hlength⟩ := hqueue ptx List.mem_cons_self
      have hrest := fun mtx hmem => hqueue mtx (List.mem_cons_of_mem _ hmem)
      have hpos : 0 < weight rank nInputs ptx := Nat.pow_pos (Nat.succ_pos _)
      rw [List.map_cons, List.sum_cons] at hfuel
      obtain ⟨nDebit, hdebit⟩ := Option.isSome_iff_exists.mp hdescends.debit
      rw [confirmQueue, hdebit]
      split
      · rfl
      · split
        · exact ih hrest (by omega)
        · dsimp only
          split
          · rfl
          · split
            · rfl
            · rename_i prevs hprevs
              obtain ⟨hmems, hsum⟩ := sum_weight_prevs nInputs hdescends.rank_lt hprevs
              -- the inputs weigh less than the transaction
              have hless : (prevs.map (weight rank nInputs)).sum < weight rank nInputs ptx := by
                refine Nat.lt_of_le_of_lt hsum ?_
                cases hvin : ptx.tx.vin with
                | nil => simpa using hpos
                | cons txin vin =>
                  have hrank := hdescends.rank_lt txin (by rw [hvin]; exact List.mem_cons_self)
                  obtain ⟨r, hr⟩ : ∃ r, rank ptx.tx.getHash = r + 1 :=
                    ⟨rank ptx.tx.getHash - 1, by omega⟩
                  rw [weight, hr, Nat.add_sub_cancel, Nat.pow_succ, Nat.mul_comm _ (nInputs + 1),
                    ← hvin]
                  exact Nat.mul_lt_mul_of_pos_right (by omega) (Nat.pow_pos (Nat.succ_pos _))
              refine ih ?_ (by rw [List.map_append, List.sum_append]; omega)
              intro mtx hmem
              obtain hmem | hmem := List.mem_append.mp hmem
              · exact hrest mtx hmem
              · exact hprev mtx (hmems mtx hmem)

theorem exists_isConfirmed (hvalid : wtx.CachesValid w)
    (hdescends : ∀ mtx ∈ wtx.toCMerkleTx :: wtx.vtxPrev, w.Descends rank mtx) (nAdjustedTime : Int) :
    ∃ enough, ∀ fuel ≥ enough, (w.isConfirmed nAdjustedTime fuel wtx).isSome := by
  have hself := hdescends wtx.toCMerkleTx List.mem_cons_self
  obtain ⟨nInputs, hnInputs⟩ : ∃ nInputs, ∀ mtx ∈ wtx.toCMerkleTx :: wtx.vtxPrev,
      mtx.tx.vin.length ≤ nInputs := by
    refine ⟨((wtx.toCMerkleTx :: wtx.vtxPrev).map fun mtx => mtx.tx.vin.length).sum, ?_⟩
    intro mtx hmem
    exact List.single_le_sum (fun _ _ => Nat.zero_le _) _ (List.mem_map_of_mem hmem)
  refine ⟨weight rank nInputs wtx.toCMerkleTx + 1, fun fuel hfuel => ?_⟩
  rw [isConfirmed, getDebit_eq hvalid hself.debit]
  split
  · rfl
  · split
    · rfl
    · dsimp only
      split
      · rfl
      · have hprev : ∀ mtx ∈ wtx.vtxPrev, w.Descends rank mtx ∧ mtx.tx.vin.length ≤ nInputs :=
          fun mtx hmem => ⟨hdescends mtx (List.mem_cons_of_mem _ hmem),
            hnInputs mtx (List.mem_cons_of_mem _ hmem)⟩
        refine confirmQueue_isSome hprev (fun mtx hmem => ?_) ?_
        · obtain rfl := List.mem_singleton.mp hmem
          exact ⟨hself, hnInputs _ List.mem_cons_self⟩
        · rw [List.map_singleton, List.sum_singleton]
          exact hfuel

omit [EllipticCurve] [ByteHashing160] [Hashing] in
theorem exists_enough {α : Type} {P : Nat → α → Prop} {l : List α}
    (h : ∀ a ∈ l, ∃ enough, ∀ fuel ≥ enough, P fuel a) :
    ∃ enough, ∀ fuel ≥ enough, ∀ a ∈ l, P fuel a := by
  induction l with
  | nil => exact ⟨0, fun _ _ _ hmem => nomatch hmem⟩
  | cons a l ih =>
    obtain ⟨m, hm⟩ := h a List.mem_cons_self
    obtain ⟨n, hn⟩ := ih fun b hb => h b (List.mem_cons_of_mem _ hb)
    refine ⟨max m n, fun fuel hfuel b hb => ?_⟩
    obtain rfl | hb := List.mem_cons.mp hb
    · exact hm fuel (by omega)
    · exact hn fuel (by omega) b hb

/-! ## When the balances are equal -/

/-- What one of the balances counts alone cancels, with what is spent more than once. -/
def DifferencesCancel (w : WalletState) (nAdjustedTime : Int) (fuel : Nat) : Prop :=
  (w.mapWallet.toList.map fun p => w.onlyBalance nAdjustedTime fuel p.2).sum +
      excess w.valueAt w.outpoints w.spends =
    (w.mapWallet.toList.map fun p => w.onlyFlow nAdjustedTime p.2).sum

theorem Recorded.balances (h : w.Recorded)
    (hconfirmed : ∀ p ∈ w.mapWallet.toList, (w.isConfirmed nAdjustedTime fuel p.2).isSome) :
    ∃ nTotal nBalance, w.getBalance nAdjustedTime fuel = some nTotal ∧
      w.getBalanceAll nAdjustedTime 1 = some nBalance ∧
        nTotal - nBalance = (w.mapWallet.toList.map fun p => w.onlyBalance nAdjustedTime fuel p.2).sum +
          excess w.valueAt w.outpoints w.spends -
            (w.mapWallet.toList.map fun p => w.onlyFlow nAdjustedTime p.2).sum := by
  have hget : ∀ p ∈ w.mapWallet.toList, w.mapWallet[p.1]? = some p.2 :=
    fun p hmem => TreeMap.mem_toList_iff_getElem?_eq_some.mp hmem
  have hdebits := sum_debitSum h
  have hbalances := sumOption_eq fun p hmem => balanceOf_eq (h.cachesValid _ _ (hget p hmem))
    (h.checked _ _ (hget p hmem)) (hconfirmed p hmem)
  have hflows := sumOption_eq fun p hmem => flowOf_eq nAdjustedTime
    (h.cachesValid _ _ (hget p hmem)) (h.checked _ _ (hget p hmem)) (h.debit _ _ (hget p hmem))
  refine ⟨_, _, hbalances, hflows, ?_⟩
  simp only [List.sum_map_add, sum_map_sub]
  omega

/-- `getbalance` and `getbalance "*"` of a wallet of recorded transactions return the same number
exactly if what one of them counts alone cancels. -/
theorem getBalance_eq_getBalanceAll_iff {ops : List WalletOp} (hw : w.mapWallet = ∅)
    (hmeets : Run.Meets Records WalletState.step w ops)
    (hrun : Run.run WalletState.step w ops = some w') (hacyclic : w'.Acyclic rank)
    (nAdjustedTime : Int) :
    ∃ enough, ∀ fuel ≥ enough, ∃ nTotal nBalance,
      w'.getBalance nAdjustedTime fuel = some nTotal ∧
        w'.getBalanceAll nAdjustedTime 1 = some nBalance ∧
          (nTotal = nBalance ↔ w'.DifferencesCancel nAdjustedTime fuel) := by
  have hrecorded := recorded_of_run hw hmeets hrun
  obtain ⟨enough, henough⟩ := exists_enough (l := w'.mapWallet.toList)
    (P := fun fuel p => (w'.isConfirmed nAdjustedTime fuel p.2).isSome) fun p hmem => by
      have hget := TreeMap.mem_toList_iff_getElem?_eq_some.mp hmem
      exact exists_isConfirmed (hrecorded.cachesValid _ _ hget) (hacyclic _ _ hget) nAdjustedTime
  refine ⟨enough, fun fuel hfuel => ?_⟩
  obtain ⟨nTotal, nBalance, htotal, hbalance, hdifference⟩ :=
    hrecorded.balances (henough fuel hfuel)
  refine ⟨nTotal, nBalance, htotal, hbalance, ?_⟩
  rw [DifferencesCancel]
  omega

end WalletState

end

namespace BalanceSample

open KeySample Sample WalletSample WalletState

/-- A coinbase that pays to the key, in a block with nothing else. -/
def coinbase : CWalletTx :=
  { transaction [⟨COutPoint.null, [0, 0], 0xffffffff⟩]
      [⟨50, CScript.push key.getPubKey ++ [CScript.OP_CHECKSIG]⟩] 5 with
    hashBlock := 1
    nIndex := 0 }

def tip : CBlockIndex := .child genesis (header 1 5)

def ops : List WalletOp := [.addToWallet coinbase rfl true [], .setBestChain (some tip)]

def after : WalletState := (Run.run WalletState.step wallet ops).get rfl

theorem meets : Run.Meets Records WalletState.step wallet ops := by
  have hempty : ∀ (hash : uint256) (wtx : CWalletTx), wallet.mapWallet[hash]? ≠ some wtx := by
    intro hash wtx h
    simp [wallet] at h
  have hadds : wallet.Adds coinbase true [] := by
    refine ⟨rfl, rfl, by decide +kernel, by decide +kernel, fun _ => ⟨?_, ?_⟩, SameTxs.refl _,
      fun _ wtx _ => sameOwner_of_keys _ _ rfl rfl wtx⟩
    · rintro n ⟨hash, wtx, hget, -⟩
      exact hempty hash wtx hget
    · decide +kernel
  exact ⟨hadds, fun _ _ => ⟨trivial, fun _ _ => trivial⟩⟩

theorem acyclic : after.Acyclic fun hash => hash.toNat := by
  have hall : ∀ p ∈ after.mapWallet.toList, ∀ mtx ∈ p.2.toCMerkleTx :: p.2.vtxPrev,
      (∀ txin ∈ mtx.tx.vin, txin.prevout.hash.toNat < mtx.tx.getHash.toNat) ∧
        (after.debit mtx.tx).isSome := by decide +kernel
  intro hash wtx hget mtx hmem
  obtain ⟨hrank, hdebit⟩ := hall _ (TreeMap.mem_toList_iff_getElem?_eq_some.mpr hget) mtx hmem
  exact ⟨hrank, hdebit⟩

theorem getBalance_eq_getBalanceAll_iff_sample :
    ∃ enough, ∀ fuel ≥ enough, ∃ nTotal nBalance, after.getBalance 0 fuel = some nTotal ∧
      after.getBalanceAll 0 1 = some nBalance ∧
        (nTotal = nBalance ↔ after.DifferencesCancel 0 fuel) :=
  getBalance_eq_getBalanceAll_iff rfl meets (Option.some_get _).symm acyclic 0

/-- The coinbase has one confirmation: it is not available, but it is received. -/
theorem getBalance_coinbase_differs :
    Run.Meets Records WalletState.step wallet ops ∧
      Run.run WalletState.step wallet ops = some after ∧
        (after.getBalance 0 1, after.getBalanceAll 0 1) = (some 0, some 50) :=
  ⟨meets, (Option.some_get _).symm, by decide +kernel⟩

end BalanceSample

end Terracoin
