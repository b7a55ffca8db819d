import Terracoin.Lib.Agenda
import Terracoin.Mining.CreateNewBlock

/-!
# The transactions that take part

What the first loop of `CreateNewBlock` leaves behind. A transaction takes part if it is final, no
coinbase, and none of its inputs is missing; its prerequisites are the transactions of the pool that
it spends outputs of and that are not among the coins. This is the `plan` of the agenda that the
second loop works off. Its entry on the heap has the priority and the fee per kilobyte that its
inputs, outputs and size make (`priorityOf`).
-/

namespace Terracoin

open Checked

namespace MinerInput

variable (input : MinerInput) (clock : MinerClock)

/-- The transactions that the inputs refer to and that are not among the coins. -/
def waitsFor (vin : List CTxIn) : Finset uint256 :=
  ((vin.map fun txin => txin.prevout.hash).filter fun hash =>
    !input.coinsTip.haveCoins hash).toFinset

/-- The input can be found among the coins or in the pool. -/
def findsInput (txin : CTxIn) : Bool :=
  input.coinsTip.haveCoins txin.prevout.hash || (input.pool.mapTx txin.prevout.hash).isSome

def takesPart (hash : uint256) : Bool :=
  (input.pool.mapTx hash).any fun tx =>
    !(tx.isCoinBase || !tx.isFinalAt input.pindexPrev.nHeight (clock.nFinal hash)) &&
      tx.vin.all input.findsInput

def dependsOn (hash : uint256) : Finset uint256 :=
  (input.pool.mapTx hash).elim ∅ fun tx => input.waitsFor tx.vin

def plan (hashes : List uint256) (h : hashes.Nodup) : Agenda.Plan uint256 where
  jobs := hashes.filter (input.takesPart clock)
  deps := input.dependsOn
  nodup := h.filter _

variable {input clock} {hash : uint256} {tx : CTransaction} {hashes : List uint256}

theorem dependsOn_eq (h : input.pool.mapTx hash = some tx) :
    input.dependsOn hash = input.waitsFor tx.vin := by
  rw [dependsOn, h]
  rfl

theorem mem_waitsFor {vin : List CTxIn} {p : uint256} : p ∈ input.waitsFor vin ↔
    (∃ txin ∈ vin, txin.prevout.hash = p) ∧ input.coinsTip.coins p = none := by
  simp [waitsFor, CoinsView.haveCoins]

theorem takesPart_iff : input.takesPart clock hash = true ↔
    ∃ tx, input.pool.mapTx hash = some tx ∧ tx.isCoinBase = false ∧
      tx.isFinalAt input.pindexPrev.nHeight (clock.nFinal hash) = true ∧
      ∀ txin ∈ tx.vin, input.findsInput txin = true := by
  simp only [takesPart, Option.any_eq_true, Bool.and_eq_true, Bool.not_or, Bool.not_not,
    Bool.not_eq_true', List.all_eq_true, and_assoc]

theorem mem_jobs (h : hashes.Nodup) : hash ∈ (input.plan clock hashes h).jobs ↔
    hash ∈ hashes ∧ input.takesPart clock hash = true := by
  simp [plan]

end MinerInput

/-! ## The entry of a transaction -/

namespace CTransaction

theorem valueOutFrom_ok {n r : Int} {vout : List CTxOut} (h : valueOutFrom n vout = .ok r) :
    r = n + (vout.map CTxOut.nValue).sum := by
  induction vout generalizing n with
  | nil =>
    obtain rfl := Except.ok.inj h
    simp
  | cons txout vout ih =>
    simp only [valueOutFrom, bind_ok, add64_ok] at h
    obtain ⟨n', ⟨rfl, -⟩, _, -, hrest⟩ := h
    rw [ih hrest, List.map_cons, List.sum_cons, Int.add_assoc]

theorem getValueOut_ok {tx : CTransaction} {v : Int} (h : tx.getValueOut = .ok v) :
    v = tx.valueOut := by
  rw [valueOutFrom_ok h, valueOut, Int.zero_add]

end CTransaction

section Entry

variable [PriorityArithmetic]

namespace MinerInput

variable (input : MinerInput)

/-- The output that an input spends, among the coins or else in the pool. -/
def spentOutput (txin : CTxIn) : Option CTxOut :=
  match input.coinsTip.coins txin.prevout.hash with
  | some coins => coins.vout[txin.prevout.n.toNat]?
  | none => (input.pool.mapTx txin.prevout.hash).bind fun tx => tx.vout[txin.prevout.n.toNat]?

def spentValue (txin : CTxIn) : Int := (input.spentOutput txin).elim 0 CTxOut.nValue

/-- Coins count with their age, and what the pool has not at all. -/
def addPriority (dPriority : PriorityArithmetic.double) (txin : CTxIn) : PriorityArithmetic.double :=
  match input.coinsTip.coins txin.prevout.hash with
  | some coins =>
    PriorityArithmetic.add dPriority (PriorityArithmetic.mul
      (PriorityArithmetic.ofInt (input.spentValue txin))
      (PriorityArithmetic.ofInt (input.pindexPrev.nHeight - coins.nHeight + 1)))
  | none => dPriority

/-- The priority and the fee per kilobyte of a transaction of the pool. -/
def priorityOf (hash : uint256) (tx : CTransaction) : TxPriority where
  dPriority := PriorityArithmetic.div
    (tx.vin.foldl input.addPriority (PriorityArithmetic.ofInt 0))
    (PriorityArithmetic.ofInt tx.getSerializeSize)
  dFeePerKb := PriorityArithmetic.div
    (PriorityArithmetic.ofInt ((tx.vin.map input.spentValue).sum + -tx.valueOut))
    (PriorityArithmetic.div (PriorityArithmetic.ofInt tx.getSerializeSize)
      (PriorityArithmetic.ofInt 1000))
  ptx := hash

/-- An entry with the values of its transaction. -/
def Prices (entry : TxPriority) : Prop :=
  ∃ tx, input.pool.mapTx entry.ptx = some tx ∧ entry = input.priorityOf entry.ptx tx

end MinerInput

/-- The entry that an orphan gets when it has nothing to wait for any more. -/
def COrphan.entry (orphan : COrphan) : TxPriority := ⟨orphan.dPriority, orphan.dFeePerKb, orphan.ptx⟩

end Entry

/-! ## The inputs of a transaction -/

section Scan

variable [PriorityArithmetic] {input : MinerInput} {hash : uint256}

/-- What the loop over the inputs has done after the inputs `vin`: the orphan waits for what they
wait for, and is listed under each of these. -/
structure InputScan.After (input : MinerInput) (hash : uint256) (st : InputScan) (vin : List CTxIn)
    (st' : InputScan) : Prop where
  porphan : st'.porphan = decide (input.waitsFor vin ≠ ∅)
  others : ∀ h, h ≠ hash → st'.vOrphan h = st.vOrphan h
  unlisted : input.waitsFor vin = ∅ → st'.vOrphan hash = st.vOrphan hash
  listed : input.waitsFor vin ≠ ∅ → ∃ orphan, st'.vOrphan hash = some orphan ∧ orphan.ptx = hash ∧
    orphan.setDependsOn = input.waitsFor vin
  dependers : ∀ p h, h ∈ st'.mapDependers p ↔
    h ∈ st.mapDependers p ∨ h = hash ∧ p ∈ input.waitsFor vin
  dPriority : st'.dPriority = vin.foldl input.addPriority st.dPriority
  nTotalIn : st'.nTotalIn = st.nTotalIn + (vin.map input.spentValue).sum

omit [PriorityArithmetic] in
variable (input) in
theorem waitsFor_concat (vin : List CTxIn) (txin : CTxIn) :
    input.waitsFor (vin ++ [txin]) =
      if input.coinsTip.haveCoins txin.prevout.hash then input.waitsFor vin
      else insert txin.prevout.hash (input.waitsFor vin) := by
  ext p
  cases hc : input.coinsTip.haveCoins txin.prevout.hash with
  | true =>
    simp only [MinerInput.waitsFor, List.map_append, List.filter_append]
    simp [hc]
  | false =>
    rw [if_neg Bool.false_ne_true, Finset.mem_insert]
    simp only [MinerInput.waitsFor, List.map_append, List.filter_append, List.mem_toFinset,
      List.mem_append]
    rw [or_comm]
    simp [hc]

namespace InputScan.After

variable {st st1 st2 : InputScan} {vin : List CTxIn} {txin : CTxIn} {fMissingInputs : Bool}

/-- An input that is among the coins. -/
theorem coins {coins : CCoins} {txout : CTxOut} (h : InputScan.After input hash st vin st1)
    (hcoins : input.coinsTip.coins txin.prevout.hash = some coins)
    (hvout : coins.vout[txin.prevout.n.toNat]? = some txout) :
    InputScan.After input hash st (vin ++ [txin]) { st1 with
      nTotalIn := st1.nTotalIn + txout.nValue
      dPriority := PriorityArithmetic.add st1.dPriority
        (PriorityArithmetic.mul (PriorityArithmetic.ofInt txout.nValue)
          (PriorityArithmetic.ofInt (input.pindexPrev.nHeight - coins.nHeight + 1))) } := by
  have hhave : input.coinsTip.haveCoins txin.prevout.hash = true := by
    simp [CoinsView.haveCoins, hcoins]
  have hwaits := waitsFor_concat input vin txin
  rw [if_pos hhave] at hwaits
  have hvalue : input.spentValue txin = txout.nValue := by
    rw [MinerInput.spentValue, MinerInput.spentOutput, hcoins]
    dsimp only
    rw [hvout, Option.elim_some]
  refine ⟨hwaits ▸ h.porphan, h.others, fun he => h.unlisted (hwaits ▸ he),
    fun he => hwaits ▸ h.listed (hwaits ▸ he), hwaits ▸ h.dependers, ?_, ?_⟩
  · rw [List.foldl_append, List.foldl_cons, List.foldl_nil, MinerInput.addPriority, hcoins, hvalue,
      ← h.dPriority]
  · simp [h.nTotalIn, hvalue, Int.add_assoc]

theorem withOrphan (h : InputScan.After input hash st vin st1) :
    (∃ orphan, (st1.withOrphan hash).vOrphan hash = some orphan ∧ orphan.ptx = hash ∧
      orphan.setDependsOn = input.waitsFor vin) ∧
    ∀ h', h' ≠ hash → (st1.withOrphan hash).vOrphan h' = st.vOrphan h' := by
  unfold InputScan.withOrphan
  by_cases he : input.waitsFor vin = ∅
  · rw [if_neg (by simp [h.porphan, he])]
    refine ⟨⟨_, Function.update_self _ _ _, rfl, he.symm⟩, fun h' hne => ?_⟩
    show Function.update _ hash _ h' = _
    rw [Function.update_of_ne hne]
    exact h.others h' hne
  · rw [if_pos (by simp [h.porphan, he])]
    exact ⟨h.listed he, h.others⟩

/-- An input that waits for a transaction of the pool. -/
theorem pool {txPrev : CTransaction} {txout : CTxOut} (h : InputScan.After input hash st vin st1)
    (hcoins : input.coinsTip.coins txin.prevout.hash = none)
    (hpool : input.pool.mapTx txin.prevout.hash = some txPrev)
    (hvout : txPrev.vout[txin.prevout.n.toNat]? = some txout) :
    InputScan.After input hash st (vin ++ [txin])
      { (st1.withOrphan hash).dependOn hash txin.prevout.hash with
        nTotalIn := ((st1.withOrphan hash).dependOn hash txin.prevout.hash).nTotalIn +
          txout.nValue } := by
  have hwaits := waitsFor_concat input vin txin
  rw [if_neg (by simp [CoinsView.haveCoins, hcoins])] at hwaits
  have hnew : input.waitsFor (vin ++ [txin]) ≠ ∅ := by
    rw [hwaits]
    exact Finset.insert_ne_empty _ _
  have hsame : (st1.withOrphan hash).mapDependers = st1.mapDependers ∧
      (st1.withOrphan hash).dPriority = st1.dPriority ∧
      (st1.withOrphan hash).nTotalIn = st1.nTotalIn := by
    unfold InputScan.withOrphan
    split
    · exact ⟨rfl, rfl, rfl⟩
    · exact ⟨rfl, rfl, rfl⟩
  obtain ⟨hmap, hpriority, htotal⟩ := hsame
  have hvalue : input.spentValue txin = txout.nValue := by
    rw [MinerInput.spentValue, MinerInput.spentOutput, hcoins, hpool]
    dsimp only
    rw [Option.bind_some, hvout, Option.elim_some]
  obtain ⟨⟨orphan, ho, hptx, hdeps⟩, hothers⟩ := h.withOrphan
  refine ⟨?_, fun h' hne => ?_, fun he => absurd he hnew,
    fun _ => ⟨{ orphan with setDependsOn := insert txin.prevout.hash orphan.setDependsOn },
      ?_, hptx, ?_⟩, fun p h' => ?_, ?_, ?_⟩
  · rw [decide_eq_true hnew]
    show (st1.withOrphan hash).porphan = true
    unfold InputScan.withOrphan
    split
    · assumption
    · rfl
  · show Function.update _ hash _ h' = _
    rw [Function.update_of_ne hne]
    exact hothers h' hne
  · show Function.update _ hash _ hash = _
    rw [Function.update_self, ho]
    rfl
  · rw [hwaits, hdeps]
  · show h' ∈ Function.update (st1.withOrphan hash).mapDependers txin.prevout.hash
      ((st1.withOrphan hash).mapDependers txin.prevout.hash ++ [hash]) p ↔ _
    rw [hwaits, Finset.mem_insert, hmap]
    by_cases hp : p = txin.prevout.hash
    · subst hp
      rw [Function.update_self, List.mem_append, List.mem_singleton, h.dependers]
      constructor
      · rintro ((hold | ⟨rfl, hmem⟩) | rfl)
        · exact .inl hold
        · exact .inr ⟨rfl, .inr hmem⟩
        · exact .inr ⟨rfl, .inl rfl⟩
      · rintro (hold | ⟨rfl, -⟩)
        · exact .inl (.inl hold)
        · exact .inr rfl
    · rw [Function.update_of_ne hp, h.dependers]
      simp [hp]
  · show (st1.withOrphan hash).dPriority = _
    rw [List.foldl_append, List.foldl_cons, List.foldl_nil, MinerInput.addPriority, hcoins,
      hpriority, h.dPriority]
  · show (st1.withOrphan hash).nTotalIn + txout.nValue = _
    simp [htotal, h.nTotalIn, hvalue, Int.add_assoc]

theorem missing (h : InputScan.After input hash st vin st1) :
    let vOrphan := if st1.porphan then Function.update st1.vOrphan hash none else st1.vOrphan
    (∀ h, h ≠ hash → vOrphan h = st.vOrphan h) ∧
      (st.vOrphan hash = none → vOrphan hash = none) := by
  dsimp only
  split
  · refine ⟨fun h' hne => ?_, fun _ => Function.update_self _ _ _⟩
    rw [Function.update_of_ne hne]
    exact h.others h' hne
  · rename_i hporphan
    rw [h.porphan, decide_eq_true_eq, not_not] at hporphan
    exact ⟨h.others, (h.unlisted hporphan).trans⟩

/-- One more input. -/
theorem scanInput (h : InputScan.After input hash st vin st1)
    (hscan : scanInput input hash st1 txin = .ok (st2, fMissingInputs)) :
    (fMissingInputs = false ∧ input.findsInput txin = true ∧
      InputScan.After input hash st (vin ++ [txin]) st2) ∨
    (fMissingInputs = true ∧ input.findsInput txin = false ∧
      (∀ h, h ≠ hash → st2.vOrphan h = st.vOrphan h) ∧
      (st.vOrphan hash = none → st2.vOrphan hash = none) ∧ st2.mapDependers = st1.mapDependers) := by
  unfold Terracoin.scanInput at hscan
  cases hcoins : input.coinsTip.coins txin.prevout.hash with
  | some coins =>
    rw [hcoins] at hscan
    simp only [bind_ok, pure_ok, Prod.mk.injEq, get_ok, add64_ok] at hscan
    obtain ⟨txout, hvout, _, ⟨rfl, -⟩, rfl, rfl⟩ := hscan
    exact .inl ⟨rfl, by simp [MinerInput.findsInput, CoinsView.haveCoins, hcoins],
      h.coins hcoins hvout⟩
  | none =>
    rw [hcoins] at hscan
    cases hpool : input.pool.mapTx txin.prevout.hash with
    | none =>
      rw [hpool] at hscan
      simp only [bind_ok, pure_ok, Prod.mk.injEq] at hscan
      obtain ⟨_, -, rfl, rfl⟩ := hscan
      obtain ⟨hothers, hgone⟩ := h.missing
      exact .inr ⟨rfl, by simp [MinerInput.findsInput, CoinsView.haveCoins, hcoins, hpool], hothers,
        hgone, rfl⟩
    | some txPrev =>
      rw [hpool] at hscan
      simp only [bind_ok, pure_ok, Prod.mk.injEq, get_ok, add64_ok] at hscan
      obtain ⟨txout, hvout, _, ⟨rfl, -⟩, rfl, rfl⟩ := hscan
      exact .inl ⟨rfl, by simp [MinerInput.findsInput, hpool], h.pool hcoins hpool hvout⟩

end InputScan.After

/-- A missing input: nothing is left of the orphan, apart from pointers to it. -/
structure InputScan.Missing (input : MinerInput) (hash : uint256) (st : InputScan) (vin : List CTxIn)
    (st' : InputScan) : Prop where
  others : ∀ h, h ≠ hash → st'.vOrphan h = st.vOrphan h
  gone : st.vOrphan hash = none → st'.vOrphan hash = none
  dependers : ∀ p h, h ∈ st'.mapDependers p →
    h ∈ st.mapDependers p ∨ h = hash ∧ p ∈ input.waitsFor vin
  kept : ∀ p h, h ∈ st.mapDependers p → h ∈ st'.mapDependers p

omit [PriorityArithmetic] in
theorem waitsFor_mono {vin vin' : List CTxIn} (h : ∀ txin ∈ vin, txin ∈ vin') :
    input.waitsFor vin ⊆ input.waitsFor vin' := by
  intro p hp
  rw [MinerInput.mem_waitsFor] at hp ⊢
  obtain ⟨⟨txin, hmem, heq⟩, hnone⟩ := hp
  exact ⟨⟨txin, h txin hmem, heq⟩, hnone⟩

theorem InputScan.After.refl (st : InputScan) (hporphan : st.porphan = false) :
    InputScan.After input hash st [] st where
  porphan := by simp [hporphan, MinerInput.waitsFor]
  others _ _ := rfl
  unlisted _ := rfl
  listed h := absurd rfl h
  dependers p h := by simp [MinerInput.waitsFor]
  dPriority := rfl
  nTotalIn := (Int.add_zero _).symm

/-- The loop over the inputs. -/
theorem scanInputs_spec {st st1 st2 : InputScan} {before vin : List CTxIn} {fMissingInputs : Bool}
    (h : InputScan.After input hash st before st1)
    (hscan : scanInputs input hash st1 vin = .ok (st2, fMissingInputs)) :
    (fMissingInputs = false ∧ (∀ txin ∈ vin, input.findsInput txin = true) ∧
      InputScan.After input hash st (before ++ vin) st2) ∨
    (fMissingInputs = true ∧ (∃ txin ∈ vin, input.findsInput txin = false) ∧
      InputScan.Missing input hash st (before ++ vin) st2) := by
  induction vin generalizing st1 before with
  | nil =>
    obtain ⟨rfl, rfl⟩ := Prod.mk.inj (Except.ok.inj hscan)
    rw [List.append_nil]
    exact .inl ⟨rfl, fun _ ht => absurd ht List.not_mem_nil, h⟩
  | cons txin vin ih =>
    simp only [scanInputs, bind_ok, Prod.exists] at hscan
    obtain ⟨st', fMissing, hstep, hrest⟩ := hscan
    rcases h.scanInput hstep with ⟨rfl, hfound, hafter⟩ | ⟨rfl, hnot, hothers, hgone, hmap⟩
    · rw [if_neg Bool.false_ne_true] at hrest
      rw [List.append_cons]
      refine (ih hafter hrest).imp ?_ ?_
      · rintro ⟨hf, hall, hafter'⟩
        exact ⟨hf, List.forall_mem_cons.mpr ⟨hfound, hall⟩, hafter'⟩
      · rintro ⟨hf, ⟨t, ht, hnot⟩, hmissing⟩
        exact ⟨hf, ⟨t, List.mem_cons_of_mem _ ht, hnot⟩, hmissing⟩
    · rw [if_pos rfl, pure_ok, Prod.mk.injEq] at hrest
      obtain ⟨rfl, rfl⟩ := hrest
      refine .inr ⟨rfl, ⟨txin, List.mem_cons_self, hnot⟩, hothers, hgone, fun p h' hmem => ?_,
        fun p h' hmem => ?_⟩
      · rw [hmap, h.dependers] at hmem
        refine hmem.imp_right ?_
        rintro ⟨heq, hp⟩
        exact ⟨heq, waitsFor_mono (fun t ht => List.mem_append_left _ ht) hp⟩
      · rw [hmap, h.dependers]
        exact .inl hmem

end Scan

/-! ## The pool -/

section Gather

variable [PriorityArithmetic] {input : MinerInput} {clock : MinerClock}

/-- What the loop over the pool has done after the transactions `hashes`. -/
structure Gathered.After (input : MinerInput) (clock : MinerClock) (hashes : List uint256)
    (st : Gathered) : Prop where
  /-- The ready transactions are on the heap. -/
  ready : st.vecPriority.map TxPriority.ptx =
    hashes.filter fun h => input.takesPart clock h && decide (input.dependsOn h = ∅)
  /-- The others that take part wait for their prerequisites. -/
  listed : ∀ h ∈ hashes, input.takesPart clock h = true → input.dependsOn h ≠ ∅ →
    ∃ orphan, st.vOrphan h = some orphan ∧ orphan.ptx = h ∧ orphan.setDependsOn = input.dependsOn h
  unlisted : ∀ h, (h ∈ hashes → input.takesPart clock h = true → input.dependsOn h = ∅) →
    st.vOrphan h = none
  dependers : ∀ p h, h ∈ st.mapDependers p → h ∈ hashes ∧ p ∈ input.dependsOn h
  depends : ∀ h ∈ hashes, input.takesPart clock h = true → ∀ p ∈ input.dependsOn h,
    h ∈ st.mapDependers p
  entries : ∀ entry ∈ st.vecPriority, input.Prices entry
  orphans : ∀ h orphan, st.vOrphan h = some orphan → input.Prices orphan.entry

theorem Gathered.After.nil :
    Gathered.After input clock [] ⟨fun _ => none, fun _ => [], []⟩ where
  ready := rfl
  listed _ h := absurd h List.not_mem_nil
  unlisted _ _ := rfl
  dependers _ _ h := absurd h List.not_mem_nil
  depends _ h := absurd h List.not_mem_nil
  entries _ h := absurd h List.not_mem_nil
  orphans _ _ h := absurd h (Option.some_ne_none _).symm

/-- A transaction that does not take part and leaves only pointers behind. -/
theorem Gathered.After.skip {hashes : List uint256} {hash : uint256} {st st' : Gathered}
    (h : Gathered.After input clock hashes st) (hnew : hash ∉ hashes)
    (hpart : input.takesPart clock hash = false)
    (hready : st'.vecPriority = st.vecPriority)
    (hothers : ∀ h, h ≠ hash → st'.vOrphan h = st.vOrphan h)
    (hgone : st.vOrphan hash = none → st'.vOrphan hash = none)
    (hdependers : ∀ p h, h ∈ st'.mapDependers p →
      h ∈ st.mapDependers p ∨ h = hash ∧ p ∈ input.dependsOn hash)
    (hkept : ∀ p h, h ∈ st.mapDependers p → h ∈ st'.mapDependers p) :
    Gathered.After input clock (hashes ++ [hash]) st' where
  ready := by
    rw [hready, h.ready, List.filter_append]
    simp [hpart]
  listed h' hmem htakes hne := by
    have hneq : h' ≠ hash := by
      rintro rfl
      simp [hpart] at htakes
    rw [hothers h' hneq]
    exact h.listed h' (by simpa [hneq] using hmem) htakes hne
  unlisted h' hall := by
    by_cases heq : h' = hash
    · subst heq
      exact hgone (h.unlisted h' fun hmem => absurd hmem hnew)
    · rw [hothers h' heq]
      exact h.unlisted h' fun hmem => hall (List.mem_append_left _ hmem)
  dependers p h' hmem := by
    rcases hdependers p h' hmem with hold | ⟨rfl, hp⟩
    · exact (h.dependers p h' hold).imp_left (List.mem_append_left _)
    · exact ⟨by simp, hp⟩
  depends h' hmem htakes p hp := by
    have hneq : h' ≠ hash := by
      rintro rfl
      simp [hpart] at htakes
    exact hkept p h' (h.depends h' (by simpa [hneq] using hmem) htakes p hp)
  entries := hready ▸ h.entries
  orphans h' orphan ho := by
    by_cases heq : h' = hash
    · subst heq
      rw [hgone (h.unlisted h' fun hmem => absurd hmem hnew)] at ho
      cases ho
    · exact h.orphans h' orphan (hothers h' heq ▸ ho)

/-- A transaction that takes part. -/
theorem Gathered.After.take {hashes : List uint256} {hash : uint256} {st st' : Gathered}
    (h : Gathered.After input clock hashes st) (hpart : input.takesPart clock hash = true)
    (hready : st'.vecPriority.map TxPriority.ptx = st.vecPriority.map TxPriority.ptx ++
      if input.dependsOn hash = ∅ then [hash] else [])
    (hothers : ∀ h, h ≠ hash → st'.vOrphan h = st.vOrphan h)
    (hlisted : input.dependsOn hash ≠ ∅ → ∃ orphan, st'.vOrphan hash = some orphan ∧
      orphan.ptx = hash ∧ orphan.setDependsOn = input.dependsOn hash)
    (hunlisted : input.dependsOn hash = ∅ → st'.vOrphan hash = none)
    (hdependers : ∀ p h, h ∈ st'.mapDependers p ↔
      h ∈ st.mapDependers p ∨ h = hash ∧ p ∈ input.dependsOn hash)
    (hentries : ∀ entry ∈ st'.vecPriority, entry ∈ st.vecPriority ∨ input.Prices entry)
    (horphans : ∀ orphan, st'.vOrphan hash = some orphan → input.Prices orphan.entry) :
    Gathered.After input clock (hashes ++ [hash]) st' where
  ready := by
    rw [hready, h.ready, List.filter_append]
    congr 1
    simp only [List.filter_cons, List.filter_nil, hpart, Bool.true_and, decide_eq_true_eq]
  listed h' hmem htakes hne := by
    by_cases heq : h' = hash
    · subst heq
      exact hlisted hne
    · rw [hothers h' heq]
      exact h.listed h' (by simpa [heq] using hmem) htakes hne
  unlisted h' hall := by
    by_cases heq : h' = hash
    · subst heq
      exact hunlisted (hall (by simp) hpart)
    · rw [hothers h' heq]
      exact h.unlisted h' fun hmem => hall (List.mem_append_left _ hmem)
  dependers p h' hmem := by
    rcases (hdependers p h').mp hmem with hold | ⟨rfl, hp⟩
    · exact (h.dependers p h' hold).imp_left (List.mem_append_left _)
    · exact ⟨by simp, hp⟩
  depends h' hmem htakes p hp := by
    rw [hdependers]
    by_cases heq : h' = hash
    · subst heq
      exact .inr ⟨rfl, hp⟩
    · exact .inl (h.depends h' (by simpa [heq] using hmem) htakes p hp)
  entries entry hmem := (hentries entry hmem).elim (h.entries entry) id
  orphans h' orphan ho := by
    by_cases heq : h' = hash
    · exact horphans orphan (heq ▸ ho)
    · exact h.orphans h' orphan (hothers h' heq ▸ ho)

/-- One more transaction. -/
theorem Gathered.After.gatherTx {hashes : List uint256} {hash : uint256} {st st' : Gathered}
    (h : Gathered.After input clock hashes st) (hnew : hash ∉ hashes)
    (hstep : gatherTx input clock st hash = .ok st') :
    Gathered.After input clock (hashes ++ [hash]) st' := by
  simp only [Terracoin.gatherTx, bind_ok, get_ok] at hstep
  obtain ⟨tx, hpool, hstep⟩ := hstep
  have hdeps := MinerInput.dependsOn_eq hpool
  split at hstep
  · -- a coinbase, or not final
    rename_i hskip
    obtain rfl := Except.ok.inj hstep
    have hpart : input.takesPart clock hash = false := by
      rw [MinerInput.takesPart, hpool, Option.any_some, hskip]
      rfl
    exact h.skip hnew hpart rfl (fun _ _ => rfl) id (fun _ _ => .inl) fun _ _ => id
  · rename_i hfinal
    simp only [gatherInputs, bind_ok, Prod.exists] at hstep
    obtain ⟨scan, fMissingInputs, hscan, hstep⟩ := hstep
    rcases scanInputs_spec (.refl _ rfl) hscan with ⟨rfl, hfound, hafter⟩ | ⟨rfl, hmiss, hmissing⟩
    · rw [if_neg Bool.false_ne_true] at hstep
      rw [List.nil_append] at hafter
      have hpart : input.takesPart clock hash = true := by
        rw [MinerInput.takesPart, hpool, Option.any_some, Bool.and_eq_true, List.all_eq_true]
        exact ⟨by simpa using hfinal, hfound⟩
      simp only [bind_ok, add64_ok] at hstep
      obtain ⟨nValueOut, hvout, _, ⟨rfl, -⟩, hstep⟩ := hstep
      have hentry : input.priorityOf hash tx = ⟨PriorityArithmetic.div scan.dPriority
          (PriorityArithmetic.ofInt tx.getSerializeSize),
          PriorityArithmetic.div (PriorityArithmetic.ofInt (scan.nTotalIn + -nValueOut))
            (PriorityArithmetic.div (PriorityArithmetic.ofInt tx.getSerializeSize)
              (PriorityArithmetic.ofInt 1000)), hash⟩ := by
        rw [MinerInput.priorityOf, hafter.dPriority, hafter.nTotalIn, Int.zero_add,
          CTransaction.getValueOut_ok hvout]
      by_cases he : input.waitsFor tx.vin = ∅
      · rw [if_neg (by simp [hafter.porphan, he]), pure_ok] at hstep
        subst hstep
        have hnone := (hafter.unlisted he).trans (h.unlisted hash fun hmem => absurd hmem hnew)
        refine h.take hpart (by simp [hdeps, he]) hafter.others (fun hne => absurd (hdeps ▸ he) hne)
          (fun _ => hnone) (fun p h' => hdeps ▸ hafter.dependers p h') (fun entry hmem => ?_)
          fun orphan ho => absurd (hnone.symm.trans ho) (Option.some_ne_none _).symm
        refine (List.mem_append.mp hmem).imp_right fun hmem => ?_
        rw [List.mem_singleton.mp hmem, ← hentry]
        exact ⟨tx, hpool, rfl⟩
      · rw [if_pos (by simp [hafter.porphan, he]), pure_ok] at hstep
        subst hstep
        obtain ⟨orphan, ho, hptx, hset⟩ := hafter.listed he
        refine h.take hpart (by simp [hdeps, he]) (fun h' hne => ?_) (fun _ => ?_)
          (fun hempty => absurd (hdeps ▸ hempty) he) (fun p h' => hdeps ▸ hafter.dependers p h')
          (fun _ => .inl) fun orphan' ho' => ?_
        · dsimp only
          rw [Function.update_of_ne hne]
          exact hafter.others h' hne
        · dsimp only
          rw [Function.update_self, ho]
          exact ⟨_, rfl, hptx, hset.trans hdeps.symm⟩
        · dsimp only at ho'
          rw [Function.update_self, ho] at ho'
          rw [← Option.some.inj ho', COrphan.entry]
          dsimp only
          rw [hptx, ← hentry]
          exact ⟨tx, hpool, rfl⟩
    · rw [if_pos rfl, pure_ok] at hstep
      subst hstep
      have hpart : input.takesPart clock hash = false := by
        obtain ⟨txin, hmem, hnot⟩ := hmiss
        rw [MinerInput.takesPart, hpool, Option.any_some, Bool.and_eq_false_iff]
        refine .inr (List.all_eq_false.mpr ⟨txin, hmem, by simp [hnot]⟩)
      rw [List.nil_append] at hmissing
      exact h.skip hnew hpart rfl hmissing.others hmissing.gone
        (fun p h' hmem => hdeps ▸ hmissing.dependers p h' hmem) hmissing.kept

theorem foldlM_gatherTx {before hashes : List uint256} {st st' : Gathered}
    (hnodup : (before ++ hashes).Nodup) (h : Gathered.After input clock before st)
    (hrun : hashes.foldlM (gatherTx input clock) st = .ok st') :
    Gathered.After input clock (before ++ hashes) st' := by
  induction hashes generalizing before st with
  | nil =>
    obtain rfl := Except.ok.inj hrun
    rwa [List.append_nil]
  | cons hash hashes ih =>
    rw [List.foldlM_cons, bind_ok] at hrun
    obtain ⟨st1, h1, h2⟩ := hrun
    have hnew : hash ∉ before := by
      intro hmem
      exact (List.nodup_append.mp hnodup).2.2 hash hmem hash List.mem_cons_self rfl
    rw [List.append_cons] at hnodup ⊢
    exact ih hnodup (h.gatherTx hnew h1) h2

theorem gather_spec {hashes : List uint256} {st : Gathered} (hnodup : hashes.Nodup)
    (h : gather input clock hashes = .ok st) : Gathered.After input clock hashes st := by
  have hall : ([] ++ hashes).Nodup := hnodup
  exact foldlM_gatherTx hall .nil h

end Gather

end Terracoin
