import Terracoin.Serialize.Undo
import Terracoin.Validation.Supply

/-!
# Undo data on disk

`DisconnectBlock` reads its undo data from the undo file. In a run in which every entry keeps what
is read back of its undo data, the undo data that `ConnectBlock` writes reads back as itself
exactly if the block does not spend the last available output of a transaction with a negative
version (`blockUndo_roundTrips_iff`): of such a version only seven bits reach the disk.

`Recordable` is what any coins of such a run have: outputs that can be stored, and a height that
fits the code of an undo record.
-/

namespace Terracoin

open Checked CTransaction

/-! ## Recordable coins -/

structure CCoins.Recordable (c : CCoins) : Prop where
  outs : ∀ n out, c.output n = some out → out.Storable
  nHeight_nonneg : 0 ≤ c.nHeight
  nHeight_lt : c.nHeight < 2 ^ 31
  nVersion : c.nHeight = 0 → c.nVersion = 0

namespace CCoins

theorem recordable_empty : empty.Recordable :=
  ⟨fun _ _ h => (by cases h), le_refl 0, by decide, fun _ => rfl⟩

theorem recordable_ofTx {tx : CTransaction} {nHeight : Int} (h : tx.Checked) (h0 : 0 < nHeight)
    (hlt : nHeight < 2 ^ 31) : (ofTx tx nHeight).Recordable := by
  refine ⟨?_, le_of_lt h0, hlt, fun heq => absurd heq (ne_of_gt h0)⟩
  intro n out hout
  exact h.storable (List.mem_of_getElem? (output_eq_some.mp hout).1)

/-- Spending leaves recordable coins and a storable record, with the version of the transaction if
no other output was available. -/
theorem Recordable.spent {c c' : CCoins} {n : Nat} {undo : CTxInUndo} (hc : c.Recordable)
    (h : Spent c n c' undo) : c'.Recordable ∧ undo.Storable ∧
      ((c.nVersion < 0 → ∃ m, m ≠ n ∧ c.isAvailable m = true) ↔
        (0 < undo.nHeight → 0 ≤ undo.nVersion)) := by
  have hlast : (∃ m, m ≠ n ∧ c.isAvailable m = true) ↔ c'.isPruned = false := by
    rw [isPruned_eq_false_iff]
    constructor
    · rintro ⟨m, hm, havail⟩
      refine ⟨m, ?_⟩
      rw [h.output, if_neg hm, ← isAvailable_eq]
      exact havail
    · rintro ⟨m, hout⟩
      rw [h.output] at hout
      split at hout
      · cases hout
      · rename_i hm
        exact ⟨m, hm, by rwa [isAvailable_eq]⟩
  refine ⟨⟨?_, ?_, ?_, ?_⟩, ?_⟩
  · intro m out hout
    rw [h.output] at hout
    split at hout
    · cases hout
    · exact hc.outs m out hout
  · exact h.nHeight ▸ hc.nHeight_nonneg
  · exact h.nHeight ▸ hc.nHeight_lt
  · intro h0
    rw [h.nVersion]
    exact hc.nVersion (h.nHeight ▸ h0)
  · have htxout := hc.outs n undo.txout h.txout
    rw [hlast]
    cases hp : c'.isPruned with
    | true =>
      obtain ⟨-, hheight, hversion⟩ := h.last hp
      rw [hversion, hheight]
      refine ⟨⟨htxout, hheight ▸ hc.nHeight_nonneg, hheight ▸ hc.nHeight_lt, ?_⟩, ?_⟩
      · rw [hheight, hversion]
        exact hc.nVersion
      · constructor
        · intro hneg hpos
          exact Int32.not_lt.mp fun hv => absurd (hneg hv) Bool.noConfusion
        · intro hnonneg hv
          by_cases hpos : 0 < c.nHeight
          · exact absurd hv (Int32.not_lt.mpr (hnonneg hpos))
          · have hge := hc.nHeight_nonneg
            rw [hc.nVersion (by omega)] at hv
            exact absurd hv (by decide)
    | false =>
      obtain ⟨-, hheight, hversion⟩ := h.notLast hp
      rw [hversion, hheight]
      refine ⟨⟨htxout, by rw [hheight], by rw [hheight]; decide, fun _ => hversion⟩, ?_⟩
      exact ⟨fun _ hpos => absurd hpos (lt_irrefl 0), fun _ _ => rfl⟩

theorem Recordable.restore {d : CCoins} {n : Nat} {undo : CTxInUndo} (hd : d.Recordable)
    (hu : undo.Storable) : (restore d n undo).1.Recordable := by
  have hbase : (restoreBase d undo).Recordable := by
    unfold restoreBase
    split
    · exact ⟨fun _ _ h => (by cases h), hu.nHeight_nonneg, hu.nHeight_lt, hu.nVersion⟩
    · exact hd
  obtain ⟨-, hheight, hversion⟩ := restore_metadata d n undo
  refine ⟨?_, hheight ▸ hbase.nHeight_nonneg, hheight ▸ hbase.nHeight_lt, ?_⟩
  · intro m out hout
    rw [restore_output (CTxOut.isNull_of_nonneg hu.txout.nValue_nonneg)] at hout
    split at hout
    · exact Option.some.inj hout ▸ hu.txout
    · exact hbase.outs m out hout
  · intro h0
    rw [hversion]
    exact hbase.nVersion (hheight ▸ h0)

end CCoins

/-! ## Recordable views -/

namespace CoinsView

def Recordable (view : CoinsView) : Prop := ∀ txid, (view.coinsAt txid).Recordable

theorem Recordable.setCoins {view : CoinsView} (h : view.Recordable) {txid : uint256} {c : CCoins}
    (hc : c.Recordable) : (view.setCoins txid c).Recordable := by
  intro txid'
  by_cases ht : txid' = txid
  · rw [ht, coinsAt_setCoins_self]
    exact hc
  · rw [coinsAt_setCoins_of_ne ht]
    exact h txid'

/-- The input does not spend the last available output of a transaction with a negative version. -/
def KeepsVersion (view : CoinsView) (txin : CTxIn) : Prop :=
  (view.coinsAt txin.prevout.hash).nVersion < 0 →
    ∃ m, m ≠ txin.prevout.n.toNat ∧ (view.coinsAt txin.prevout.hash).isAvailable m = true

/-- So it is with every input of the transaction, when they are spent one after the other. -/
def KeepsVersions (view : CoinsView) (tx : CTransaction) : Prop :=
  tx.isCoinBase = false → UndoLog.Along spendInput KeepsVersion view tx.vin

/-- So it is with every transaction of the block. -/
def KeepsBlockVersions [Hashing] (view : CoinsView) (nHeight : Int) (b : CBlock) : Prop :=
  UndoLog.Along (applyTransaction nHeight) KeepsVersions view b.vtx

end CoinsView

open CoinsView

section

variable {view view' : CoinsView} {nHeight : Int}

theorem recordable_spendInput {txin : CTxIn} {undo : CTxInUndo} (hv : view.Recordable)
    (h : spendInput view txin = .ok (view', undo)) : view'.Recordable ∧ undo.Storable ∧
      (KeepsVersion view txin ↔ (0 < undo.nHeight → 0 ≤ undo.nVersion)) := by
  obtain ⟨coins, hspend, rfl⟩ := spendInput_ok.mp h
  obtain ⟨hcoins, hundo, hiff⟩ := (hv txin.prevout.hash).spent (CCoins.spent_of_spend hspend)
  exact ⟨hv.setCoins hcoins, hundo, hiff⟩

theorem recordable_applyTransaction [Hashing] {tx : CTransaction} {o : Option CTxUndo}
    (hv : view.Recordable) (h0 : 0 < nHeight) (hlt : nHeight < 2 ^ 31) (htx : tx.Checked)
    (h : applyTransaction nHeight view tx = .ok (view', o)) : view'.Recordable ∧
      (∀ txundo ∈ o, txundo.Storable) ∧
      (KeepsVersions view tx ↔ ∀ txundo ∈ o, ∀ undo ∈ txundo.vprevout,
        0 < undo.nHeight → 0 ≤ undo.nVersion) := by
  obtain ⟨txundo, hupdate, rfl⟩ := applyTransaction_ok.mp h
  obtain ⟨v, hspend, rfl⟩ := updateCoins_ok.mp hupdate
  have hcoins := CCoins.recordable_ofTx htx h0 hlt
  unfold spendInputs at hspend
  unfold KeepsVersions
  cases hcb : tx.isCoinBase with
  | true =>
    rw [if_pos hcb] at hspend
    obtain ⟨rfl, -⟩ := Prod.mk.inj (Except.ok.inj hspend)
    rw [if_pos rfl]
    refine ⟨hv.setCoins hcoins, fun _ h => (by cases h), fun _ _ h => (by cases h), fun _ h => ?_⟩
    cases h
  | false =>
    rw [if_neg (by rw [hcb]; exact Bool.false_ne_true)] at hspend
    obtain ⟨hrec, hundos⟩ := UndoLog.applyAll_records
      (fun s a _ s' u hs ha => ⟨(recordable_spendInput hs ha).1, (recordable_spendInput hs ha).2.1⟩)
      hv hspend
    have hiff := UndoLog.along_iff
      (fun s a _ s' u hs ha => ⟨(recordable_spendInput hs ha).1, (recordable_spendInput hs ha).2.2⟩)
      hv hspend
    rw [if_neg Bool.false_ne_true]
    refine ⟨hrec.setCoins hcoins, ?_, ?_⟩
    · intro t ht
      obtain rfl : txundo = t := Option.some.inj ht
      refine ⟨?_, hundos⟩
      have hlen := UndoLog.applyAll_length hspend
      have hvin := tx.vin_length_le_size.trans htx.size_le
      have hbs : maxBlockSize = 1000000 := rfl
      have hms : maxSize = 33554432 := rfl
      omega
    · simp only [true_implies, Option.mem_def, Option.some.injEq, forall_eq']
      exact hiff

/-- The undo data of a block is storable, and loses no version exactly if the block keeps them. -/
theorem recordable_applyTransactions [Hashing] {b : CBlock} {undos : List (Option CTxUndo)}
    (hv : view.Recordable) (h0 : 0 < nHeight) (hlt : nHeight < 2 ^ 31) (hb : b.Checked)
    (h : applyTransactions nHeight view b.vtx = .ok (view', undos)) : view'.Recordable ∧
      CBlockUndo.Storable ⟨undos.reduceOption⟩ ∧
      (CBlockUndo.VersionsNonneg ⟨undos.reduceOption⟩ ↔ KeepsBlockVersions view nHeight b) := by
  obtain ⟨hrec, hundos⟩ := UndoLog.applyAll_records (fun s tx htx s' o hs ha =>
    have hstep := recordable_applyTransaction hs h0 hlt (hb.checked tx htx) ha
    ⟨hstep.1, hstep.2.1⟩) hv h
  have hiff := UndoLog.along_iff (fun s tx htx s' o hs ha =>
    have hstep := recordable_applyTransaction hs h0 hlt (hb.checked tx htx) ha
    ⟨hstep.1, hstep.2.2⟩) hv h
  refine ⟨hrec, ⟨?_, ?_⟩, ?_⟩
  · have hlen := reduceOption_length hb h
    have hle := hb.length_le
    have hbs : maxBlockSize = 1000000 := rfl
    have hms : maxSize = 33554432 := rfl
    dsimp only
    omega
  · intro txundo htxundo
    exact hundos (some txundo) (List.reduceOption_mem_iff.mp htxundo) txundo rfl
  · rw [KeepsBlockVersions, hiff]
    constructor
    · rintro hall o ho txundo rfl
      exact hall txundo (List.reduceOption_mem_iff.mpr ho)
    · intro hall txundo htxundo
      exact hall (some txundo) (List.reduceOption_mem_iff.mp htxundo) txundo rfl

theorem recordable_disconnectTransaction [Hashing] {tx : CTransaction} {o : Option CTxUndo}
    {fClean : Bool} (ho : ∀ txundo ∈ o, txundo.Storable) (hv : view.Recordable)
    (h : disconnectTransaction nHeight view tx o = .ok (view', fClean)) : view'.Recordable := by
  have hempty : (view.setCoins tx.getHash .empty).Recordable := hv.setCoins CCoins.recordable_empty
  cases o with
  | none =>
    obtain ⟨rfl, -⟩ := Prod.mk.inj (Except.ok.inj h)
    exact hempty
  | some txundo =>
    simp only [disconnectTransaction, bind_ok, require_ok, pure_ok, Prod.exists,
      Prod.mk.injEq] at h
    obtain ⟨_, -, v, fClean', hrev, rfl, -⟩ := h
    refine UndoLog.revertAll_invariant ?_ (ho txundo rfl).vprevout hempty hrev
    intro s txin undo s' b hundo hs hstep
    obtain ⟨rfl, -⟩ := Prod.mk.inj (Except.ok.inj hstep)
    exact hs.setCoins ((hs txin.prevout.hash).restore hundo)

end

/-! ## Runs over the disk -/

def CoinsOp.pindex : CoinsOp → CBlockIndex
  | .connect _ pindex => pindex
  | .disconnect pindex _ => pindex

section

variable [PublicKeys]

/-- An index entry with the undo data that is read back from the undo file. -/
def BlockData.readBack (data : BlockData) : BlockData :=
  { data with undo := data.undo.bind fun blockundo => (CBlockUndo.read blockundo.write).map Prod.fst }

theorem BlockData.readBack_eq [LawfulPublicKeys] {data : BlockData} (h : ∀ blockundo ∈ data.undo, blockundo.Storable) :
    data.readBack = { data with undo := data.undo.map CBlockUndo.readBack } := by
  unfold BlockData.readBack
  cases hu : data.undo with
  | none => rfl
  | some blockundo =>
    have hdec := CBlockUndo.decodes_write (h blockundo hu) []
    rw [List.append_nil] at hdec
    rw [Option.bind_some, hdec]
    rfl

variable [Hashing] [ScriptEngine] [NodeConfig]

/-- A step after which the entry holds what is read back of the undo data written for it. -/
def CoinsState.stepDisk (block : CBlockIndex → CBlock) (s : CoinsState) (op : CoinsOp) :
    CoinsState :=
  let s := s.step block op
  { s with data := Function.update s.data op.pindex (s.data op.pindex).readBack }

def CoinsState.runDisk (block : CBlockIndex → CBlock) : CoinsState → List CoinsOp → CoinsState :=
  List.foldl (CoinsState.stepDisk block)

end

/-- Recordable coins, and storable undo data wherever there is undo data. -/
structure RecordInv (s : CoinsState) : Prop where
  tip : ∃ tip, s.view.getBestBlock = some tip
  view : s.view.Recordable
  undo : ∀ pindex, (s.data pindex).nStatus.haveUndo = true →
    ∀ blockundo ∈ (s.data pindex).undo, blockundo.Storable

theorem recordInv_init (header : CBlockHeader) : RecordInv (CoinsState.init header) where
  tip := ⟨_, rfl⟩
  view := fun _ => CCoins.recordable_empty
  undo := fun _ h => by cases h

theorem recordInv_readBack [PublicKeys] [LawfulPublicKeys] {s : CoinsState} {pindex : CBlockIndex}
    (hs : RecordInv s) : RecordInv
    { s with data := Function.update s.data pindex (s.data pindex).readBack } := by
  refine ⟨hs.tip, hs.view, ?_⟩
  intro q
  dsimp only
  by_cases hq : q = pindex
  · subst hq
    rw [Function.update_self]
    intro hhave
    rw [BlockData.readBack_eq (hs.undo q hhave)]
    intro blockundo hmem
    obtain ⟨u, hu, rfl⟩ := Option.mem_map.mp hmem
    exact (hs.undo q hhave u hu).readBack
  · rw [Function.update_of_ne hq]
    exact hs.undo q

section

variable [Hashing] [ScriptEngine] [NodeConfig] {block : CBlockIndex → CBlock} {s : CoinsState}
  {b : CBlock} {pindex : CBlockIndex} {phashBlock : Option uint256}

theorem RecordInv.connectCoins {coins : CoinsView} {blockundo : CBlockUndo} (hs : RecordInv s)
    (hheight : (pindex.nHeight : Int) < 2 ^ 31) (hb : b.Checked)
    (hprev : pindex.pprev = s.view.getBestBlock)
    (h : connectCoins b pindex phashBlock s.view = .ok (coins, blockundo)) :
    coins.Recordable ∧ blockundo.Storable ∧
      (blockundo.VersionsNonneg ↔ KeepsBlockVersions s.view pindex.nHeight b) := by
  obtain ⟨tip, htip⟩ := hs.tip
  obtain ⟨undos, hconn, rfl⟩ := connected_of_connectCoins hb.checked h
  have hpos : (0 : Int) < pindex.nHeight := by
    rw [CBlockIndex.nHeight_of_pprev (hprev.trans htip)]
    omega
  exact recordable_applyTransactions hs.view hpos hheight hb hconn.apply

theorem recordInv_connect {env : ConnectEnv} (hs : RecordInv s)
    (hheight : (pindex.nHeight : Int) < 2 ^ 31) :
    RecordInv (s.step block (.connect env pindex)) := by
  have hundo : ∀ q, (Function.update s.data pindex (connectBlock env (block pindex) pindex
      (some pindex.getBlockHash) (s.data pindex) s.view false).1 q).nStatus.haveUndo = true →
      ∀ blockundo ∈ (Function.update s.data pindex (connectBlock env (block pindex) pindex
        (some pindex.getBlockHash) (s.data pindex) s.view false).1 q).undo, blockundo.Storable := by
    intro q
    by_cases hq : q = pindex
    · subst hq
      rw [Function.update_self]
      intro hhave blockundo hmem
      rcases connectBlock_data hhave with ⟨hold, heq⟩ | ⟨-, hb, hprev, coins, u, hcoins, heq⟩
      · rw [heq] at hmem
        exact hs.undo q hold blockundo hmem
      · rw [heq] at hmem
        obtain rfl : u = blockundo := Option.some.inj hmem
        exact (hs.connectCoins hheight hb hprev hcoins).2.1
    · rw [Function.update_of_ne hq]
      exact hs.undo q
  unfold CoinsState.step
  dsimp only
  generalize hr : connectBlock env (block pindex) pindex (some pindex.getBlockHash)
    (s.data pindex) s.view false = r at hundo ⊢
  obtain ⟨data', e | view'⟩ := r
  · exact ⟨hs.tip, hs.view, hundo⟩
  · by_cases hgenesis : (block pindex).getHash = hashGenesisBlock
    · obtain ⟨-, rfl⟩ := connectBlock_ok_genesis hgenesis hr
      exact ⟨⟨pindex, rfl⟩, hs.view, hundo⟩
    · obtain ⟨hb, hprev, coins, blockundo, hcoins, rfl, -, -⟩ := connectBlock_ok hgenesis hr
      exact ⟨⟨pindex, rfl⟩, (hs.connectCoins hheight hb hprev hcoins).1, hundo⟩

theorem recordInv_disconnect {fReadUndo : Bool} (hs : RecordInv s) :
    RecordInv (s.step block (.disconnect pindex fReadUndo)) := by
  unfold CoinsState.step
  dsimp only
  split
  · rename_i view' fClean hdis
    obtain ⟨-, hhave, prev, blockundo, coins, -, -, hundo, -, hrev, rfl⟩ :=
      disconnectBlock_ok.mp hdis
    have hstore := hs.undo pindex hhave blockundo hundo
    refine ⟨⟨prev, rfl⟩, ?_, hs.undo⟩
    change coins.Recordable
    have hrecords : ∀ o ∈ none :: blockundo.vtxundo.map some, ∀ txundo ∈ o, txundo.Storable := by
      rw [List.forall_mem_cons]
      refine ⟨fun _ h => (by cases h), fun o ho txundo htxundo => ?_⟩
      obtain ⟨t, ht, rfl⟩ := List.mem_map.mp ho
      obtain rfl : t = txundo := Option.some.inj htxundo
      exact hstore.vtxundo t ht
    refine UndoLog.revertAll_invariant ?_ hrecords hs.view hrev
    exact fun _ _ _ _ _ ho hv h => recordable_disconnectTransaction ho hv h
  · exact hs

variable [PublicKeys] [LawfulPublicKeys]

theorem recordInv_runDisk (block : CBlockIndex → CBlock) (header : CBlockHeader) {ops : List CoinsOp}
    (hops : ∀ op ∈ ops, (op.pindex.nHeight : Int) < 2 ^ 31) :
    RecordInv ((CoinsState.init header).runDisk block ops) := by
  refine List.foldlRecOn (motive := RecordInv) ops _ (recordInv_init header) ?_
  intro s hs op hop
  have hstep : RecordInv (s.step block op) := by
    cases op with
    | connect env pindex =>
      have hheight : (pindex.nHeight : Int) < 2 ^ 31 := hops (.connect env pindex) hop
      exact recordInv_connect hs hheight
    | disconnect pindex fReadUndo => exact recordInv_disconnect hs
  exact recordInv_readBack hstep

/-- **Undo data on disk.** The undo data that `ConnectBlock` writes on a view reached from genesis is
read back as the same records, and then undoes what it would undo from memory, exactly if the
block does not spend the last available output of a transaction with a negative version. -/
theorem blockUndo_roundTrips_iff {header : CBlockHeader} {ops : List CoinsOp} {env : ConnectEnv}
    {data data' : BlockData} {view' : CoinsView}
    (hops : ∀ op ∈ ops, (op.pindex.nHeight : Int) < 2 ^ 31)
    (hheight : (pindex.nHeight : Int) < 2 ^ 31) (hgenesis : b.getHash ≠ hashGenesisBlock)
    (hnew : data.nStatus.haveUndo = false)
    (h : connectBlock env b pindex phashBlock data
      ((CoinsState.init header).runDisk block ops).view false = (data', .ok view')) :
    ∃ blockundo, data'.undo = some blockundo ∧
      ((blockundo.RoundTrips ∧ ∀ fReadUndo view, disconnectBlock b pindex data'.readBack fReadUndo view =
          disconnectBlock b pindex data' fReadUndo view) ↔
        KeepsBlockVersions ((CoinsState.init header).runDisk block ops).view pindex.nHeight b) := by
  have hs := recordInv_runDisk block header hops
  generalize (CoinsState.init header).runDisk block ops = s at hs h ⊢
  obtain ⟨hb, hprev, coins, blockundo, hcoins, rfl, -, hundo⟩ := connectBlock_ok hgenesis h
  rw [if_neg (by rw [hnew]; exact Bool.false_ne_true)] at hundo
  obtain ⟨-, hstore, hiff⟩ := hs.connectCoins hheight hb hprev hcoins
  refine ⟨blockundo, hundo, ?_⟩
  rw [← hiff, ← hstore.roundTrips_iff_versionsNonneg]
  constructor
  · rintro ⟨hround, -⟩
    exact hround
  · intro hround
    refine ⟨hround, fun fReadUndo view => ?_⟩
    have hsame : data'.readBack = data' := by
      rw [BlockData.readBack_eq fun u hu => by
        rw [hundo] at hu
        exact Option.some.inj hu ▸ hstore]
      rw [hundo, Option.map_some,
        hstore.readBack_eq_self (hstore.roundTrips_iff_versionsNonneg.mp hround), ← hundo]
    rw [hsame]

end

namespace Sample

/-- A chain on the genesis block; the block at height `n` has hash `n`. -/
def chain : Nat → CBlockIndex
  | 0 => genesis
  | n + 1 => .child (chain n) (header (UInt32.ofNat (n + 1)) (BitVec.ofNat 256 (n + 1)))

/-- The blocks of the chain: one coinbase each, with the given version. -/
def mined (nVersion : Int32) (pindex : CBlockIndex) : CBlock :=
  block (UInt32.ofNat pindex.nHeight) (BitVec.ofNat 256 pindex.nHeight)
    [{ coinbase (UInt32.ofNat pindex.nHeight) coin with nVersion := nVersion }]

def mine (n : Nat) : List CoinsOp := (List.range n).map fun k => .connect env (chain (k + 1))

/-- The block that spends the first of these coinbases as soon as it may. -/
def spender : CBlock := block 101 301 [coinbase 101 coin, spending 200 [(1, 0)] [coin]]

def spenderIndex : CBlockIndex := .child (chain 100) spender.toCBlockHeader

end Sample

open Sample in
theorem blockUndo_roundTrips_iff_sample :
    let s := (CoinsState.init (header 0 0)).runDisk (mined 1) (mine 100)
    ∃ data' view' blockundo,
      connectBlock env spender spenderIndex (some 101) .unconnected s.view false =
        (data', .ok view') ∧ data'.undo = some blockundo ∧
      ((blockundo.RoundTrips ∧ ∀ fReadUndo view,
          disconnectBlock spender spenderIndex data'.readBack fReadUndo view =
            disconnectBlock spender spenderIndex data' fReadUndo view) ↔
        KeepsBlockVersions s.view 101 spender) := by
  intro s
  have hok : (connectBlock env spender spenderIndex (some 101) .unconnected s.view
      false).2.isOk = true := by decide +kernel
  generalize hr : connectBlock env spender spenderIndex (some 101) .unconnected s.view false = r at hok
  obtain ⟨data', result⟩ := r
  obtain ⟨view', rfl⟩ := exists_ok_of_isOk hok
  obtain ⟨blockundo, hundo, hiff⟩ := blockUndo_roundTrips_iff
    (show ∀ op ∈ mine 100, (op.pindex.nHeight : Int) < 2 ^ 31 by decide +kernel)
    (by decide +kernel) (by decide +kernel) rfl hr
  exact ⟨data', view', blockundo, rfl, hundo, hiff⟩

open Sample in
/-- With version `-1` the block at height 101 puts a record on disk that reads back as version
127. -/
theorem blockUndo_not_roundTrips_sample :
    let s := (CoinsState.init (header 0 0)).runDisk (mined (-1)) (mine 100)
    let r := connectBlock env spender spenderIndex (some 101) .unconnected s.view false
    r.2.isOk = true ∧ r.1.undo = some ⟨[⟨[⟨⟨coin, []⟩, true, 1, -1⟩]⟩]⟩ ∧
      ¬ CBlockUndo.RoundTrips ⟨[⟨[⟨⟨coin, []⟩, true, 1, -1⟩]⟩]⟩ := by
  intro s r
  have hrun : (r.2.isOk, r.1.undo) = (true, some ⟨[⟨[⟨⟨coin, []⟩, true, 1, -1⟩]⟩]⟩) := by
    decide +kernel
  refine ⟨(Prod.mk.inj hrun).1, (Prod.mk.inj hrun).2, ?_⟩
  have hundo : CTxInUndo.Storable ⟨⟨coin, []⟩, true, 1, -1⟩ :=
    ⟨⟨by decide, by decide, by decide⟩, by decide, by decide, by decide⟩
  have hstore : CBlockUndo.Storable ⟨[⟨[⟨⟨coin, []⟩, true, 1, -1⟩]⟩]⟩ :=
    ⟨by decide, List.forall_mem_singleton.mpr ⟨by decide, List.forall_mem_singleton.mpr hundo⟩⟩
  rw [hstore.roundTrips_iff_versionsNonneg]
  intro hv
  exact absurd (hv _ List.mem_cons_self _ List.mem_cons_self (by decide)) (by decide)

end Terracoin
