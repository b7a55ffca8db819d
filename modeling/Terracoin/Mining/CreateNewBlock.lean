import Terracoin.Mempool.Consistency
import Terracoin.Mining.UpdateTime
import Terracoin.Script.Interpreter
import Mathlib.Data.Finset.Basic

/-!
# `CreateNewBlock`

A block template from the transactions of the memory pool. The first loop (`gather`) puts those whose
inputs are all among the coins into `vecPriority`, a heap of the standard library, and those that
wait for other transactions of the pool into `vOrphan`. The second loop (`selectRound`) takes one
transaction after the other off the heap, puts it into the block or leaves it, and puts the ones on
the heap that waited for it only. The block is tested with `ConnectBlock` in the end.

A pointer to an element of `vOrphan` or `mempool.mapTx` is the key of that transaction in `mapTx`. An
orphan that is taken off the list again (`pop_back`) leaves its pointers in `mapDependers`; using one
of them is a use of an object that is not there.
-/

namespace Terracoin

open Checked

/-- The arithmetic and the comparisons of `double`, with the conversion from integers. -/
class PriorityArithmetic where
  double : Type
  ofInt : Int → double
  add : double → double → double
  mul : double → double → double
  div : double → double → double
  lt : double → double → Bool
  eq : double → double → Bool

/-- `std::make_heap`, `push_heap` and `pop_heap` of a range and a comparison: they rearrange the
range, and `pop_heap` moves its first element to the end. -/
class HeapAlgorithms where
  makeHeap : {α : Type} → (α → α → Bool) → List α → List α
  pushHeap : {α : Type} → (α → α → Bool) → List α → List α
  /-- What is before the end, where the first element of the range is. -/
  popHeap : {α : Type} → (α → α → Bool) → α → List α → List α
  makeHeap_perm {α : Type} (comp : α → α → Bool) (l : List α) : (makeHeap comp l).Perm l
  pushHeap_perm {α : Type} (comp : α → α → Bool) (l : List α) : (pushHeap comp l).Perm l
  popHeap_perm {α : Type} (comp : α → α → Bool) (a : α) (l : List α) : (popHeap comp a l).Perm l

/-! ## The settings -/

/-- `-blockmaxsize`, `-blockprioritysize` and `-blockminsize` as numbers, and the amount of
`-mintxfee` if there is one that `ParseMoney` accepts. -/
structure BlockArgs where
  blockmaxsize : Option Int
  blockprioritysize : Option Int
  blockminsize : Option Int
  mintxfee : Option Int
deriving DecidableEq, Repr

/-- The clock at each of the times that `CreateNewBlock` asks for it: at the start, for `IsFinal` of
a transaction, for the time of the block, and for the test in the end. -/
structure MinerClock where
  nStart : Int
  nFinal : uint256 → Int
  nUpdate : Int
  nCheck : Int

/-- A number of the command line in an `unsigned int`. -/
def unsignedArg (arg : Option Int) (nDefault : Nat) : Nat :=
  match arg with
  | some n => (n % 2 ^ 32).toNat
  | none => nDefault

namespace BlockArgs

def nBlockMaxSize (args : BlockArgs) (nAdjustedTime : Int) : Nat :=
  let nBlockMaxSize :=
    max 1000 (min (maxBlockSize - 1000) (unsignedArg args.blockmaxsize (maxBlockSizeGen / 2)))
  if nAdjustedTime < 1368576000 then min nBlockMaxSize maxBlockSizeGen else nBlockMaxSize

def nBlockPrioritySize (args : BlockArgs) (nAdjustedTime : Int) : Nat :=
  min (args.nBlockMaxSize nAdjustedTime) (unsignedArg args.blockprioritysize 27000)

def nBlockMinSize (args : BlockArgs) (nAdjustedTime : Int) : Nat :=
  min (args.nBlockMaxSize nAdjustedTime) (unsignedArg args.blockminsize 0)

def nMinTxFee (args : BlockArgs) : Int := args.mintxfee.getD CTransaction.minTxFee

end BlockArgs

section Types

variable [PriorityArithmetic]

structure COrphan where
  ptx : uint256
  setDependsOn : Finset uint256
  dPriority : PriorityArithmetic.double
  dFeePerKb : PriorityArithmetic.double

structure TxPriority where
  dPriority : PriorityArithmetic.double
  dFeePerKb : PriorityArithmetic.double
  ptx : uint256

def txPriorityCompare (byFee : Bool) (a b : TxPriority) : Bool :=
  if byFee then
    if PriorityArithmetic.eq a.dFeePerKb b.dFeePerKb then PriorityArithmetic.lt a.dPriority b.dPriority
    else PriorityArithmetic.lt a.dFeePerKb b.dFeePerKb
  else
    if PriorityArithmetic.eq a.dPriority b.dPriority then PriorityArithmetic.lt a.dFeePerKb b.dFeePerKb
    else PriorityArithmetic.lt a.dPriority b.dPriority

end Types

/-! ## The first loop -/

/-- What both loops of `CreateNewBlock` read: the coins at the tip, the tip, the pool, and `fDebug`. -/
structure MinerInput where
  coinsTip : CoinsView
  pindexPrev : CBlockIndex
  pool : CTxMemPool
  fDebug : Bool

section Gather

variable [PriorityArithmetic]

/-- The variables of the loop over the inputs of a transaction; `porphan` says whether it points to
an orphan. -/
structure InputScan where
  vOrphan : uint256 → Option COrphan
  mapDependers : uint256 → List uint256
  porphan : Bool
  dPriority : PriorityArithmetic.double
  nTotalIn : Int

/-- `vOrphan.push_back(COrphan(&tx))`, unless there is an orphan already. -/
def InputScan.withOrphan (hash : uint256) (st : InputScan) : InputScan :=
  if st.porphan then st
  else
    { st with
      vOrphan := Function.update st.vOrphan hash
        (some ⟨hash, ∅, PriorityArithmetic.ofInt 0, PriorityArithmetic.ofInt 0⟩)
      porphan := true }

/-- `mapDependers[hashPrev].push_back(porphan)` and `porphan->setDependsOn.insert(hashPrev)`. -/
def InputScan.dependOn (hash hashPrev : uint256) (st : InputScan) : InputScan :=
  { st with
    mapDependers := Function.update st.mapDependers hashPrev (st.mapDependers hashPrev ++ [hash])
    vOrphan := Function.update st.vOrphan hash ((st.vOrphan hash).map fun porphan =>
      { porphan with setDependsOn := insert hashPrev porphan.setDependsOn }) }

/-- The body of the loop over the inputs, and whether it sets `fMissingInputs`. -/
def scanInput (input : MinerInput) (hash : uint256) (st : InputScan) (txin : CTxIn) :
    Check (InputScan × Bool) :=
  match input.coinsTip.coins txin.prevout.hash with
  | some coins => do
    let txout ← get coins.vout[txin.prevout.n.toNat]? .assertion
    let nTotalIn ← add64 .overflow st.nTotalIn txout.nValue
    let nConf : Int := input.pindexPrev.nHeight - coins.nHeight + 1
    pure ({ st with
      nTotalIn := nTotalIn
      dPriority := PriorityArithmetic.add st.dPriority
        (PriorityArithmetic.mul (PriorityArithmetic.ofInt txout.nValue) (PriorityArithmetic.ofInt nConf)) },
      false)
  | none =>
    match input.pool.mapTx txin.prevout.hash with
    | none => do
      require (!input.fDebug) .assertion
      pure ({ st with
        vOrphan := if st.porphan then Function.update st.vOrphan hash none else st.vOrphan }, true)
    | some txPrev => do
      let st := (st.withOrphan hash).dependOn hash txin.prevout.hash
      let txout ← get txPrev.vout[txin.prevout.n.toNat]? .assertion
      let nTotalIn ← add64 .overflow st.nTotalIn txout.nValue
      pure ({ st with nTotalIn := nTotalIn }, false)

/-- The loop over the inputs, which ends at a missing one. -/
def scanInputs (input : MinerInput) (hash : uint256) :
    InputScan → List CTxIn → Check (InputScan × Bool)
  | st, [] => .ok (st, false)
  | st, txin :: vin => do
    let (st, fMissingInputs) ← scanInput input hash st txin
    if fMissingInputs then pure (st, true) else scanInputs input hash st vin

/-- The variables of the loop over the pool. -/
structure Gathered where
  vOrphan : uint256 → Option COrphan
  mapDependers : uint256 → List uint256
  vecPriority : List TxPriority

/-- What the loop over the pool does with a transaction that is final and no coinbase. -/
def gatherInputs (input : MinerInput) (st : Gathered) (hash : uint256) (tx : CTransaction) :
    Check Gathered := do
  let (scan, fMissingInputs) ← scanInputs input hash
    ⟨st.vOrphan, st.mapDependers, false, PriorityArithmetic.ofInt 0, 0⟩ tx.vin
  if fMissingInputs then
    pure { st with vOrphan := scan.vOrphan, mapDependers := scan.mapDependers }
  else do
    let nTxSize := tx.getSerializeSize
    let dPriority := PriorityArithmetic.div scan.dPriority (PriorityArithmetic.ofInt nTxSize)
    let nValueOut ← tx.getValueOut
    let nFee ← add64 .overflow scan.nTotalIn (-nValueOut)
    let dFeePerKb := PriorityArithmetic.div (PriorityArithmetic.ofInt nFee)
      (PriorityArithmetic.div (PriorityArithmetic.ofInt nTxSize) (PriorityArithmetic.ofInt 1000))
    if scan.porphan then
      pure { st with
        vOrphan := Function.update scan.vOrphan hash ((scan.vOrphan hash).map fun porphan =>
          { porphan with dPriority := dPriority, dFeePerKb := dFeePerKb })
        mapDependers := scan.mapDependers }
    else
      pure ⟨scan.vOrphan, scan.mapDependers, st.vecPriority ++ [⟨dPriority, dFeePerKb, hash⟩]⟩

def gatherTx (input : MinerInput) (clock : MinerClock) (st : Gathered) (hash : uint256) :
    Check Gathered := do
  let tx ← get (input.pool.mapTx hash) .assertion
  if tx.isCoinBase || !tx.isFinalAt input.pindexPrev.nHeight (clock.nFinal hash) then pure st
  else gatherInputs input st hash tx

/-- The loop over the pool, whose keys are `hashes`. -/
def gather (input : MinerInput) (clock : MinerClock) (hashes : List uint256) : Check Gathered :=
  hashes.foldlM (gatherTx input clock) ⟨fun _ => none, fun _ => [], []⟩

end Gather

/-! ## The second loop -/

/-- What a call returned, where false is no failure: a thrown exception goes on. -/
def returned {α : Type} : Check α → Check (Option α)
  | .ok a => .ok (some a)
  | .error (.DoS _ _) | .error (.error _) | .error (.abort _) => .ok none
  | .error e => .error e

/-- The variables of the second loop; the transactions of the block come without the coinbase, and
so do their fees and signature operations. -/
structure Assembly [PriorityArithmetic] where
  view : CoinsView
  vtx : List CTransaction
  vTxFees : List Int
  vTxSigOps : List Nat
  nBlockSize : Nat
  nBlockTx : Nat
  nBlockSigOps : Nat
  nFees : Int
  fSortedByFee : Bool
  vOrphan : uint256 → Option COrphan
  vecPriority : List TxPriority

/-- The limits of the block. -/
structure BlockLimits where
  nBlockMaxSize : Nat
  nBlockPrioritySize : Nat
  nBlockMinSize : Nat
  nMinTxFee : Int
deriving DecidableEq, Repr

def BlockArgs.limits (args : BlockArgs) (nAdjustedTime : Int) : BlockLimits :=
  ⟨args.nBlockMaxSize nAdjustedTime, args.nBlockPrioritySize nAdjustedTime,
    args.nBlockMinSize nAdjustedTime, args.nMinTxFee⟩

section Select

variable [Hashing] [ScriptEngine]

/-- The part of the loop that reads the coins: the view with the transaction in it, its fee and its
signature operations, if it can go into the block. -/
def admitTx (nHeight : Int) (view : CoinsView) (nBlockSigOps : Nat) (tx : CTransaction) :
    Check (Option (CoinsView × Int × Nat)) :=
  if !tx.haveInputs view then pure none
  else do
    let nValueIn ← tx.getValueIn view
    let nValueOut ← tx.getValueOut
    let nTxFees ← add64 .overflow nValueIn (-nValueOut)
    let nP2SHSigOps ← tx.getP2SHSigOpCount view
    let nTxSigOps := tx.getLegacySigOpCount + nP2SHSigOps
    if maxBlockSigOps ≤ nBlockSigOps + nTxSigOps then pure none
    else do
      match ← returned (tx.checkInputs view true SCRIPT_VERIFY_P2SH false) with
      | none => pure none
      | some _ =>
        match ← returned (tx.updateCoins view nHeight tx.getHash) with
        | none => pure none
        | some (view, _) => pure (some (view, nTxFees, nTxSigOps))

variable [PriorityArithmetic] [HeapAlgorithms]

/-- The limits that do not depend on the coins. -/
def withinLimits (limits : BlockLimits) (st : Assembly) (entry : TxPriority) (tx : CTransaction) :
    Bool :=
  decide (st.nBlockSize + tx.getSerializeSize < limits.nBlockMaxSize) &&
    decide (st.nBlockSigOps + tx.getLegacySigOpCount < maxBlockSigOps) &&
    !(st.fSortedByFee &&
      PriorityArithmetic.lt entry.dFeePerKb (PriorityArithmetic.ofInt limits.nMinTxFee) &&
      decide (limits.nBlockMinSize ≤ st.nBlockSize + tx.getSerializeSize))

/-- From now on by fee, once past the priority size or out of high-priority transactions. -/
def prioritizeByFee (limits : BlockLimits) (st : Assembly) (entry : TxPriority) (tx : CTransaction) :
    Assembly :=
  if !st.fSortedByFee &&
      (decide (limits.nBlockPrioritySize ≤ st.nBlockSize + tx.getSerializeSize) ||
        PriorityArithmetic.lt entry.dPriority (PriorityArithmetic.ofInt (coin * 144 / 250))) then
    { st with
      fSortedByFee := true
      vecPriority := HeapAlgorithms.makeHeap (txPriorityCompare true) st.vecPriority }
  else st

/-- The body of the loop over the transactions that depend on the new one. -/
def releaseOrphan (hash : uint256) (st : Assembly) (porphan : uint256) : Check Assembly := do
  let orphan ← get (st.vOrphan porphan) .assertion
  if orphan.setDependsOn = ∅ then pure st
  else
    let orphan := { orphan with setDependsOn := orphan.setDependsOn.erase hash }
    let st := { st with vOrphan := Function.update st.vOrphan porphan (some orphan) }
    if orphan.setDependsOn = ∅ then
      pure { st with
        vecPriority := HeapAlgorithms.pushHeap (txPriorityCompare st.fSortedByFee)
          (st.vecPriority ++ [⟨orphan.dPriority, orphan.dFeePerKb, orphan.ptx⟩]) }
    else pure st

/-- The body of the loop, after the entry has been taken off the heap. -/
def selectEntry (input : MinerInput) (limits : BlockLimits) (mapDependers : uint256 → List uint256)
    (st : Assembly) (entry : TxPriority) : Check Assembly := do
  let tx ← get (input.pool.mapTx entry.ptx) .assertion
  if !withinLimits limits st entry tx then pure st
  else
    let st := prioritizeByFee limits st entry tx
    match ← admitTx (input.pindexPrev.nHeight + 1) st.view st.nBlockSigOps tx with
    | none => pure st
    | some (view, nTxFees, nTxSigOps) => do
      let nFees ← add64 .overflow st.nFees nTxFees
      let st := { st with
        view := view
        vtx := st.vtx ++ [tx]
        vTxFees := st.vTxFees ++ [nTxFees]
        vTxSigOps := st.vTxSigOps ++ [nTxSigOps]
        nBlockSize := st.nBlockSize + tx.getSerializeSize
        nBlockTx := st.nBlockTx + 1
        nBlockSigOps := st.nBlockSigOps + nTxSigOps
        nFees := nFees }
      (mapDependers tx.getHash).foldlM (releaseOrphan tx.getHash) st

/-- The loop. Every round takes a transaction of the pool off the heap for good, so as many rounds
as there are transactions are enough. -/
def selectRounds (input : MinerInput) (limits : BlockLimits)
    (mapDependers : uint256 → List uint256) : Nat → Assembly → Check Assembly
  | 0, st => .ok st
  | n + 1, st =>
    match st.vecPriority with
    | [] => .ok st
    | entry :: vecPriority => do
      let st ← selectEntry input limits mapDependers
        { st with
          vecPriority :=
            HeapAlgorithms.popHeap (txPriorityCompare st.fSortedByFee) entry vecPriority } entry
      selectRounds input limits mapDependers n st

def Assembly.start (input : MinerInput) (limits : BlockLimits) (st : Gathered) : Assembly where
  view := input.coinsTip
  vtx := []
  vTxFees := []
  vTxSigOps := []
  nBlockSize := 1000
  nBlockTx := 0
  nBlockSigOps := 100
  nFees := 0
  fSortedByFee := decide (limits.nBlockPrioritySize ≤ 0)
  vOrphan := st.vOrphan
  vecPriority := HeapAlgorithms.makeHeap
    (txPriorityCompare (decide (limits.nBlockPrioritySize ≤ 0))) st.vecPriority

def selectTransactions (input : MinerInput) (clock : MinerClock) (limits : BlockLimits)
    (hashes : List uint256) : Check Assembly := do
  let st ← gather input clock hashes
  selectRounds input limits st.mapDependers hashes.length (.start input limits st)

end Select

/-! ## The template -/

structure CBlockTemplate where
  block : CBlock
  vTxFees : List Int
  vTxSigOps : List Int
deriving DecidableEq, Repr

/-- The coinbase: an input without a previous output, and one output to the reserved key. -/
def coinbaseTx (vchPubKey : List UInt8) (scriptSig : CScript) (nValue : Int) : CTransaction :=
  ⟨1, [⟨COutPoint.null, scriptSig, 0xFFFFFFFF⟩],
    [⟨nValue, CScript.push vchPubKey ++ [CScript.OP_CHECKSIG]⟩], 0⟩

def CBlockHeader.null : CBlockHeader := ⟨2, 0, 0, 0, 0, 0⟩

section

variable [Hashing] [ScriptEngine] [NodeConfig] [FloatArithmetic] [PriorityArithmetic]
  [HeapAlgorithms]

/-- The template for the selected transactions, before it is tested. -/
def fillTemplate (input : MinerInput) (clock : MinerClock) (vchPubKey : List UInt8) (st : Assembly) :
    Check CBlockTemplate := do
  let nValue ← getBlockValue (input.pindexPrev.nHeight + 1) st.nFees
  let header ← get (CBlockHeader.null.fillIn input.pindexPrev clock.nUpdate) .assertion
  let coinbase := coinbaseTx vchPubKey [0, 0] nValue
  pure ⟨⟨header, coinbase :: st.vtx⟩, -st.nFees :: st.vTxFees,
    (coinbase.getLegacySigOpCount : Int) :: st.vTxSigOps.map Nat.cast⟩

/-- `ConnectBlock` with `fJustCheck`, for an index entry that is not in the index. -/
def testTemplate (input : MinerInput) (clock : MinerClock) (b : CBlock) : Check CoinsView :=
  (connectBlock ⟨clock.nCheck, true, true, true, true⟩ b (.child input.pindexPrev b.toCBlockHeader)
    none .unconnected input.coinsTip true).2

def createNewBlock (input : MinerInput) (args : BlockArgs) (clock : MinerClock)
    (hashes : List uint256) (vchPubKey : List UInt8) : Check CBlockTemplate := do
  let st ← selectTransactions input clock (args.limits clock.nStart) hashes
  let pblocktemplate ← fillTemplate input clock vchPubKey st
  match ← returned (testTemplate input clock pblocktemplate.block) with
  | some _ => pure pblocktemplate
  | none => .error (.runtimeError "CreateNewBlock() : ConnectBlock failed")

end

end Terracoin
