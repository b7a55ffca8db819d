import Terracoin.Net.BloomFilter
import Terracoin.Primitives.Block

/-!
# Filters in use

Sequences of calls on a filter, with what was inserted on the way, and the messages of a peer that
lead to them: `filterload`, `filteradd`, and the requests and relays that match transactions.

Whatever was inserted stays contained (`bloomFilter_spec`), including the outpoints that
`IsRelevantAndUpdate` inserts itself, so the spender of a matched output is found. A filter that
`filterload` lets through is safe with every later message exactly if it has a byte or no hash
function (`filterload_safe_iff`): an empty vector passes `IsWithinSizeConstraints`.
-/

namespace Terracoin

namespace CBloomFilter

/-! ## Sequences of calls -/

inductive FilterOp where
  | insert (vKey : List UInt8)
  | insertOutPoint (outpoint : COutPoint)
  | insertHash (hash : uint256)
  | isRelevantAndUpdate (tx : CTransaction) (hash : uint256)
deriving DecidableEq, Repr

/-- A filter with all that was inserted so far. -/
structure Use where
  filter : CBloomFilter
  inserted : List (List UInt8)
deriving DecidableEq, Repr

namespace Use

variable [ScriptSolver]

def insertKey (s : Use) (vKey : List UInt8) : Option Use :=
  (s.filter.insert vKey).map fun filter => ⟨filter, s.inserted ++ [vKey]⟩

def step (s : Use) : FilterOp → Option Use
  | .insert vKey => s.insertKey vKey
  | .insertOutPoint outpoint => s.insertKey outpoint.serialize
  | .insertHash hash => s.insertKey (hashBytes hash)
  | .isRelevantAndUpdate tx hash =>
    (s.filter.isRelevantAndUpdate tx hash).map fun (_, filter, inserted) =>
      ⟨filter, s.inserted ++ inserted.map COutPoint.serialize⟩

/-- What was inserted is contained. -/
structure Inv (f : CBloomFilter) (s : Use) : Prop where
  grows : Grows f s.filter
  covers : ∀ key ∈ s.inserted, s.filter.Covers key

variable {f : CBloomFilter} {s : Use}

omit [ScriptSolver] in
theorem Inv.add (hs : Inv f s) {filter : CBloomFilter} {keys : List (List UInt8)}
    (hgrows : Grows s.filter filter) (hkeys : ∀ key ∈ keys, filter.Covers key) :
    Inv f ⟨filter, s.inserted ++ keys⟩ := by
  refine ⟨hs.grows.trans hgrows, fun key hkey => ?_⟩
  rcases List.mem_append.mp hkey with h | h
  · exact hgrows.covers (hs.covers key h)
  · exact hkeys key h

omit [ScriptSolver] in
theorem Inv.insertKey (hf : f.Safe) (hs : Inv f s) (vKey : List UInt8) :
    ∃ s', s.insertKey vKey = some s' ∧ Inv f s' ∧ Grows s.filter s'.filter := by
  obtain ⟨f', hf', hgrows, hc⟩ := insert_spec (hs.grows.safe hf) vKey
  refine ⟨_, by rw [Use.insertKey, hf']; rfl, hs.add hgrows ?_, hgrows⟩
  intro key hkey
  rw [List.mem_singleton.mp hkey]
  exact hc

theorem Inv.step (hf : f.Safe) (hs : Inv f s) (op : FilterOp) :
    ∃ s', s.step op = some s' ∧ Inv f s' ∧ Grows s.filter s'.filter := by
  cases op with
  | insert vKey => exact hs.insertKey hf vKey
  | insertOutPoint outpoint => exact hs.insertKey hf _
  | insertHash hash => exact hs.insertKey hf _
  | isRelevantAndUpdate tx hash =>
    obtain ⟨r, f', inserted, heq, hgrows, hc, -⟩ :=
      isRelevantAndUpdate_spec (hs.grows.safe hf) tx hash
    refine ⟨_, by rw [Use.step, heq]; rfl, hs.add hgrows ?_, hgrows⟩
    intro key hkey
    obtain ⟨o, ho, rfl⟩ := List.mem_map.mp hkey
    exact hc o ho

theorem Inv.run (hf : f.Safe) (hs : Inv f s) (ops : List FilterOp) :
    ∃ s', Run.run Use.step s ops = some s' ∧ Inv f s' ∧ Grows s.filter s'.filter := by
  induction ops generalizing s with
  | nil => exact ⟨s, rfl, hs, .refl _⟩
  | cons op ops ih =>
    obtain ⟨s1, h1, hs1, hg1⟩ := hs.step hf op
    obtain ⟨s', hrun, hs', hg'⟩ := ih hs1
    exact ⟨s', Run.run_cons.mpr ⟨s1, h1, hrun⟩, hs', hg1.trans hg'⟩

omit [ScriptSolver] in
theorem inv_init (f : CBloomFilter) : Inv f ⟨f, []⟩ :=
  ⟨.refl f, fun _ hkey => absurd hkey List.not_mem_nil⟩

end Use

/-! ## No false negatives -/

/-- The script has an operation with this operand before its first malformed one. -/
def HasOperand (script : CScript) (datum : List UInt8) : Prop := ∃ op ∈ script.ops.1, op.2 = datum

/-- After any calls on a filter that is not empty, all that was inserted is contained. With
`BLOOM_UPDATE_ALL`, the spender of an output whose script has an inserted operand is relevant. -/
theorem bloomFilter_spec [ScriptSolver] (f : CBloomFilter) (hne : f.vData ≠ [])
    (ops : List FilterOp) :
    ∃ s, Run.run Use.step ⟨f, []⟩ ops = some s ∧
      (∀ key ∈ s.inserted, s.filter.contains key = some true) ∧
      (f.UpdatesAll → ∀ datum ∈ s.inserted, datum ≠ [] →
        ∀ (tx : CTransaction) (txid : uint256) (i : Nat) (txout : CTxOut),
          tx.vout[i]? = some txout → HasOperand txout.scriptPubKey datum →
        ∀ (later : List FilterOp) (tx' : CTransaction) (txid' : uint256),
          (∃ txin ∈ tx'.vin, txin.prevout = ⟨txid, UInt32.ofNat i⟩) →
          ∃ s' f' inserted, Run.run Use.step s (.isRelevantAndUpdate tx txid :: later) = some s' ∧
            s'.filter.isRelevantAndUpdate tx' txid' = some (true, f', inserted)) := by
  have hf : f.Safe := .inl hne
  obtain ⟨s, hrun, hs, -⟩ := (Use.inv_init f).run hf ops
  refine ⟨s, hrun, fun key hkey => ?_, ?_⟩
  · obtain ⟨b, hb, hiff⟩ := contains_spec (hs.grows.safe hf) key
    rw [hb, hiff.mpr (hs.covers key hkey)]
  · intro hall datum hdatum hne tx txid i txout hi hop later tx' txid' hspends
    obtain ⟨r, f1, inserted, heq, -, -, houts, -⟩ :=
      isRelevantAndUpdate_spec (hs.grows.safe hf) tx txid
    obtain ⟨s1, h1, hs1, -⟩ := hs.step hf (.isRelevantAndUpdate tx txid)
    obtain ⟨s', hlater, hs', hgrows⟩ := hs1.run hf later
    -- the outpoint of the output is among what was inserted
    have ho : (⟨txid, UInt32.ofNat i⟩ : COutPoint) ∈ inserted := by
      refine houts i txout hi (hs.grows.updatesAll hall) ?_
      obtain ⟨op, hmem, hop⟩ := hop
      exact ⟨op, hmem, by rwa [hop], by rw [hop]; exact hs.covers datum hdatum⟩
    have hs1eq : s1 = ⟨f1, s.inserted ++ inserted.map COutPoint.serialize⟩ := by
      rw [Use.step, heq] at h1
      exact (Option.some.inj h1).symm
    have hcovers : s'.filter.Covers (COutPoint.serialize ⟨txid, UInt32.ofNat i⟩) := by
      refine hgrows.covers (hs1.covers _ ?_)
      rw [hs1eq]
      exact List.mem_append_right _ (List.mem_map_of_mem ho)
    obtain ⟨r', f', inserted', heq', -, -, -, hspent⟩ :=
      isRelevantAndUpdate_spec (hs'.grows.safe hf) tx' txid'
    obtain ⟨txin, htxin, hprev⟩ := hspends
    refine ⟨s', f', inserted', Run.run_cons.mpr ⟨s1, h1, hlater⟩, ?_⟩
    rw [heq', hspent ⟨txin, htxin, by rw [hprev]; exact hcovers⟩]

/-- What the operation pushes on the stack: an operand, or the number of a small-number
operation. -/
def pushedValue (op : UInt8 × List UInt8) : Option (List UInt8) :=
  if op.1 ≤ CScript.OP_PUSHDATA4 then some op.2
  else if op.1 = 0x4f then some [0x81]
  else if CScript.OP_1 ≤ op.1 ∧ op.1 ≤ CScript.OP_16 then some [op.1 - 0x50]
  else none

def Pushes (script : CScript) (datum : List UInt8) : Prop :=
  ∃ op ∈ script.ops.1, pushedValue op = some datum

namespace FilterSample

scoped instance solver : ScriptSolver := ⟨fun _ => false⟩

def filter : CBloomFilter := ⟨List.replicate 8 0, 3, 0, BLOOM_UPDATE_ALL⟩

def payTo (scriptPubKey : CScript) : CTransaction :=
  ⟨1, [⟨⟨7, 0⟩, [], 0xFFFFFFFF⟩], [⟨coin, scriptPubKey⟩], 0⟩

/-- Spends the output of `payTo`, under the hash 1. -/
def spender : CTransaction := ⟨1, [⟨⟨1, 0⟩, [], 0xFFFFFFFF⟩], [], 0⟩

/-- What a filter with `datum` makes of the spender of an output with the script. -/
def spenderFound (datum : List UInt8) (scriptPubKey : CScript) : Option Bool :=
  (Run.run Use.step ⟨filter, []⟩ [.insert datum, .isRelevantAndUpdate (payTo scriptPubKey) 1]).bind
    fun s => (s.filter.isRelevantAndUpdate spender 2).map Prod.fst

theorem bloomFilter_spec_sample : ∃ s, Run.run Use.step ⟨filter, []⟩ [.insert [5, 6, 7]] = some s ∧
    (∀ key ∈ s.inserted, s.filter.contains key = some true) ∧
    ∃ s' f' inserted,
      Run.run Use.step s [.isRelevantAndUpdate (payTo [3, 5, 6, 7]) 1, .insert [8]] = some s' ∧
      s'.filter.isRelevantAndUpdate spender 2 = some (true, f', inserted) := by
  obtain ⟨s, hrun, hcontains, hspender⟩ :=
    bloomFilter_spec filter (by decide) [.insert [5, 6, 7]]
  have hinserted : (Run.run Use.step ⟨filter, []⟩ [.insert [5, 6, 7]]).map Use.inserted =
      some [[5, 6, 7]] := by decide +kernel
  rw [hrun] at hinserted
  have hmem : [5, 6, 7] ∈ s.inserted := by
    rw [Option.some.inj hinserted]
    exact List.mem_singleton_self _
  have hall : filter.nFlags &&& BLOOM_UPDATE_MASK = BLOOM_UPDATE_ALL := by decide
  refine ⟨s, hrun, hcontains, ?_⟩
  exact hspender hall [5, 6, 7] hmem (by decide) (payTo [3, 5, 6, 7]) 1 0 ⟨coin, [3, 5, 6, 7]⟩ rfl
    ⟨(3, [5, 6, 7]), by decide, rfl⟩ [.insert [8]] spender 2
    ⟨⟨⟨1, 0⟩, [], 0xFFFFFFFF⟩, List.mem_singleton_self _, rfl⟩

/-- Operations that push without an operand, and those with an empty one, are not looked at. -/
theorem not_bloomFilter_spec :
    (Pushes [CScript.OP_1] [1] ∧ spenderFound [1] [CScript.OP_1] = some false) ∧
      Pushes [0] [] ∧ spenderFound [] [0] = some false :=
  ⟨⟨⟨(CScript.OP_1, []), by decide, by decide⟩, by decide +kernel⟩,
    ⟨(0, []), by decide, by decide⟩, by decide +kernel⟩

end FilterSample

/-! ## The messages of a peer -/

/-- `MAX_SCRIPT_ELEMENT_SIZE`. -/
def maxScriptElementSize : Nat := 520

/-- What is done with an installed filter. -/
inductive FilterMessage where
  | filteradd (vData : List UInt8)
  /-- `RelayTransaction`. -/
  | relay (tx : CTransaction)
  /-- A `getdata` request for a filtered block. -/
  | merkleblock (block : CBlock)
  /-- A `mempool` request, with the transactions of the pool up to `MAX_INV_SZ` matches. -/
  | mempool (vtx : List CTransaction)

section

variable [Hashing] [ScriptSolver]

/-- `vMatch` of `CMerkleBlock(block, filter)`, and the filter afterwards. -/
def matchTransactions : CBloomFilter → List CTransaction → Option (List Bool × CBloomFilter)
  | f, [] => some ([], f)
  | f, tx :: vtx =>
    (f.isRelevantAndUpdate tx tx.getHash).bind fun (fMatch, f, _) =>
      (matchTransactions f vtx).map fun (vMatch, f) => (fMatch :: vMatch, f)

/-- The `filterload` message: a filter that is too large is not installed. -/
def filterload (pfilter : Option CBloomFilter) (filter : CBloomFilter) : Option CBloomFilter :=
  if filter.isWithinSizeConstraints then some filter else pfilter

/-- The installed filter after a message, if no call had undefined behaviour. -/
def handle (f : CBloomFilter) : FilterMessage → Option CBloomFilter
  | .filteradd vData => if vData.length > maxScriptElementSize then some f else f.insert vData
  | .relay tx => (f.isRelevantAndUpdate tx tx.getHash).map fun (_, f, _) => f
  | .merkleblock block => (f.matchTransactions block.vtx).map Prod.snd
  | .mempool vtx => (f.matchTransactions vtx).map Prod.snd

variable {f : CBloomFilter}

theorem matchTransactions_safe (hs : f.Safe) (vtx : List CTransaction) :
    ∃ vMatch f', f.matchTransactions vtx = some (vMatch, f') ∧ Grows f f' := by
  induction vtx generalizing f with
  | nil => exact ⟨[], f, rfl, .refl f⟩
  | cons tx vtx ih =>
    obtain ⟨r, f1, inserted, h1, hgrows, -⟩ := isRelevantAndUpdate_spec hs tx tx.getHash
    obtain ⟨vMatch, f', hrest, hgrows'⟩ := ih (hgrows.safe hs)
    refine ⟨r :: vMatch, f', ?_, hgrows.trans hgrows'⟩
    rw [matchTransactions, h1, Option.bind_some]
    show (f1.matchTransactions vtx).map _ = _
    rw [hrest]
    rfl

theorem handle_safe (hs : f.Safe) (msg : FilterMessage) :
    ∃ f', f.handle msg = some f' ∧ Grows f f' := by
  cases msg with
  | filteradd vData =>
    by_cases hlen : vData.length > maxScriptElementSize
    · exact ⟨f, if_pos hlen, .refl f⟩
    · obtain ⟨f', hf', hgrows, -⟩ := insert_spec hs vData
      exact ⟨f', (if_neg hlen).trans hf', hgrows⟩
  | relay tx =>
    obtain ⟨r, f', inserted, h, hgrows, -⟩ := isRelevantAndUpdate_spec hs tx tx.getHash
    exact ⟨f', by rw [handle, h]; rfl, hgrows⟩
  | merkleblock block =>
    obtain ⟨vMatch, f', h, hgrows⟩ := matchTransactions_safe hs block.vtx
    exact ⟨f', by rw [handle, h]; rfl, hgrows⟩
  | mempool vtx =>
    obtain ⟨vMatch, f', h, hgrows⟩ := matchTransactions_safe hs vtx
    exact ⟨f', by rw [handle, h]; rfl, hgrows⟩

theorem run_handle_safe (hs : f.Safe) (msgs : List FilterMessage) :
    ∃ f', Run.run handle f msgs = some f' ∧ Grows f f' := by
  induction msgs generalizing f with
  | nil => exact ⟨f, rfl, .refl f⟩
  | cons msg msgs ih =>
    obtain ⟨f1, h1, hgrows⟩ := handle_safe hs msg
    obtain ⟨f', hrun, hgrows'⟩ := ih (hgrows.safe hs)
    exact ⟨f', Run.run_cons.mpr ⟨f1, h1, hrun⟩, hgrows.trans hgrows'⟩

/-- A filter that a peer installs is safe with all later messages exactly if it has a byte or no
hash functions. -/
theorem filterload_safe_iff (pfilter : Option CBloomFilter) (f : CBloomFilter)
    (hsize : f.isWithinSizeConstraints = true) :
    filterload pfilter f = some f ∧
      ((∀ msgs : List FilterMessage, (Run.run handle f msgs).isSome = true) ↔
        f.vData ≠ [] ∨ f.nHashFuncs = 0) := by
  refine ⟨if_pos hsize, fun h => ?_, fun hs msgs => ?_⟩
  · by_contra hs
    -- matching any transaction begins with a division by zero
    have hrun := h [.relay ⟨1, [], [], 0⟩]
    rw [Run.run, handle, isRelevantAndUpdate_not_safe hs] at hrun
    cases hrun
  · obtain ⟨f', hrun, -⟩ := run_handle_safe hs msgs
    rw [hrun]
    rfl

end

namespace FilterSample

scoped instance hashing : Hashing := Sample.hashing

def emptyFilter : CBloomFilter := ⟨[], 1, 0, 0⟩

theorem filterload_safe_iff_sample : filterload none filter = some filter ∧
    ((∀ msgs : List FilterMessage, (Run.run handle filter msgs).isSome = true) ↔
      filter.vData ≠ [] ∨ filter.nHashFuncs = 0) :=
  filterload_safe_iff none filter (by decide)

/-- A filter without data is installed, and the next transaction divides by zero. -/
theorem not_filterload_safe : filterload none emptyFilter = some emptyFilter ∧
    Run.run handle emptyFilter [.relay spender] = none := by
  decide +kernel

end FilterSample

end CBloomFilter

end Terracoin
