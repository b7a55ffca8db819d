import Terracoin.Coins.View

/-!
# Layers of `CCoinsViewCache`

A stack of caches over the coin database. Looking something up fills the caches on the way, writes
stay in the top layer until `Flush` hands them to the layer below, and the database alone forgets
pruned entries.

Next to the stack runs a stack of flat views (`flatStep`), one for each layer: a new layer starts
with a copy of the one below, and `Flush` copies the view of the top layer down.
`Terracoin.Coins.Refinement` shows that the two agree.
-/

namespace Terracoin

/-- `mapBlockIndex`: every entry is under its own hash. -/
class BlockIndexMap [Hashing] where
  mapBlockIndex : uint256 → Option CBlockIndex
  hash_eq : ∀ hash pindex, mapBlockIndex hash = some pindex → pindex.getBlockHash = hash

/-! ## The layers -/

/-- The records of the coin database: `'c'` for coins and `'B'` for the best block. -/
structure CCoinsViewDB where
  coins : uint256 → Option CCoins
  hashBestChain : Option uint256
  unpruned : ∀ txid c, coins txid = some c → c.isPruned = false

structure CCoinsViewCache where
  cacheCoins : uint256 → Option CCoins
  pindexTip : Option CBlockIndex

namespace CCoinsViewCache

/-- `CCoinsViewCache(base)`. -/
def empty : CCoinsViewCache := ⟨fun _ => none, none⟩

def insert (c : CCoinsViewCache) (txid : uint256) (coins : CCoins) : CCoinsViewCache :=
  { c with cacheCoins := Function.update c.cacheCoins txid (some coins) }

end CCoinsViewCache

/-- A cache and, through `base`, everything below it. -/
inductive CCoinsStack where
  | db (d : CCoinsViewDB)
  | cache (c : CCoinsViewCache) (base : CCoinsStack)

section

variable [Hashing]

/-- One `BatchWriteCoins` for every entry; all of them reach the database or none. -/
def CCoinsViewDB.batchWrite (d : CCoinsViewDB) (mapCoins : uint256 → Option CCoins)
    (pindex : Option CBlockIndex) : CCoinsViewDB where
  coins txid :=
    match mapCoins txid with
    | some coins => if coins.isPruned then none else some coins
    | none => d.coins txid
  hashBestChain :=
    match pindex with
    | some pindex => some pindex.getBlockHash
    | none => d.hashBestChain
  unpruned := by
    intro txid c h
    split at h
    · split at h
      · cases h
      · rename_i hp
        rw [← Option.some.inj h]
        exact Bool.eq_false_iff.mpr hp
    · exact d.unpruned txid c h

theorem CCoinsViewDB.batchWrite_coins (d : CCoinsViewDB) (mapCoins : uint256 → Option CCoins)
    (pindex : Option CBlockIndex) (txid : uint256) :
    (d.batchWrite mapCoins pindex).coins txid =
      match mapCoins txid with
      | some coins => if coins.isPruned then none else some coins
      | none => d.coins txid := rfl

theorem CCoinsViewDB.batchWrite_hashBestChain (d : CCoinsViewDB)
    (mapCoins : uint256 → Option CCoins) (pindex : Option CBlockIndex) :
    (d.batchWrite mapCoins pindex).hashBestChain =
      match pindex with
      | some pindex => some pindex.getBlockHash
      | none => d.hashBestChain := rfl

def CCoinsViewDB.getBestBlock [BlockIndexMap] (d : CCoinsViewDB) : Option CBlockIndex :=
  d.hashBestChain.bind BlockIndexMap.mapBlockIndex

end

namespace CCoinsStack

/-! ## The methods -/

/-- `GetCoins(txid, coins)`, with the value of `coins` when it returns `true`. -/
def getCoins : CCoinsStack → uint256 → CCoinsStack × Option CCoins
  | .db d, txid => (.db d, d.coins txid)
  | .cache c base, txid =>
    match c.cacheCoins txid with
    | some coins => (.cache c base, some coins)
    | none =>
      match base.getCoins txid with
      | (base, some coins) => (.cache (c.insert txid coins) base, some coins)
      | (base, none) => (.cache c base, none)

/-- `FetchCoins`, with the entry that the iterator points to. -/
def fetchCoins : CCoinsStack → uint256 → CCoinsStack × Option CCoins
  | .db d, txid => (.db d, d.coins txid)
  | .cache c base, txid =>
    match c.cacheCoins txid with
    | some it => (.cache c base, some it)
    | none =>
      match base.getCoins txid with
      | (base, none) => (.cache c base, none)
      | (base, some tmp) => (.cache (c.insert txid tmp) base, some tmp)

def haveCoins (s : CCoinsStack) (txid : uint256) : CCoinsStack × Bool :=
  ((s.fetchCoins txid).1, (s.fetchCoins txid).2.isSome)

variable [Hashing] [BlockIndexMap]

def getBestBlock : CCoinsStack → CCoinsStack × Option CBlockIndex
  | .db d => (.db d, d.getBestBlock)
  | .cache c base =>
    match c.pindexTip with
    | some pindex => (.cache c base, some pindex)
    | none => (.cache { c with pindexTip := base.getBestBlock.2 } base.getBestBlock.1,
        base.getBestBlock.2)

/-- `BatchWrite`; `fWritten` tells whether the database takes the batch. -/
def batchWrite : CCoinsStack → (uint256 → Option CCoins) → Option CBlockIndex → Bool →
    CCoinsStack × Bool
  | .db d, mapCoins, pindex, fWritten =>
    if fWritten then (.db (d.batchWrite mapCoins pindex), true) else (.db d, false)
  | .cache c base, mapCoins, pindex, _ =>
    (.cache ⟨fun txid => (mapCoins txid).or (c.cacheCoins txid), pindex⟩ base, true)

def flush (c : CCoinsViewCache) (base : CCoinsStack) (fWritten : Bool) : CCoinsStack × Bool :=
  match base.batchWrite c.cacheCoins c.pindexTip fWritten with
  | (base, true) => (.cache { c with cacheCoins := fun _ => none } base, true)
  | (base, false) => (.cache c base, false)

end CCoinsStack

/-- A call on the top layer, or its construction or destruction. `getCoinsRef` is the overload
that returns a reference, and `write` a write through such a reference, at any later time. -/
inductive CacheOp where
  | getCoins (txid : uint256)
  | getCoinsRef (txid : uint256)
  | write (txid : uint256) (coins : CCoins)
  | haveCoins (txid : uint256)
  | setCoins (txid : uint256) (coins : CCoins)
  | getBestBlock
  | setBestBlock (pindex : CBlockIndex)
  | flush (fWritten : Bool)
  | push
  | pop

/-- Only blocks of the index become the best block. -/
def CacheOp.Indexed [Hashing] [BlockIndexMap] : CacheOp → Prop
  | .setBestBlock pindex => BlockIndexMap.mapBlockIndex pindex.getBlockHash = some pindex
  | _ => True

/-- Impossible without a layer, when the assertion of `GetCoins(txid)` fails, and for a write
through a reference to an entry that is not there. -/
def CCoinsStack.step [Hashing] [BlockIndexMap] : CCoinsStack → CacheOp → Option CCoinsStack
  | .db d, .push => some (.cache .empty (.db d))
  | .db _, _ => none
  | .cache c base, .getCoins txid => some ((CCoinsStack.cache c base).getCoins txid).1
  | .cache c base, .getCoinsRef txid =>
    match (CCoinsStack.cache c base).fetchCoins txid with
    | (s, some _) => some s
    | (_, none) => none
  | .cache c base, .write txid coins =>
    if (c.cacheCoins txid).isSome then some (.cache (c.insert txid coins) base) else none
  | .cache c base, .haveCoins txid => some ((CCoinsStack.cache c base).haveCoins txid).1
  | .cache c base, .setCoins txid coins => some (.cache (c.insert txid coins) base)
  | .cache c base, .getBestBlock => some (CCoinsStack.cache c base).getBestBlock.1
  | .cache c base, .setBestBlock pindex => some (.cache { c with pindexTip := some pindex } base)
  | .cache c base, .flush fWritten => some (CCoinsStack.flush c base fWritten).1
  | .cache c base, .push => some (.cache .empty (.cache c base))
  | .cache _ base, .pop => some base

/-- A layer as its users think of it: a flat view, and whether its best block was asked for or
set. -/
structure FlatLayer where
  view : CoinsView
  asked : Bool

/-- The flat views from the top layer down to the database. `Flush` is impossible on a layer whose
best block was never asked for or set, and it fails when the database does. -/
def flatStep : List FlatLayer → CacheOp → Option (List FlatLayer)
  | top :: rest, .push => some (⟨top.view, false⟩ :: top :: rest)
  | _ :: below :: rest, .pop => some (below :: rest)
  | top :: below :: rest, .flush fWritten =>
    if !top.asked then none
    else if rest.isEmpty && !fWritten then some (top :: below :: rest)
    else some (top :: { below with view := top.view } :: rest)
  | top :: below :: rest, .write txid coins =>
    some ({ top with view := top.view.setCoins txid coins } :: below :: rest)
  | top :: below :: rest, .setCoins txid coins =>
    some ({ top with view := top.view.setCoins txid coins } :: below :: rest)
  | top :: below :: rest, .setBestBlock pindex =>
    some (⟨top.view.setBestBlock (some pindex), true⟩ :: below :: rest)
  | top :: below :: rest, .getBestBlock => some ({ top with asked := true } :: below :: rest)
  | top :: below :: rest, .getCoins _ => some (top :: below :: rest)
  | top :: below :: rest, .getCoinsRef _ => some (top :: below :: rest)
  | top :: below :: rest, .haveCoins _ => some (top :: below :: rest)
  | _, _ => none

section

variable [Hashing] [BlockIndexMap]

/-- The entries and the best block that the methods of the top layer find. -/
def CCoinsStack.view : CCoinsStack → CoinsView
  | .db d => ⟨d.coins, d.getBestBlock⟩
  | .cache c base => ⟨fun txid => (c.cacheCoins txid).or (base.view.coins txid),
      c.pindexTip.or base.view.pindexTip⟩

/-- What is shown `n` layers down. -/
def CCoinsStack.under : Nat → CCoinsStack → Option CoinsView
  | 0, s => some s.view
  | _ + 1, .db _ => none
  | n + 1, .cache _ base => base.under n

/-- What the methods of a layer return is what the flat view has, except that a pruned entry may
be gone. -/
structure CCoinsStack.Agrees (s : CCoinsStack) (view : CoinsView) : Prop where
  getCoins : ∀ txid, (s.getCoins txid).2 = view.coins txid ∨
    (s.getCoins txid).2 = none ∧ ∃ coins, view.coins txid = some coins ∧ coins.isPruned = true
  fetchCoins : ∀ txid, (s.fetchCoins txid).2 = (s.getCoins txid).2
  haveCoins : ∀ txid, (s.haveCoins txid).2 = (s.getCoins txid).2.isSome
  available : ∀ txid n, ((s.getCoins txid).2.getD CCoins.empty).isAvailable n =
    (view.coinsAt txid).isAvailable n
  getBestBlock : s.getBestBlock.2 = view.getBestBlock

end

/-! ## Reading -/

namespace CCoinsStack

variable {s : CCoinsStack} {txid : uint256}

/-- A cached entry is returned; what comes from below is cached first. -/
theorem getCoins_cache (c : CCoinsViewCache) (base : CCoinsStack) (txid : uint256) :
    (cache c base).getCoins txid =
      match c.cacheCoins txid, (base.getCoins txid).2 with
      | some coins, _ => (cache c base, some coins)
      | none, some coins => (cache (c.insert txid coins) (base.getCoins txid).1, some coins)
      | none, none => (cache c (base.getCoins txid).1, none) := by
  rw [getCoins]
  cases c.cacheCoins txid with
  | some coins => rfl
  | none =>
    obtain ⟨base', _ | coins⟩ := base.getCoins txid
    · rfl
    · rfl

theorem fetchCoins_eq (s : CCoinsStack) (txid : uint256) : s.fetchCoins txid = s.getCoins txid := by
  cases s with
  | db d => rfl
  | cache c base =>
    rw [fetchCoins, getCoins_cache]
    cases c.cacheCoins txid with
    | some coins => rfl
    | none =>
      obtain ⟨base', _ | coins⟩ := base.getCoins txid
      · rfl
      · rfl

variable [Hashing] [BlockIndexMap]

theorem view_insert (c : CCoinsViewCache) (base : CCoinsStack) (txid : uint256) (coins : CCoins) :
    (cache (c.insert txid coins) base).view = (cache c base).view.setCoins txid coins := by
  unfold view CoinsView.setCoins CCoinsViewCache.insert
  congr 1
  funext txid'
  dsimp only
  by_cases ht : txid' = txid
  · rw [ht, Function.update_self, Function.update_self, Option.some_or]
  · rw [Function.update_of_ne ht, Function.update_of_ne ht]

theorem view_cache_coins (c : CCoinsViewCache) (base : CCoinsStack) (txid : uint256) :
    (cache c base).view.coins txid = (c.cacheCoins txid).or (base.view.coins txid) := rfl

theorem view_cache_pindexTip (c : CCoinsViewCache) (base : CCoinsStack) :
    (cache c base).view.pindexTip = c.pindexTip.or base.view.pindexTip := rfl

theorem view_cache_congr (c : CCoinsViewCache) {base base' : CCoinsStack}
    (h : base'.view = base.view) : (cache c base').view = (cache c base).view := by
  rw [view, view, h]

/-- A lookup returns what is shown and changes nothing of it, at any depth. -/
theorem getCoins_spec (s : CCoinsStack) (txid : uint256) :
    (s.getCoins txid).2 = s.view.coins txid ∧ ∀ n, (s.getCoins txid).1.under n = s.under n := by
  induction s with
  | db d => exact ⟨rfl, fun _ => rfl⟩
  | cache c base ih =>
    obtain ⟨hvalue, hunder⟩ := ih
    have hview : (base.getCoins txid).1.view = base.view := Option.some.inj (hunder 0)
    rw [getCoins_cache, view_cache_coins, hvalue]
    cases hc : c.cacheCoins txid with
    | some coins => exact ⟨rfl, fun _ => rfl⟩
    | none =>
      cases hb : base.view.coins txid with
      | none =>
        refine ⟨rfl, ?_⟩
        rintro (_ | n)
        · exact congrArg some (view_cache_congr c hview)
        · exact hunder n
      | some coins =>
        refine ⟨rfl, ?_⟩
        rintro (_ | n)
        · have hsame : (cache c base).view.setCoins txid coins = (cache c base).view := by
            have hshown : (cache c base).view.coins txid = some coins := by
              rw [view_cache_coins, hc, hb, Option.none_or]
            rw [CoinsView.setCoins, ← hshown, Function.update_eq_self]
          refine congrArg some ?_
          rw [view_insert, view_cache_congr c hview, hsame]
        · exact hunder n

theorem getBestBlock_spec (s : CCoinsStack) :
    s.getBestBlock.2 = s.view.pindexTip ∧ ∀ n, s.getBestBlock.1.under n = s.under n := by
  induction s with
  | db d => exact ⟨rfl, fun _ => rfl⟩
  | cache c base ih =>
    obtain ⟨hvalue, hunder⟩ := ih
    have hview : base.getBestBlock.1.view = base.view := Option.some.inj (hunder 0)
    rw [getBestBlock, view_cache_pindexTip, hvalue]
    cases hc : c.pindexTip with
    | some pindex => exact ⟨rfl, fun _ => rfl⟩
    | none =>
      refine ⟨rfl, ?_⟩
      rintro (_ | n)
      · refine congrArg some ?_
        rw [view, view, hview, hc, Option.or_self, Option.none_or]
      · exact hunder n

end CCoinsStack

end Terracoin
