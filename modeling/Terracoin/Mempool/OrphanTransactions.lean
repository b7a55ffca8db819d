import Terracoin.Chain.NodeState
import Terracoin.Lib.Index
import Terracoin.Lib.Run

/-!
# Orphan transactions

`mapOrphanTransactions`, its index `mapOrphanTransactionsByPrev`, and the `tx` message: a
transaction that is accepted lets the orphans that spend it be tried again, one whose inputs are
missing becomes an orphan itself.

The index always agrees with the map (`Indexed`), and the map stays within its limit. The loop that
resolves orphans looks accepted transactions up with `operator[]`, though, so it leaves an empty
entry behind for every one that no orphan spends (`orphans_spec`).
-/

namespace Terracoin

open Checked
open Std (TreeMap)

/-- A `tx` message: the transaction, and the number of bytes of the stream it is read from. -/
structure TxMessage where
  tx : CTransaction
  nSize : Nat
deriving DecidableEq, Repr

/-- The transactions that the inputs refer to. -/
def CTransaction.prevHashes (tx : CTransaction) : List uint256 := tx.vin.map fun txin => txin.prevout.hash

def maxOrphanTransactions : Nat := maxBlockSize / 100

structure OrphanTransactions where
  mapOrphanTransactions : TreeMap uint256 TxMessage
  mapOrphanTransactionsByPrev : Index uint256 uint256 TxMessage

namespace OrphanTransactions

def empty : OrphanTransactions := ⟨∅, ∅⟩

section

variable [Hashing]

def addOrphanTx (s : OrphanTransactions) (vMsg : TxMessage) : OrphanTransactions × Bool :=
  let hash := vMsg.tx.getHash
  if s.mapOrphanTransactions.contains hash then (s, false)
  -- ignore big transactions
  else if 5000 < vMsg.nSize then (s, false)
  else
    (⟨s.mapOrphanTransactions.insert hash vMsg,
      vMsg.tx.prevHashes.foldl (Index.add hash vMsg) s.mapOrphanTransactionsByPrev⟩, true)

end

def eraseOrphanTx (s : OrphanTransactions) (hash : uint256) : OrphanTransactions :=
  match s.mapOrphanTransactions[hash]? with
  | none => s
  | some vMsg =>
    ⟨s.mapOrphanTransactions.erase hash,
      vMsg.tx.prevHashes.foldl (Index.remove hash) s.mapOrphanTransactionsByPrev⟩

/-- The orphan at `lower_bound(randomhash)`, or the first one when there is none. -/
def randomOrphan (s : OrphanTransactions) (randomhash : uint256) : Option (uint256 × TxMessage) :=
  (s.mapOrphanTransactions.toList.find? fun it => decide (randomhash ≤ it.1)).or
    s.mapOrphanTransactions.toList.head?

def limitOrphanTxSize (nMaxOrphans : Nat) (randomhash : Nat → uint256) :
    Nat → Nat → OrphanTransactions → Except Halt (OrphanTransactions × Nat)
  | 0, _, _ => .error .outOfFuel
  | fuel + 1, nEvicted, s =>
    if nMaxOrphans < s.mapOrphanTransactions.size then
      match s.randomOrphan (randomhash nEvicted) with
      | none => .error .crash
      | some it =>
        limitOrphanTxSize nMaxOrphans randomhash fuel (nEvicted + 1) (s.eraseOrphanTx it.1)
    else .ok (s, nEvicted)

/-! ## The `tx` message -/

/-- What the calls of `AcceptToMemoryPool` during a message meet: the coins, and the clock and the
rate limiter at each of them. -/
structure Env where
  coinsTip : CoinsView
  nBestHeight : Int
  nAdjustedTime : Nat → Int
  fRateLimited : Nat → Bool

/-- A `tx` message with the pool it meets and the random numbers drawn for it. -/
structure Message where
  vMsg : TxMessage
  pool : CTxMemPool
  env : Env
  randomhash : Nat → uint256
  fuel : Nat

/-- The answer of `AcceptToMemoryPool`: accepted, or refused and whether for missing inputs. -/
inductive Answer where
  | accepted
  | missingInputs
  | refused
deriving DecidableEq, Repr

/-- The state of the loop that resolves orphans; `nCalls` counts the calls of `AcceptToMemoryPool`. -/
structure Resolution where
  pool : CTxMemPool
  nCalls : Nat
  mapOrphanTransactionsByPrev : Index uint256 uint256 TxMessage
  vWorkQueue : List uint256
  vEraseQueue : List uint256

section

variable [Hashing] [ScriptEngine] [NodeConfig]

/-- `tx.AcceptToMemoryPool(state, true, true, &fMissingInputs)`, the call number `n`. -/
def acceptToMemoryPool (env : Env) (n : Nat) (pool : CTxMemPool) (tx : CTransaction) :
    Except Halt (CTxMemPool × Answer) :=
  let acceptEnv := ⟨env.nBestHeight, env.nAdjustedTime n, env.fRateLimited n⟩
  match pool.accept acceptEnv env.coinsTip tx true true with
  | .ok pool' => .ok (pool', .accepted)
  | .error e =>
    if e.isCrash then .error .crash
    else if pool.missingInputs acceptEnv env.coinsTip tx then .ok (pool, .missingInputs)
    else .ok (pool, .refused)

/-- The body of the inner loop: try an orphan again. -/
def tryOrphan (env : Env) (r : Resolution) (vMsg : TxMessage) : Except Halt Resolution :=
  (acceptToMemoryPool env r.nCalls r.pool vMsg.tx).map fun answer =>
    let r := { r with pool := answer.1, nCalls := r.nCalls + 1 }
    let hash := vMsg.tx.getHash
    match answer.2 with
    | .accepted =>
      { r with vWorkQueue := r.vWorkQueue ++ [hash], vEraseQueue := r.vEraseQueue ++ [hash] }
    | .missingInputs => r
    | .refused => { r with vEraseQueue := r.vEraseQueue ++ [hash] }

/-- The loop over `vWorkQueue` from index `i` on. -/
def resolve (env : Env) : Nat → Nat → Resolution → Except Halt Resolution
  | 0, _, _ => .error .outOfFuel
  | fuel + 1, i, r =>
    match r.vWorkQueue[i]? with
    | none => .ok r
    | some hashPrev => do
      -- `operator[]` makes an entry for `hashPrev`
      let r := { r with mapOrphanTransactionsByPrev := r.mapOrphanTransactionsByPrev.touch hashPrev }
      let r ← (r.mapOrphanTransactionsByPrev.getD hashPrev ∅).values.foldlM (tryOrphan env) r
      resolve env fuel (i + 1) r

/-- The loop when the transaction of the message has been accepted. -/
def resolution (m : Message) (s : OrphanTransactions) (pool : CTxMemPool) : Except Halt Resolution :=
  let hash := m.vMsg.tx.getHash
  resolve m.env m.fuel 0 ⟨pool, 1, s.mapOrphanTransactionsByPrev, [hash], [hash]⟩

def processTx (m : Message) (s : OrphanTransactions) : Except Halt OrphanTransactions := do
  let (pool, answer) ← acceptToMemoryPool m.env 0 m.pool m.vMsg.tx
  match answer with
  | .accepted =>
    let r ← resolution m s pool
    pure (r.vEraseQueue.foldl eraseOrphanTx
      { s with mapOrphanTransactionsByPrev := r.mapOrphanTransactionsByPrev })
  | .missingInputs =>
    let (s, _) ← limitOrphanTxSize maxOrphanTransactions m.randomhash m.fuel 0
      (s.addOrphanTx m.vMsg).1
    pure s
  | .refused => pure s

def step (s : OrphanTransactions) (m : Message) : Option OrphanTransactions :=
  (processTx m s).toOption

end

/-! ## The size of the map -/

variable {s s' : OrphanTransactions}

theorem getElem?_eraseOrphanTx (s : OrphanTransactions) (hash hash' : uint256) :
    (s.eraseOrphanTx hash).mapOrphanTransactions[hash']? =
      if hash = hash' then none else s.mapOrphanTransactions[hash']? := by
  unfold eraseOrphanTx
  split
  · rename_i hnone
    split
    · rename_i heq
      rw [← heq, hnone]
    · rfl
  · rw [TreeMap.getElem?_erase]
    simp only [Std.compare_eq_iff_eq]

theorem size_eraseOrphanTx {hash : uint256} (h : hash ∈ s.mapOrphanTransactions) :
    (s.eraseOrphanTx hash).mapOrphanTransactions.size = s.mapOrphanTransactions.size - 1 := by
  unfold eraseOrphanTx
  split
  · rename_i hnone
    rw [TreeMap.mem_iff_isSome_getElem?, hnone] at h
    cases h
  · rw [TreeMap.size_erase, if_pos (TreeMap.mem_iff_contains.mp h)]

theorem size_eraseOrphanTx_le (hash : uint256) :
    (s.eraseOrphanTx hash).mapOrphanTransactions.size ≤ s.mapOrphanTransactions.size := by
  unfold eraseOrphanTx
  split
  · exact le_refl _
  · exact TreeMap.size_erase_le

theorem randomOrphan_mem {randomhash : uint256} {it : uint256 × TxMessage}
    (h : s.randomOrphan randomhash = some it) : it.1 ∈ s.mapOrphanTransactions := by
  have hmem : it ∈ s.mapOrphanTransactions.toList := by
    rw [randomOrphan, Option.or_eq_some_iff] at h
    rcases h with h | ⟨-, h⟩
    · exact List.mem_of_find?_eq_some h
    · exact List.mem_of_mem_head? h
  rw [TreeMap.mem_iff_isSome_getElem?, TreeMap.mem_toList_iff_getElem?_eq_some.mp hmem]
  rfl

theorem exists_randomOrphan (h : 0 < s.mapOrphanTransactions.size) (randomhash : uint256) :
    ∃ it, s.randomOrphan randomhash = some it := by
  rw [← TreeMap.length_toList] at h
  obtain ⟨it, rest, hlist⟩ := List.exists_cons_of_length_pos h
  rw [randomOrphan, hlist]
  cases (it :: rest).find? fun it => decide (randomhash ≤ it.1) with
  | none => exact ⟨it, rfl⟩
  | some it' => exact ⟨it', rfl⟩

/-- `LimitOrphanTxSize` returns for every sequence of random numbers, within one round for each
orphan in excess and one to find that none is. -/
theorem limitOrphanTxSize_returns (nMaxOrphans : Nat) (randomhash : Nat → uint256) {fuel nEvicted : Nat}
    (hfuel : s.mapOrphanTransactions.size < nMaxOrphans + fuel) (hpos : 0 < fuel) :
    ∃ s' n, limitOrphanTxSize nMaxOrphans randomhash fuel nEvicted s = .ok (s', n) := by
  induction fuel generalizing nEvicted s with
  | zero => exact absurd hpos (lt_irrefl 0)
  | succ fuel ih =>
    rw [limitOrphanTxSize]
    split
    · rename_i hlt
      obtain ⟨it, hit⟩ := exists_randomOrphan (Nat.zero_lt_of_lt hlt) (randomhash nEvicted)
      rw [hit]
      apply ih
      · rw [size_eraseOrphanTx (randomOrphan_mem hit)]
        omega
      · omega
    · exact ⟨s, nEvicted, rfl⟩

theorem limitOrphanTxSize_size_le {nMaxOrphans fuel nEvicted n : Nat} {randomhash : Nat → uint256}
    (h : limitOrphanTxSize nMaxOrphans randomhash fuel nEvicted s = .ok (s', n)) :
    s'.mapOrphanTransactions.size ≤ nMaxOrphans := by
  induction fuel generalizing nEvicted s with
  | zero => cases h
  | succ fuel ih =>
    rw [limitOrphanTxSize] at h
    split at h
    · split at h
      · cases h
      · exact ih h
    · obtain ⟨rfl, -⟩ := Prod.mk.inj (Except.ok.inj h)
      omega

theorem limitOrphanTxSize_invariant {P : OrphanTransactions → Prop}
    (hP : ∀ s hash, P s → P (eraseOrphanTx s hash)) {nMaxOrphans fuel nEvicted n : Nat}
    {randomhash : Nat → uint256} (hs : P s)
    (h : limitOrphanTxSize nMaxOrphans randomhash fuel nEvicted s = .ok (s', n)) : P s' := by
  induction fuel generalizing nEvicted s with
  | zero => cases h
  | succ fuel ih =>
    rw [limitOrphanTxSize] at h
    split at h
    · split at h
      · cases h
      · exact ih (hP s _ hs) h
    · obtain ⟨rfl, -⟩ := Prod.mk.inj (Except.ok.inj h)
      exact hs

theorem foldl_eraseOrphanTx {P : OrphanTransactions → Prop}
    (hP : ∀ s hash, P s → P (eraseOrphanTx s hash)) (hs : P s) (queue : List uint256) :
    P (queue.foldl eraseOrphanTx s) := by
  induction queue generalizing s with
  | nil => exact hs
  | cons hash queue ih => exact ih (hP s hash hs)

theorem noEmpty_eraseOrphanTx (h : s.mapOrphanTransactionsByPrev.NoEmpty) (hash : uint256) :
    (s.eraseOrphanTx hash).mapOrphanTransactionsByPrev.NoEmpty := by
  unfold eraseOrphanTx
  split
  · exact h
  · exact Index.noEmpty_foldl_remove h hash _

/-- An entry for a transaction that no orphan spends outlives the erasing of orphans. -/
theorem mem_foldl_eraseOrphanTx {hash : uint256} (hmem : hash ∈ s.mapOrphanTransactionsByPrev)
    (hspent : ∀ (orphan : uint256) (vMsg : TxMessage), s.mapOrphanTransactions[orphan]? = some vMsg →
      hash ∉ vMsg.tx.prevHashes) (queue : List uint256) :
    hash ∈ (queue.foldl eraseOrphanTx s).mapOrphanTransactionsByPrev ∧
      ∀ (orphan : uint256) (vMsg : TxMessage),
        (queue.foldl eraseOrphanTx s).mapOrphanTransactions[orphan]? = some vMsg →
          hash ∉ vMsg.tx.prevHashes := by
  refine foldl_eraseOrphanTx (P := fun t => hash ∈ t.mapOrphanTransactionsByPrev ∧
    ∀ (orphan : uint256) (vMsg : TxMessage), t.mapOrphanTransactions[orphan]? = some vMsg →
      hash ∉ vMsg.tx.prevHashes) ?_ ⟨hmem, hspent⟩ queue
  rintro t orphan ⟨hmem, hspent⟩
  refine ⟨?_, fun orphan' vMsg hget => ?_⟩
  · unfold eraseOrphanTx
    split
    · exact hmem
    · rename_i vMsg hget
      exact (Index.mem_foldl_remove (hspent orphan vMsg hget)).mpr hmem
  · rw [getElem?_eraseOrphanTx] at hget
    split at hget
    · cases hget
    · exact hspent orphan' vMsg hget

/-! ## The index agrees with the map -/

variable [Hashing]

/-- Every orphan is stored under its hash, and the index holds, under every key, the orphans that
spend the transaction with this hash. -/
structure Indexed (s : OrphanTransactions) : Prop where
  hash : ∀ (hash : uint256) (vMsg : TxMessage), s.mapOrphanTransactions[hash]? = some vMsg →
    vMsg.tx.getHash = hash
  byPrev : ∀ (hashPrev hash : uint256) (vMsg : TxMessage),
    s.mapOrphanTransactionsByPrev.lookup hashPrev hash = some vMsg ↔
      s.mapOrphanTransactions[hash]? = some vMsg ∧ hashPrev ∈ vMsg.tx.prevHashes

theorem indexed_empty : Indexed empty := by
  refine ⟨fun hash vMsg h => ?_, fun hashPrev hash vMsg => ?_⟩
  · rw [empty, TreeMap.getElem?_emptyc] at h
    cases h
  · simp [empty, Index.lookup_empty]

theorem Indexed.addOrphanTx (h : Indexed s) (vMsg : TxMessage) :
    Indexed (s.addOrphanTx vMsg).1 := by
  unfold OrphanTransactions.addOrphanTx
  dsimp only
  split
  · exact h
  · split
    · exact h
    · rename_i hnew hsize
      have hnone : s.mapOrphanTransactions[vMsg.tx.getHash]? = none :=
        TreeMap.getElem?_eq_none_of_contains_eq_false (Bool.eq_false_iff.mpr hnew)
      refine ⟨fun hash vMsg' hget => ?_, fun hashPrev hash vMsg' => ?_⟩
      · rw [TreeMap.getElem?_insert] at hget
        simp only [Std.compare_eq_iff_eq] at hget
        split at hget
        · rename_i heq
          rw [← Option.some.inj hget, heq]
        · exact h.hash hash vMsg' hget
      · rw [Index.lookup_foldl_add, TreeMap.getElem?_insert]
        simp only [Std.compare_eq_iff_eq]
        by_cases heq : vMsg.tx.getHash = hash
        · subst heq
          have hfresh : s.mapOrphanTransactionsByPrev.lookup hashPrev vMsg.tx.getHash = none := by
            cases hlookup : s.mapOrphanTransactionsByPrev.lookup hashPrev vMsg.tx.getHash with
            | none => rfl
            | some v =>
              rw [((h.byPrev _ _ _).mp hlookup).1] at hnone
              cases hnone
          rw [hfresh]
          by_cases hmem : hashPrev ∈ vMsg.tx.prevHashes
          · simp only [hmem, and_self, if_true, Option.getD_none, Option.some.injEq]
            constructor
            · rintro rfl
              exact ⟨rfl, hmem⟩
            · exact And.left
          · simp only [hmem, false_and, if_false, if_true, Option.some.injEq]
            constructor
            · intro hcontra
              cases hcontra
            · rintro ⟨rfl, hmem'⟩
              exact absurd hmem' hmem
        · simp only [heq, and_false, if_false]
          exact h.byPrev hashPrev hash vMsg'

theorem noEmpty_addOrphanTx (h : s.mapOrphanTransactionsByPrev.NoEmpty) (vMsg : TxMessage) :
    (s.addOrphanTx vMsg).1.mapOrphanTransactionsByPrev.NoEmpty := by
  unfold addOrphanTx
  dsimp only
  split
  · exact h
  · split
    · exact h
    · exact Index.noEmpty_foldl_add h _ _ _

theorem Indexed.eraseOrphanTx (h : Indexed s) (hash : uint256) : Indexed (s.eraseOrphanTx hash) := by
  unfold OrphanTransactions.eraseOrphanTx
  split
  · exact h
  · rename_i vMsg hget
    refine ⟨fun hash' vMsg' hget' => ?_, fun hashPrev hash' vMsg' => ?_⟩
    · rw [TreeMap.getElem?_erase] at hget'
      split at hget'
      · cases hget'
      · exact h.hash hash' vMsg' hget'
    · rw [Index.lookup_foldl_remove, TreeMap.getElem?_erase]
      simp only [Std.compare_eq_iff_eq]
      by_cases heq : hash = hash'
      · subst heq
        simp only [and_true, if_true]
        split
        · simp
        · rename_i hmem
          rw [h.byPrev, hget]
          constructor
          · rintro ⟨hsome, hmem'⟩
            rw [← Option.some.inj hsome] at hmem'
            exact absurd hmem' hmem
          · rintro ⟨hcontra, -⟩
            cases hcontra
      · simp only [heq, and_false, if_false]
        exact h.byPrev hashPrev hash' vMsg'

variable [ScriptEngine] [NodeConfig] {env : Env} {r r' : Resolution}

/-- Trying an orphan again leaves the index alone and only adds to the work queue. -/
theorem tryOrphan_ok {vMsg : TxMessage} (h : tryOrphan env r vMsg = .ok r') :
    r'.mapOrphanTransactionsByPrev = r.mapOrphanTransactionsByPrev ∧
      r.vWorkQueue <+: r'.vWorkQueue := by
  cases hanswer : acceptToMemoryPool env r.nCalls r.pool vMsg.tx with
  | error e =>
    rw [tryOrphan, hanswer] at h
    cases h
  | ok answer =>
    rw [tryOrphan, hanswer] at h
    obtain rfl := Except.ok.inj h
    dsimp only
    split
    · exact ⟨rfl, List.prefix_append _ _⟩
    · exact ⟨rfl, List.prefix_rfl⟩
    · exact ⟨rfl, List.prefix_rfl⟩

/-- The loop makes an entry for everything in its work queue, and changes nothing else in the
index. -/
theorem resolve_ok {fuel i : Nat} (h : resolve env fuel i r = .ok r') :
    r.vWorkQueue <+: r'.vWorkQueue ∧
    (∀ hashPrev hash, r'.mapOrphanTransactionsByPrev.lookup hashPrev hash =
      r.mapOrphanTransactionsByPrev.lookup hashPrev hash) ∧
    ∀ hashPrev, hashPrev ∈ r'.mapOrphanTransactionsByPrev ↔
      hashPrev ∈ r.mapOrphanTransactionsByPrev ∨ hashPrev ∈ r'.vWorkQueue.drop i := by
  induction fuel generalizing i r with
  | zero => cases h
  | succ fuel ih =>
    rw [resolve] at h
    split at h
    · rename_i hend
      obtain rfl := Except.ok.inj h
      refine ⟨List.prefix_rfl, fun _ _ => rfl, fun hashPrev => ?_⟩
      rw [List.drop_eq_nil_of_le (List.getElem?_eq_none_iff.mp hend)]
      simp
    · rename_i hashPrev hget
      obtain ⟨r2, hloop, hrest⟩ := bind_ok.mp h
      have hinner : r2.mapOrphanTransactionsByPrev =
          r.mapOrphanTransactionsByPrev.touch hashPrev ∧ r.vWorkQueue <+: r2.vWorkQueue := by
        refine foldlM_invariant (P := fun b : Resolution =>
          b.mapOrphanTransactionsByPrev = r.mapOrphanTransactionsByPrev.touch hashPrev ∧
            r.vWorkQueue <+: b.vWorkQueue) ?_ ?_ hloop
        · intro b vMsg b' hb hstep
          obtain ⟨h1, h2⟩ := tryOrphan_ok hstep
          exact ⟨h1.trans hb.1, hb.2.trans h2⟩
        · exact ⟨rfl, List.prefix_rfl⟩
      obtain ⟨hbyPrev, hqueue⟩ := hinner
      obtain ⟨hqueue', hlookup, hmem⟩ := ih hrest
      have hwhole := hqueue.trans hqueue'
      refine ⟨hwhole, fun k i' => ?_, fun k => ?_⟩
      · rw [hlookup, hbyPrev, Index.lookup_touch]
      · obtain ⟨hlt, hvalue⟩ := List.getElem?_eq_some_iff.mp hget
        have hget' : r'.vWorkQueue[i]? = some hashPrev := by
          obtain ⟨rest, hrest⟩ := hwhole
          rw [← hrest, List.getElem?_append_left hlt, hget]
        obtain ⟨hlt', hvalue'⟩ := List.getElem?_eq_some_iff.mp hget'
        rw [hmem, hbyPrev, Index.mem_touch, List.drop_eq_getElem_cons hlt', hvalue',
          List.mem_cons]
        constructor
        · rintro ((rfl | h) | h)
          · exact Or.inr (Or.inl rfl)
          · exact Or.inl h
          · exact Or.inr (Or.inr h)
        · rintro (h | rfl | h)
          · exact Or.inl (Or.inr h)
          · exact Or.inl (Or.inl rfl)
          · exact Or.inr h

/-! ## One message -/

variable {m : Message}

theorem step_ok (h : step s m = some s') :
    (∃ pool r, acceptToMemoryPool m.env 0 m.pool m.vMsg.tx = .ok (pool, .accepted) ∧
      resolution m s pool = .ok r ∧ s' = r.vEraseQueue.foldl eraseOrphanTx
        { s with mapOrphanTransactionsByPrev := r.mapOrphanTransactionsByPrev }) ∨
    (∃ pool n, acceptToMemoryPool m.env 0 m.pool m.vMsg.tx = .ok (pool, .missingInputs) ∧
      limitOrphanTxSize maxOrphanTransactions m.randomhash m.fuel 0 (s.addOrphanTx m.vMsg).1 =
        .ok (s', n)) ∨
    ∃ pool, acceptToMemoryPool m.env 0 m.pool m.vMsg.tx = .ok (pool, .refused) ∧ s' = s := by
  rw [step, toOption_eq_some, processTx, bind_ok] at h
  obtain ⟨⟨pool, answer⟩, hanswer, h⟩ := h
  cases answer with
  | accepted =>
    obtain ⟨r, hr, h⟩ := bind_ok.mp h
    exact Or.inl ⟨pool, r, hanswer, hr, (pure_ok.mp h).symm⟩
  | missingInputs =>
    obtain ⟨⟨s1, n⟩, hlimit, h⟩ := bind_ok.mp h
    obtain rfl := pure_ok.mp h
    exact Or.inr (Or.inl ⟨pool, n, hanswer, hlimit⟩)
  | refused => exact Or.inr (Or.inr ⟨pool, hanswer, (pure_ok.mp h).symm⟩)

/-- The transactions that the message brings into the memory pool. -/
def acceptedTxids (s : OrphanTransactions) (m : Message) : Except Halt (List uint256) := do
  let (pool, answer) ← acceptToMemoryPool m.env 0 m.pool m.vMsg.tx
  if answer = .accepted then (resolution m s pool).map Resolution.vWorkQueue else .ok []

/-- Every transaction that the message brings into the memory pool is spent by a stored orphan. -/
def AcceptedSpent (s : OrphanTransactions) (m : Message) : Prop :=
  ∀ txids, acceptedTxids s m = .ok txids → ∀ hash ∈ txids, ∃ (orphan : uint256) (vMsg : TxMessage),
    s.mapOrphanTransactions[orphan]? = some vMsg ∧ hash ∈ vMsg.tx.prevHashes

theorem acceptedTxids_accepted {pool : CTxMemPool}
    (h : acceptToMemoryPool m.env 0 m.pool m.vMsg.tx = .ok (pool, .accepted))
    (hr : resolution m s pool = .ok r) : acceptedTxids s m = .ok r.vWorkQueue := by
  have hmap : (resolution m s pool).map Resolution.vWorkQueue = .ok r.vWorkQueue := by
    rw [hr]
    rfl
  rw [acceptedTxids, h]
  exact hmap

theorem acceptedSpent_of_ne {pool : CTxMemPool} {answer : Answer}
    (h : acceptToMemoryPool m.env 0 m.pool m.vMsg.tx = .ok (pool, answer))
    (hne : answer ≠ .accepted) : AcceptedSpent s m := by
  intro txids htxids hash hmem
  rw [acceptedTxids, bind_ok] at htxids
  obtain ⟨⟨pool', answer'⟩, hanswer, htxids⟩ := htxids
  obtain ⟨-, rfl⟩ := Prod.mk.inj (Except.ok.inj (h.symm.trans hanswer))
  dsimp only at htxids
  rw [if_neg hne] at htxids
  rw [← Except.ok.inj htxids] at hmem
  cases hmem

theorem indexed_of_resolution {pool : CTxMemPool} (hs : Indexed s) (h : resolution m s pool = .ok r) :
    Indexed { s with mapOrphanTransactionsByPrev := r.mapOrphanTransactionsByPrev } := by
  obtain ⟨-, hlookup, -⟩ := resolve_ok h
  refine ⟨hs.hash, fun hashPrev hash vMsg => ?_⟩
  rw [hlookup]
  exact hs.byPrev hashPrev hash vMsg

theorem Indexed.step (hs : Indexed s) (h : step s m = some s') : Indexed s' := by
  rcases step_ok h with ⟨pool, r, -, hr, rfl⟩ | ⟨pool, n, -, hlimit⟩ | ⟨pool, -, rfl⟩
  · exact foldl_eraseOrphanTx (fun s hash hs => hs.eraseOrphanTx hash) (indexed_of_resolution hs hr) _
  · exact limitOrphanTxSize_invariant (fun s hash hs => hs.eraseOrphanTx hash)
      (hs.addOrphanTx m.vMsg) hlimit
  · exact hs

theorem size_step_le (hs : s.mapOrphanTransactions.size ≤ maxOrphanTransactions)
    (h : step s m = some s') : s'.mapOrphanTransactions.size ≤ maxOrphanTransactions := by
  rcases step_ok h with ⟨pool, r, -, -, rfl⟩ | ⟨pool, n, -, hlimit⟩ | ⟨pool, -, rfl⟩
  · exact foldl_eraseOrphanTx (P := fun t => t.mapOrphanTransactions.size ≤ maxOrphanTransactions)
      (s := { s with mapOrphanTransactionsByPrev := r.mapOrphanTransactionsByPrev })
      (fun t hash ht => (size_eraseOrphanTx_le hash).trans ht) hs _
  · exact limitOrphanTxSize_size_le hlimit
  · exact hs

/-- A message leaves no empty entry exactly if every transaction that it brings into the memory pool
is spent by an orphan. -/
theorem noEmpty_step_iff (hs : Indexed s) (hne : s.mapOrphanTransactionsByPrev.NoEmpty)
    (h : step s m = some s') : s'.mapOrphanTransactionsByPrev.NoEmpty ↔ AcceptedSpent s m := by
  have hs' := hs.step h
  rcases step_ok h with ⟨pool, r, hanswer, hr, rfl⟩ | ⟨pool, n, hanswer, hlimit⟩ |
    ⟨pool, hanswer, rfl⟩
  · obtain ⟨-, hlookup, hmem⟩ := resolve_ok hr
    constructor
    · intro hne' txids htxids hash hqueue
      rw [acceptedTxids_accepted hanswer hr] at htxids
      obtain rfl := Except.ok.inj htxids
      by_contra hnone
      push Not at hnone
      obtain ⟨hkept, hspent⟩ := mem_foldl_eraseOrphanTx
        (s := { s with mapOrphanTransactionsByPrev := r.mapOrphanTransactionsByPrev })
        ((hmem hash).mpr (Or.inr hqueue)) hnone r.vEraseQueue
      obtain ⟨orphan, vMsg, hrecord⟩ := hne'.mem_iff.mp hkept
      obtain ⟨hget, hprev⟩ := (hs'.byPrev _ _ _).mp hrecord
      exact hspent orphan vMsg hget hprev
    · intro hspent
      refine foldl_eraseOrphanTx (P := fun t => t.mapOrphanTransactionsByPrev.NoEmpty)
        (fun t hash ht => noEmpty_eraseOrphanTx ht hash) ?_ r.vEraseQueue
      apply Index.noEmpty_iff.mpr
      intro hashPrev hhash
      have hrecord : ∃ orphan vMsg,
          s.mapOrphanTransactionsByPrev.lookup hashPrev orphan = some vMsg := by
        rcases (hmem hashPrev).mp hhash with hold | hqueue
        · exact hne.mem_iff.mp hold
        · obtain ⟨orphan, vMsg, hget, hprev⟩ := hspent _ (acceptedTxids_accepted hanswer hr) hashPrev hqueue
          exact ⟨orphan, vMsg, (hs.byPrev _ _ _).mpr ⟨hget, hprev⟩⟩
      obtain ⟨orphan, vMsg, hrecord⟩ := hrecord
      exact ⟨orphan, vMsg, (hlookup hashPrev orphan).trans hrecord⟩
  · constructor
    · exact fun _ => acceptedSpent_of_ne hanswer (by decide)
    · intro _
      exact limitOrphanTxSize_invariant (P := fun t => t.mapOrphanTransactionsByPrev.NoEmpty)
        (fun t hash ht => noEmpty_eraseOrphanTx ht hash) (noEmpty_addOrphanTx hne m.vMsg) hlimit
  · constructor
    · exact fun _ => acceptedSpent_of_ne hanswer (by decide)
    · exact fun _ => hne

/-! ## Every sequence of messages -/

/-- After every sequence of `tx` messages the index holds exactly the stored orphans under the
transactions they spend, and there are no more orphans than allowed; no state on the way has an empty
entry exactly if every message brings only transactions into the memory pool that a stored orphan
spends; and `LimitOrphanTxSize` returns for every sequence of random numbers. -/
theorem orphans_spec {ms : List Message} (h : Run.run OrphanTransactions.step empty ms = some s) :
    Indexed s ∧ s.mapOrphanTransactions.size ≤ maxOrphanTransactions ∧
    (Run.Throughout (fun t => t.mapOrphanTransactionsByPrev.NoEmpty) OrphanTransactions.step empty ms ↔
      Run.Meets AcceptedSpent OrphanTransactions.step empty ms) ∧
    ∀ (t : OrphanTransactions) (nMaxOrphans : Nat) (randomhash : Nat → uint256), ∃ t' n,
      limitOrphanTxSize nMaxOrphans randomhash (t.mapOrphanTransactions.size + 1) 0 t =
        .ok (t', n) := by
  refine ⟨?_, ?_, ?_, ?_⟩
  · exact Run.run_invariant (fun _ _ _ _ hs hstep => hs.step hstep) indexed_empty h
  · exact Run.run_invariant (P := fun t => t.mapOrphanTransactions.size ≤ maxOrphanTransactions)
      (fun _ _ _ _ hs hstep => size_step_le hs hstep) (by decide) h
  · exact Run.throughout_iff_meets (I := Indexed) (fun _ _ _ hs hstep => hs.step hstep)
      (fun _ _ _ hs hne hstep => noEmpty_step_iff hs hne hstep) indexed_empty
      Index.noEmpty_empty h
  · intro t nMaxOrphans randomhash
    exact limitOrphanTxSize_returns nMaxOrphans randomhash (by omega) (by omega)

end OrphanTransactions

namespace Sample

open OrphanTransactions

/-- An output of transaction 9 is available. -/
def orphanEnv : OrphanTransactions.Env where
  coinsTip :=
    (CoinsView.empty.setCoins 9 (.ofTx (spending 9 [(8, 0)] [coin]) 1)).setBestBlock (some genesis)
  nBestHeight := 1
  nAdjustedTime _ := 1000
  fRateLimited _ := false

def txMessage (tx : CTransaction) : Message := ⟨⟨tx, 200⟩, .empty, orphanEnv, fun _ => 0, 10⟩

/-- The transaction 1 spends the available output. -/
def parentMessage : Message := txMessage (spending 1 [(9, 0)] [coin])

/-- The transaction 2 spends the transaction 1 and a transaction that nobody knows. -/
def childMessage : Message := txMessage (spending 2 [(1, 0), (7, 0)] [coin])

/-- The child waits for its other parent, so no entry is left empty. -/
theorem orphans_spec_sample : ∃ s, Run.run step empty [childMessage, parentMessage] = some s ∧
    Indexed s ∧ s.mapOrphanTransactions.keys = [2] ∧
    Run.Throughout (fun t => t.mapOrphanTransactionsByPrev.NoEmpty) step empty
      [childMessage, parentMessage] := by
  have hrun : ((Run.run step empty [childMessage, parentMessage]).any fun s =>
      s.mapOrphanTransactions.keys == [2]) = true := by decide +kernel
  obtain ⟨s, hs, hkeys⟩ := (Option.any_eq_true _ _).mp hrun
  have hmeets : Run.Meets AcceptedSpent step empty [childMessage, parentMessage] := by
    refine ⟨?_, fun s1 hs1 => ⟨?_, fun _ _ => trivial⟩⟩
    · have hnone : acceptedTxids empty childMessage = .ok [] := by decide +kernel
      intro txids htxids hash hmem
      rw [hnone] at htxids
      rw [← Except.ok.inj htxids] at hmem
      cases hmem
    · have hone : ((step empty childMessage).all fun s1 =>
          decide (acceptedTxids s1 parentMessage = .ok [1]) &&
            decide (s1.mapOrphanTransactions[(2 : uint256)]? = some childMessage.vMsg)) = true := by
        decide +kernel
      rw [hs1, Option.all_some, Bool.and_eq_true, decide_eq_true_eq, decide_eq_true_eq] at hone
      intro txids htxids hash hmem
      rw [hone.1] at htxids
      rw [← Except.ok.inj htxids, List.mem_singleton] at hmem
      exact ⟨2, childMessage.vMsg, hone.2, hmem ▸ by decide⟩
  obtain ⟨hindexed, -, hempty, -⟩ := orphans_spec hs
  exact ⟨s, hs, hindexed, by simpa using hkeys, hempty.mpr hmeets⟩

/-- The parent alone: its entry is left behind, empty. -/
theorem not_orphans_spec : ∃ s, Run.run step empty [parentMessage] = some s ∧
    s.mapOrphanTransactions.keys = [] ∧ s.mapOrphanTransactionsByPrev.keys = [1] ∧
    ¬ s.mapOrphanTransactionsByPrev.NoEmpty := by
  have hrun : ((Run.run step empty [parentMessage]).any fun s =>
      s.mapOrphanTransactions.keys == [] && (s.mapOrphanTransactionsByPrev.keys == [1] &&
        (s.mapOrphanTransactionsByPrev[(1 : uint256)]?.any fun records => records.isEmpty))) = true := by
    decide +kernel
  obtain ⟨s, hs, hstate⟩ := (Option.any_eq_true _ _).mp hrun
  rw [Bool.and_eq_true, Bool.and_eq_true, beq_iff_eq, beq_iff_eq] at hstate
  obtain ⟨hkeys, hprev, hentry⟩ := hstate
  refine ⟨s, hs, hkeys, hprev, fun hne => ?_⟩
  obtain ⟨records, hget, hempty⟩ := (Option.any_eq_true _ _).mp hentry
  rw [hne 1 records hget] at hempty
  cases hempty

end Sample

end Terracoin
