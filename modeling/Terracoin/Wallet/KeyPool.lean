import Terracoin.Lib.Run
import Mathlib.Data.Finset.Max
import Mathlib.Logic.Function.Basic

/-!
# The key pool

The pool of a wallet: `setKeyPool` in memory, a record with a key for each index in the database,
and the holders of reserved keys (`CReserveKey`), whose index is out of `setKeyPool` while its
record is still there. `GetOldestKeyPoolTime` is a holder as well, who reserves a key and returns it.

New indices follow the largest one in `setKeyPool`, whatever is held at that time. If one of them is
held, its record is overwritten and the index is given to a second holder. As long as no top-up runs
into a held index, every index has one holder at most and a key of its own (`keyPool_spec`).
-/

namespace Terracoin

/-- The keys that `GenerateNewKey` makes, one after the other. A new key is always another one. -/
class KeySource (K : Type) where
  key : Nat → K
  key_injective : Function.Injective key
  /-- `GetTime()` when the key is put into the pool. -/
  nTime : Nat → Int

/-- `CKeyPool`, a record of the pool. -/
structure CKeyPool (K : Type) where
  nTime : Int
  vchPubKey : K
deriving DecidableEq, Repr

/-- `CReserveKey`. There is no index where the source has `-1`, and no key where it has
`CPubKey()`. -/
structure CReserveKey (K : Type) where
  nIndex : Option Nat
  vchPubKey : Option K
deriving DecidableEq, Repr

/-- A wallet with its database and all holders of keys. -/
structure CWallet (K : Type) where
  /-- `GetArg("-keypool", 100)`. -/
  nKeyPool : Int
  setKeyPool : Finset Nat
  /-- The records of the database. -/
  pool : Nat → Option (CKeyPool K)
  /-- How many keys were generated. The key store has these. -/
  nGenerated : Nat
  fLocked : Bool
  vchDefaultKey : Option K
  holders : Nat → CReserveKey K
  /-- The keys that `KeepKey` has handed out. -/
  kept : List K

namespace CWallet

variable {K : Type}

/-- How many keys the pool should have, with the arithmetic of `unsigned int`. -/
def targetSize (w : CWallet K) : Nat := (UInt32.ofInt (max w.nKeyPool 0) + 1).toNat

/-- The next index of `TopUpKeyPool`. -/
def nEnd (w : CWallet K) : Nat :=
  if h : w.setKeyPool.Nonempty then w.setKeyPool.max' h + 1 else 1

def setHolder (w : CWallet K) (holder : Nat) (reservekey : CReserveKey K) : CWallet K :=
  { w with holders := Function.update w.holders holder reservekey }

/-- `CWallet::KeepKey`. -/
def erasePool (w : CWallet K) (nIndex : Nat) : CWallet K :=
  { w with pool := Function.update w.pool nIndex none }

section

variable [KeySource K]

def generateNewKey (w : CWallet K) : CWallet K × K :=
  ({ w with nGenerated := w.nGenerated + 1 }, KeySource.key w.nGenerated)

/-- The loop body of `TopUpKeyPool`. -/
def addPoolKey (w : CWallet K) : CWallet K :=
  { w with
    nGenerated := w.nGenerated + 1
    pool := Function.update w.pool w.nEnd
      (some ⟨KeySource.nTime K w.nGenerated, KeySource.key w.nGenerated⟩)
    setKeyPool := insert w.nEnd w.setKeyPool }

/-- The loop of `TopUpKeyPool`, while keys can be generated. -/
def topUpLoop (w : CWallet K) : Nat → CWallet K
  | 0 => w
  | limit + 1 =>
    if w.setKeyPool.card < w.targetSize then w.addPoolKey.topUpLoop limit else w

/-- `TopUpKeyPool`, and whether it throws: it does if the wallet is locked from elsewhere when
`limit` keys are generated and there is still one missing. -/
def topUpKeyPool (w : CWallet K) (limit : Nat) : CWallet K × Bool :=
  if w.fLocked then (w, false)
  else
    let w := w.topUpLoop limit
    if w.setKeyPool.card < w.targetSize then ({ w with fLocked := true }, true) else (w, false)

/-- What `ReserveKeyFromKeyPool` comes to. -/
inductive Reservation (K : Type) where
  /-- It throws; this is `nIndex` by then. -/
  | failed (nIndex : Option Nat)
  | empty
  | reserved (nIndex : Nat) (keypool : CKeyPool K)
deriving DecidableEq, Repr

variable [DecidableEq K]

def haveKey (w : CWallet K) (vchPubKey : K) : Bool :=
  (List.range w.nGenerated).any fun n => KeySource.key n == vchPubKey

/-- The rest of `ReserveKeyFromKeyPool`: the oldest key is taken. -/
def takeOldest (w : CWallet K) : CWallet K × Reservation K :=
  if h : w.setKeyPool.Nonempty then
    let nIndex := w.setKeyPool.min' h
    let w := { w with setKeyPool := w.setKeyPool.erase nIndex }
    match w.pool nIndex with
    | none => (w, .failed (some nIndex))
    | some keypool =>
      if w.haveKey keypool.vchPubKey then (w, .reserved nIndex keypool)
      else (w, .failed (some nIndex))
  else (w, .empty)

def reserveKeyFromKeyPool (w : CWallet K) (limit : Nat) : CWallet K × Reservation K :=
  match w.topUpKeyPool limit with
  | (w, true) => (w, .failed none)
  | (w, false) => w.takeOldest

/-- What `GetReservedKey` does with a reservation. -/
def hold (holder : Nat) : CWallet K × Reservation K → CWallet K
  | (w, .failed nIndex) => w.setHolder holder ⟨nIndex, (w.holders holder).vchPubKey⟩
  | (w, .empty) => w.setHolder holder ⟨none, w.vchDefaultKey⟩
  | (w, .reserved nIndex keypool) => w.setHolder holder ⟨some nIndex, some keypool.vchPubKey⟩

def getReservedKey (w : CWallet K) (holder : Nat) (limit : Nat) : CWallet K :=
  if (w.holders holder).nIndex = none then hold holder (w.reserveKeyFromKeyPool limit) else w

def keepKey (w : CWallet K) (holder : Nat) : CWallet K :=
  match w.holders holder with
  | ⟨some nIndex, vchPubKey⟩ =>
    { (w.erasePool nIndex).setHolder holder ⟨none, none⟩ with
      kept := w.kept ++ vchPubKey.toList }
  | ⟨none, _⟩ => w.setHolder holder ⟨none, none⟩

def returnKey (w : CWallet K) (holder : Nat) : CWallet K :=
  match (w.holders holder).nIndex with
  | some nIndex =>
    { w.setHolder holder ⟨none, none⟩ with setKeyPool := insert nIndex w.setKeyPool }
  | none => w.setHolder holder ⟨none, none⟩

/-- What `GetKeyFromPool` does with a reservation, and the key it returns. -/
def handOut (fAllowReuse : Bool) : CWallet K × Reservation K → CWallet K × Option K
  | (w, .failed _) => (w, none)
  | (w, .empty) =>
    if fAllowReuse && w.vchDefaultKey.isSome then (w, w.vchDefaultKey)
    else if w.fLocked then (w, none)
    else (w.generateNewKey.1, some w.generateNewKey.2)
  | (w, .reserved nIndex keypool) =>
    ({ w.erasePool nIndex with kept := w.kept ++ [keypool.vchPubKey] }, some keypool.vchPubKey)

def getKeyFromPool (w : CWallet K) (fAllowReuse : Bool) (limit : Nat) : CWallet K × Option K :=
  handOut fAllowReuse (w.reserveKeyFromKeyPool limit)

inductive KeyPoolOp where
  | setLocked (fLocked : Bool)
  | topUpKeyPool (limit : Nat)
  | getReservedKey (holder : Nat) (limit : Nat)
  | keepKey (holder : Nat)
  | returnKey (holder : Nat)
  | getKeyFromPool (fAllowReuse : Bool) (limit : Nat)
deriving DecidableEq, Repr

def step (w : CWallet K) : KeyPoolOp → Option (CWallet K)
  | .setLocked fLocked => some { w with fLocked := fLocked }
  | .topUpKeyPool limit => some (w.topUpKeyPool limit).1
  | .getReservedKey holder limit => some (w.getReservedKey holder limit)
  | .keepKey holder => some (w.keepKey holder)
  | .returnKey holder => some (w.returnKey holder)
  | .getKeyFromPool fAllowReuse limit => some (w.getKeyFromPool fAllowReuse limit).1

end

/-! ## The property -/

def Held (w : CWallet K) (nIndex : Nat) : Prop := ∃ holder, (w.holders holder).nIndex = some nIndex

/-- An index that is in use: it can be reserved or it is held. -/
def InUse (w : CWallet K) (nIndex : Nat) : Prop := nIndex ∈ w.setKeyPool ∨ w.Held nIndex

/-- Every index in use belongs to one holder or to the pool, with a record and a key of its own. -/
structure Intact (w : CWallet K) : Prop where
  exclusive : ∀ holder holder' nIndex, (w.holders holder).nIndex = some nIndex →
    (w.holders holder').nIndex = some nIndex → holder = holder'
  disjoint : ∀ nIndex ∈ w.setKeyPool, ¬ w.Held nIndex
  record : ∀ nIndex, w.InUse nIndex →
    ∃ keypool, w.pool nIndex = some keypool ∧ keypool.vchPubKey ∉ w.kept
  distinct : ∀ nIndex nIndex' keypool keypool', w.InUse nIndex → w.InUse nIndex' →
    w.pool nIndex = some keypool → w.pool nIndex' = some keypool' →
    keypool.vchPubKey = keypool'.vchPubKey → nIndex = nIndex'
  /-- A holder has the key of the record. -/
  own : ∀ holder nIndex, (w.holders holder).nIndex = some nIndex →
    ∃ keypool, w.pool nIndex = some keypool ∧
      (w.holders holder).vchPubKey = some keypool.vchPubKey

/-- What the wallet is when it starts: no key is held, and the records are those of the pool. -/
def init (nKeyPool : Int) : CWallet K :=
  ⟨nKeyPool, ∅, fun _ => none, 0, false, none, fun _ => ⟨none, none⟩, []⟩

/-- A top-up that generates `limit` keys at most would use this index. -/
def WouldAdd (w : CWallet K) (limit nIndex : Nat) : Prop :=
  w.fLocked = false ∧ w.nEnd ≤ nIndex ∧
    nIndex < w.nEnd + min limit (w.targetSize - w.setKeyPool.card)

def Avoids (w : CWallet K) : KeyPoolOp → Prop
  | .topUpKeyPool limit => ∀ nIndex, w.WouldAdd limit nIndex → ¬ w.Held nIndex
  | .getReservedKey holder limit =>
    (w.holders holder).nIndex = none → ∀ nIndex, w.WouldAdd limit nIndex → ¬ w.Held nIndex
  | .getKeyFromPool _ limit => ∀ nIndex, w.WouldAdd limit nIndex → ¬ w.Held nIndex
  | .setLocked _ => True
  | .keepKey _ => True
  | .returnKey _ => True

variable {w : CWallet K} {nIndex : Nat}

theorem lt_nEnd (h : nIndex ∈ w.setKeyPool) : nIndex < w.nEnd := by
  rw [nEnd, dif_pos ⟨nIndex, h⟩]
  exact Nat.lt_succ_of_le (w.setKeyPool.le_max' nIndex h)

theorem nEnd_notMem (w : CWallet K) : w.nEnd ∉ w.setKeyPool := fun h =>
  Nat.lt_irrefl _ (lt_nEnd h)

/-- An index of the pool is held as well. -/
def Clash (w : CWallet K) : Prop := ∃ nIndex ∈ w.setKeyPool, w.Held nIndex

theorem Intact.not_clash (h : w.Intact) : ¬ w.Clash := fun ⟨nIndex, hmem, hheld⟩ =>
  h.disjoint nIndex hmem hheld

section

variable [KeySource K]

def Generated (w : CWallet K) (vchPubKey : K) : Prop :=
  ∃ n < w.nGenerated, KeySource.key n = vchPubKey

/-- Every key that is written down somewhere was generated. -/
structure Known (w : CWallet K) : Prop where
  pool : ∀ nIndex keypool, w.pool nIndex = some keypool → w.Generated keypool.vchPubKey
  kept : ∀ vchPubKey ∈ w.kept, w.Generated vchPubKey
  holders : ∀ holder vchPubKey, (w.holders holder).vchPubKey = some vchPubKey →
    w.Generated vchPubKey
  default : ∀ vchPubKey, w.vchDefaultKey = some vchPubKey → w.Generated vchPubKey

theorem Generated.mono {w' : CWallet K} {vchPubKey : K} (h : w.Generated vchPubKey)
    (hle : w.nGenerated ≤ w'.nGenerated) : w'.Generated vchPubKey := by
  obtain ⟨n, hn, hkey⟩ := h
  exact ⟨n, Nat.lt_of_lt_of_le hn hle, hkey⟩

/-! ## Adding keys -/

@[simp] theorem addPoolKey_holders (w : CWallet K) : w.addPoolKey.holders = w.holders := rfl

@[simp] theorem held_addPoolKey : w.addPoolKey.Held nIndex ↔ w.Held nIndex := Iff.rfl

theorem pool_addPoolKey_nEnd (w : CWallet K) : w.addPoolKey.pool w.nEnd =
    some ⟨KeySource.nTime K w.nGenerated, KeySource.key w.nGenerated⟩ :=
  Function.update_self _ _ _

theorem pool_addPoolKey_of_ne (h : nIndex ≠ w.nEnd) :
    w.addPoolKey.pool nIndex = w.pool nIndex :=
  Function.update_of_ne h _ _

theorem nEnd_addPoolKey (w : CWallet K) : w.addPoolKey.nEnd = w.nEnd + 1 := by
  have hset : w.addPoolKey.setKeyPool = insert w.nEnd w.setKeyPool := rfl
  have hne : w.addPoolKey.setKeyPool.Nonempty := hset ▸ Finset.insert_nonempty _ _
  have hmax : w.addPoolKey.setKeyPool.max' hne = w.nEnd := by
    refine Nat.le_antisymm (Finset.max'_le _ _ _ fun i hi => ?_)
      (Finset.le_max' _ _ (hset ▸ Finset.mem_insert_self _ _))
    rcases Finset.mem_insert.mp (hset ▸ hi) with rfl | hi
    · exact Nat.le_refl _
    · exact Nat.le_of_lt (lt_nEnd hi)
  rw [nEnd, dif_pos hne, hmax]

theorem card_addPoolKey (w : CWallet K) :
    w.addPoolKey.setKeyPool.card = w.setKeyPool.card + 1 :=
  Finset.card_insert_of_notMem w.nEnd_notMem

theorem Known.addPoolKey (h : w.Known) : w.addPoolKey.Known where
  pool nIndex keypool hpool := by
    by_cases heq : nIndex = w.nEnd
    · subst heq
      rw [pool_addPoolKey_nEnd] at hpool
      exact ⟨w.nGenerated, Nat.lt_succ_self _, Option.some.inj hpool ▸ rfl⟩
    · rw [pool_addPoolKey_of_ne heq] at hpool
      exact (h.pool nIndex keypool hpool).mono (Nat.le_succ _)
  kept vchPubKey hkept := (h.kept vchPubKey hkept).mono (Nat.le_succ _)
  holders holder vchPubKey hholder := (h.holders holder vchPubKey hholder).mono (Nat.le_succ _)
  default vchPubKey hdefault := (h.default vchPubKey hdefault).mono (Nat.le_succ _)

theorem inUse_addPoolKey : w.addPoolKey.InUse nIndex ↔ nIndex = w.nEnd ∨ w.InUse nIndex := by
  rw [InUse, InUse, held_addPoolKey, ← or_assoc]
  exact or_congr_left Finset.mem_insert

theorem Known.fresh (h : w.Known) {keypool : CKeyPool K} (hpool : w.pool nIndex = some keypool) :
    keypool.vchPubKey ≠ KeySource.key w.nGenerated := by
  obtain ⟨n, hn, hkey⟩ := h.pool nIndex keypool hpool
  intro heq
  exact Nat.ne_of_lt hn (KeySource.key_injective (hkey.trans heq))

/-- An index that is not held is added without harm. -/
theorem Intact.addPoolKey (hk : w.Known) (h : w.Intact) (hfree : ¬ w.Held w.nEnd) :
    w.addPoolKey.Intact where
  exclusive := h.exclusive
  disjoint nIndex hmem := by
    rcases Finset.mem_insert.mp hmem with rfl | hmem
    · exact hfree
    · exact h.disjoint nIndex hmem
  record nIndex huse := by
    by_cases heq : nIndex = w.nEnd
    · subst heq
      refine ⟨_, pool_addPoolKey_nEnd w, fun hkept => ?_⟩
      obtain ⟨n, hn, hkey⟩ := hk.kept _ hkept
      exact Nat.ne_of_lt hn (KeySource.key_injective hkey)
    · obtain ⟨keypool, hpool, hnot⟩ :=
        h.record nIndex ((inUse_addPoolKey.mp huse).resolve_left heq)
      exact ⟨keypool, (pool_addPoolKey_of_ne heq).trans hpool, hnot⟩
  distinct nIndex nIndex' keypool keypool' huse huse' hpool hpool' hkey := by
    by_cases heq : nIndex = w.nEnd <;> by_cases heq' : nIndex' = w.nEnd
    · exact heq.trans heq'.symm
    · subst heq
      rw [pool_addPoolKey_nEnd] at hpool
      rw [pool_addPoolKey_of_ne heq'] at hpool'
      refine absurd hkey.symm ?_
      rw [← Option.some.inj hpool]
      exact hk.fresh hpool'
    · subst heq'
      rw [pool_addPoolKey_nEnd] at hpool'
      rw [pool_addPoolKey_of_ne heq] at hpool
      refine absurd hkey ?_
      rw [← Option.some.inj hpool']
      exact hk.fresh hpool
    · rw [pool_addPoolKey_of_ne heq] at hpool
      rw [pool_addPoolKey_of_ne heq'] at hpool'
      exact h.distinct nIndex nIndex' keypool keypool'
        ((inUse_addPoolKey.mp huse).resolve_left heq)
        ((inUse_addPoolKey.mp huse').resolve_left heq') hpool hpool' hkey
  own holder nIndex hholder := by
    have hne : nIndex ≠ w.nEnd := fun heq => hfree ⟨holder, heq ▸ hholder⟩
    obtain ⟨keypool, hpool, hown⟩ := h.own holder nIndex hholder
    exact ⟨keypool, (pool_addPoolKey_of_ne hne).trans hpool, hown⟩

/-- Every index of the pool has a record. -/
def Recorded (w : CWallet K) : Prop := ∀ nIndex ∈ w.setKeyPool, ∃ keypool, w.pool nIndex = some keypool

omit [KeySource K] in
theorem Intact.recorded (h : w.Intact) : w.Recorded := by
  intro nIndex hmem
  obtain ⟨keypool, hpool, -⟩ := h.record nIndex (.inl hmem)
  exact ⟨keypool, hpool⟩

theorem Recorded.addPoolKey (h : w.Recorded) : w.addPoolKey.Recorded := by
  intro nIndex hmem
  by_cases heq : nIndex = w.nEnd
  · exact ⟨_, heq ▸ pool_addPoolKey_nEnd w⟩
  · obtain ⟨keypool, hpool⟩ := h nIndex (Finset.mem_of_mem_insert_of_ne hmem heq)
    exact ⟨keypool, (pool_addPoolKey_of_ne heq).trans hpool⟩

theorem topUpLoop_induct {P : CWallet K → Prop} (hP : ∀ w, P w → P w.addPoolKey) (hw : P w)
    (limit : Nat) : P (w.topUpLoop limit) := by
  induction limit generalizing w with
  | zero => exact hw
  | succ limit ih =>
    rw [topUpLoop]
    split
    · exact ih (hP w hw)
    · exact hw

theorem topUpLoop_holders (w : CWallet K) (limit : Nat) :
    (w.topUpLoop limit).holders = w.holders :=
  topUpLoop_induct (P := fun w' => w'.holders = w.holders) (fun _ h => h) rfl limit

theorem subset_topUpLoop (w : CWallet K) (limit : Nat) :
    w.setKeyPool ⊆ (w.topUpLoop limit).setKeyPool :=
  topUpLoop_induct (P := fun w' => w.setKeyPool ⊆ w'.setKeyPool)
    (fun _ h => h.trans (Finset.subset_insert _ _)) (Finset.Subset.refl _) limit

theorem mem_topUpLoop {limit : Nat} (hle : w.nEnd ≤ nIndex)
    (hlt : nIndex < w.nEnd + min limit (w.targetSize - w.setKeyPool.card)) :
    nIndex ∈ (w.topUpLoop limit).setKeyPool := by
  induction limit generalizing w with
  | zero => omega
  | succ limit ih =>
    rw [topUpLoop, if_pos (by omega)]
    by_cases heq : nIndex = w.nEnd
    · exact subset_topUpLoop _ _ (heq ▸ Finset.mem_insert_self _ _)
    · refine ih ?_ ?_
      · rw [nEnd_addPoolKey]
        omega
      · have htarget : w.addPoolKey.targetSize = w.targetSize := rfl
        rw [nEnd_addPoolKey, card_addPoolKey, htarget]
        omega

theorem Intact.topUpLoop {limit : Nat} (hk : w.Known) (h : w.Intact)
    (hfree : ∀ nIndex, w.nEnd ≤ nIndex →
      nIndex < w.nEnd + min limit (w.targetSize - w.setKeyPool.card) → ¬ w.Held nIndex) :
    (w.topUpLoop limit).Intact := by
  induction limit generalizing w with
  | zero => exact h
  | succ limit ih =>
    rw [CWallet.topUpLoop]
    split
    · next hlt =>
      refine ih hk.addPoolKey (h.addPoolKey hk (hfree w.nEnd (Nat.le_refl _) (by omega))) ?_
      intro nIndex hle hlt'
      have htarget : w.addPoolKey.targetSize = w.targetSize := rfl
      rw [nEnd_addPoolKey] at hle hlt'
      rw [card_addPoolKey, htarget] at hlt'
      exact hfree nIndex (by omega) (by omega)
    · exact h

omit [KeySource K] in
theorem Intact.setLocked (h : w.Intact) (fLocked : Bool) : Intact { w with fLocked := fLocked } :=
  ⟨h.exclusive, h.disjoint, h.record, h.distinct, h.own⟩

theorem Known.setLocked (h : w.Known) (fLocked : Bool) : Known { w with fLocked := fLocked } :=
  ⟨h.pool, h.kept, h.holders, h.default⟩

theorem topUpKeyPool_holders (w : CWallet K) (limit : Nat) :
    (w.topUpKeyPool limit).1.holders = w.holders := by
  rw [topUpKeyPool]
  split
  · rfl
  · dsimp only
    split <;> exact topUpLoop_holders w limit

theorem Known.topUpKeyPool (h : w.Known) (limit : Nat) : (w.topUpKeyPool limit).1.Known := by
  have hloop := topUpLoop_induct (fun _ hw => Known.addPoolKey hw) h limit
  rw [CWallet.topUpKeyPool]
  split
  · exact h
  · dsimp only
    split
    · exact hloop.setLocked true
    · exact hloop

theorem Recorded.topUpKeyPool (h : w.Recorded) (limit : Nat) :
    (w.topUpKeyPool limit).1.Recorded := by
  have hloop := topUpLoop_induct (fun _ hw => Recorded.addPoolKey hw) h limit
  rw [CWallet.topUpKeyPool]
  split
  · exact h
  · dsimp only
    split <;> exact hloop

/-- A top-up keeps the pool intact exactly if it does not run into a held index. -/
theorem Intact.topUpKeyPool {limit : Nat} (hk : w.Known) (h : w.Intact)
    (hfree : ∀ nIndex, w.WouldAdd limit nIndex → ¬ w.Held nIndex) :
    (w.topUpKeyPool limit).1.Intact := by
  rw [CWallet.topUpKeyPool]
  split
  · exact h
  · next hlocked =>
    have hloop : (w.topUpLoop limit).Intact := h.topUpLoop hk fun nIndex hle hlt =>
      hfree nIndex ⟨Bool.not_eq_true _ ▸ hlocked, hle, hlt⟩
    dsimp only
    split
    · exact hloop.setLocked true
    · exact hloop

theorem WouldAdd.clash {limit : Nat} (h : w.WouldAdd limit nIndex) (hheld : w.Held nIndex) :
    (w.topUpKeyPool limit).1.Clash := by
  obtain ⟨hlocked, hle, hlt⟩ := h
  have hmem := mem_topUpLoop hle hlt
  refine ⟨nIndex, ?_, by rwa [Held, topUpKeyPool_holders]⟩
  rw [CWallet.topUpKeyPool, hlocked, if_neg Bool.false_ne_true]
  dsimp only
  split <;> exact hmem

variable [DecidableEq K]

theorem Known.haveKey (h : w.Known) {keypool : CKeyPool K} (hpool : w.pool nIndex = some keypool) :
    w.haveKey keypool.vchPubKey = true := by
  obtain ⟨n, hn, hkey⟩ := h.pool nIndex keypool hpool
  exact List.any_eq_true.mpr ⟨n, List.mem_range.mpr hn, beq_iff_eq.mpr hkey⟩

theorem takeOldest_cases (hk : w.Known) (hr : w.Recorded) :
    (w.setKeyPool = ∅ ∧ w.takeOldest = (w, .empty)) ∨
    ∃ nIndex keypool, nIndex ∈ w.setKeyPool ∧ w.pool nIndex = some keypool ∧
      w.takeOldest =
        ({ w with setKeyPool := w.setKeyPool.erase nIndex }, .reserved nIndex keypool) := by
  rw [takeOldest]
  split
  · next hne =>
    obtain ⟨keypool, hpool⟩ := hr _ (w.setKeyPool.min'_mem hne)
    refine .inr ⟨_, keypool, w.setKeyPool.min'_mem hne, hpool, ?_⟩
    dsimp only
    rw [hpool]
    exact if_pos (hk.haveKey hpool)
  · next hne => exact .inl ⟨Finset.not_nonempty_iff_eq_empty.mp hne, rfl⟩

/-- All that `ReserveKeyFromKeyPool` can come to, after the top-up. -/
theorem reserveKeyFromKeyPool_cases (hk : w.Known) (hr : w.Recorded) (limit : Nat) :
    ∃ w₁, w₁ = (w.topUpKeyPool limit).1 ∧
      (w.reserveKeyFromKeyPool limit = (w₁, .failed none) ∨
      (w₁.setKeyPool = ∅ ∧ w.reserveKeyFromKeyPool limit = (w₁, .empty)) ∨
      ∃ nIndex keypool, nIndex ∈ w₁.setKeyPool ∧ w₁.pool nIndex = some keypool ∧
        w.reserveKeyFromKeyPool limit =
          ({ w₁ with setKeyPool := w₁.setKeyPool.erase nIndex }, .reserved nIndex keypool)) := by
  refine ⟨_, rfl, ?_⟩
  have hk₁ := hk.topUpKeyPool limit
  have hr₁ := hr.topUpKeyPool limit
  rw [reserveKeyFromKeyPool]
  revert hk₁ hr₁
  obtain ⟨w₁, fThrows⟩ := w.topUpKeyPool limit
  intro hk₁ hr₁
  cases fThrows with
  | true => exact .inl rfl
  | false => exact .inr (takeOldest_cases hk₁ hr₁)

end

/-! ## Holders -/

theorem holders_setHolder_self (holder : Nat) (r : CReserveKey K) :
    (w.setHolder holder r).holders holder = r := Function.update_self _ _ _

theorem holders_setHolder_of_ne {holder holder' : Nat} (hne : holder' ≠ holder)
    (r : CReserveKey K) : (w.setHolder holder r).holders holder' = w.holders holder' :=
  Function.update_of_ne hne _ _

/-- Some holder other than this one has the index. -/
def HeldByOther (w : CWallet K) (holder nIndex : Nat) : Prop :=
  ∃ holder' ≠ holder, (w.holders holder').nIndex = some nIndex

theorem held_iff (holder : Nat) : w.Held nIndex ↔
    (w.holders holder).nIndex = some nIndex ∨ w.HeldByOther holder nIndex := by
  constructor
  · rintro ⟨holder', h⟩
    by_cases heq : holder' = holder
    · exact .inl (heq ▸ h)
    · exact .inr ⟨holder', heq, h⟩
  · rintro (h | ⟨holder', -, h⟩)
    · exact ⟨holder, h⟩
    · exact ⟨holder', h⟩

theorem heldByOther_setHolder {holder : Nat} {r : CReserveKey K} :
    (w.setHolder holder r).HeldByOther holder nIndex ↔ w.HeldByOther holder nIndex :=
  exists_congr fun holder' => and_congr_right fun hne => by rw [holders_setHolder_of_ne hne]

theorem held_setHolder {holder : Nat} {r : CReserveKey K} :
    (w.setHolder holder r).Held nIndex ↔
      r.nIndex = some nIndex ∨ w.HeldByOther holder nIndex := by
  rw [held_iff holder, holders_setHolder_self, heldByOther_setHolder]

theorem held_iff_of_none {holder : Nat} (hnone : (w.holders holder).nIndex = none) :
    w.Held nIndex ↔ w.HeldByOther holder nIndex := by
  rw [held_iff holder, hnone]
  exact or_iff_right (by simp)

theorem holders_setHolder_of_none {holder holder' : Nat} {r : CReserveKey K} (hr : r.nIndex = none)
    (h : ((w.setHolder holder r).holders holder').nIndex = some nIndex) :
    (w.setHolder holder r).holders holder' = w.holders holder' := by
  refine holders_setHolder_of_ne (fun heq => ?_) r
  rw [heq, holders_setHolder_self, hr] at h
  cases h

namespace Intact

variable {w' : CWallet K}

theorem notMem_kept {keypool : CKeyPool K} (h : w.Intact) (huse : w.InUse nIndex)
    (hpool : w.pool nIndex = some keypool) : keypool.vchPubKey ∉ w.kept := by
  obtain ⟨keypool', hpool', hnot⟩ := h.record nIndex huse
  exact Option.some.inj (hpool.symm.trans hpool') ▸ hnot

/-- Indices go out of use, or from a holder back to the pool. -/
theorem mono (h : w.Intact)
    (hholders : ∀ holder nIndex, (w'.holders holder).nIndex = some nIndex →
      w'.holders holder = w.holders holder)
    (huse : ∀ nIndex, w'.InUse nIndex → w.InUse nIndex ∧ w'.pool nIndex = w.pool nIndex)
    (hdisjoint : ∀ nIndex ∈ w'.setKeyPool, ¬ w'.Held nIndex)
    (hkept : ∀ nIndex keypool, w'.InUse nIndex → w.pool nIndex = some keypool →
      keypool.vchPubKey ∉ w'.kept) : w'.Intact where
  exclusive holder holder' nIndex hh hh' :=
    h.exclusive holder holder' nIndex (hholders holder nIndex hh ▸ hh)
      (hholders holder' nIndex hh' ▸ hh')
  disjoint := hdisjoint
  record nIndex hnow := by
    obtain ⟨hbefore, hpool⟩ := huse nIndex hnow
    obtain ⟨keypool, hkeypool, -⟩ := h.record nIndex hbefore
    exact ⟨keypool, hpool.trans hkeypool, hkept nIndex keypool hnow hkeypool⟩
  distinct nIndex nIndex' keypool keypool' hnow hnow' hp hp' hkey := by
    obtain ⟨hbefore, hpool⟩ := huse nIndex hnow
    obtain ⟨hbefore', hpool'⟩ := huse nIndex' hnow'
    exact h.distinct nIndex nIndex' keypool keypool' hbefore hbefore' (hpool ▸ hp)
      (hpool' ▸ hp') hkey
  own holder nIndex hh := by
    have hsame := hholders holder nIndex hh
    obtain ⟨-, hpool⟩ := huse nIndex (.inr ⟨holder, hh⟩)
    rw [hsame] at hh ⊢
    rw [hpool]
    exact h.own holder nIndex hh

theorem setHolder_none {holder : Nat} {r : CReserveKey K} (h : w.Intact) (hr : r.nIndex = none)
    (hnone : (w.holders holder).nIndex = none) : (w.setHolder holder r).Intact := by
  have hheld : ∀ nIndex, (w.setHolder holder r).Held nIndex → w.Held nIndex := by
    intro nIndex hh
    rw [held_setHolder, hr] at hh
    exact (held_iff_of_none hnone).mpr (hh.resolve_left (by simp))
  exact h.mono (fun holder' nIndex => holders_setHolder_of_none hr)
    (fun nIndex huse => ⟨huse.imp_right (hheld nIndex), rfl⟩)
    (fun nIndex hmem hh => h.disjoint nIndex hmem (hheld nIndex hh))
    (fun nIndex keypool huse hpool => h.notMem_kept (huse.imp_right (hheld nIndex)) hpool)

/-- An index goes from the pool to a holder. -/
theorem hold {holder : Nat} {keypool : CKeyPool K} (h : w.Intact)
    (hnone : (w.holders holder).nIndex = none) (hmem : nIndex ∈ w.setKeyPool)
    (hpool : w.pool nIndex = some keypool) :
    (setHolder { w with setKeyPool := w.setKeyPool.erase nIndex } holder
      ⟨some nIndex, some keypool.vchPubKey⟩).Intact := by
  have hfree := h.disjoint nIndex hmem
  have hother : ∀ holder' i, holder' ≠ holder →
      ((setHolder { w with setKeyPool := w.setKeyPool.erase nIndex } holder
        ⟨some nIndex, some keypool.vchPubKey⟩).holders holder').nIndex = some i →
      (w.holders holder').nIndex = some i ∧ i ≠ nIndex := by
    intro holder' i hne hh
    rw [holders_setHolder_of_ne hne] at hh
    exact ⟨hh, fun heq => hfree ⟨holder', heq ▸ hh⟩⟩
  have huse : ∀ i, InUse (setHolder { w with setKeyPool := w.setKeyPool.erase nIndex } holder
      ⟨some nIndex, some keypool.vchPubKey⟩) i → w.InUse i := by
    rintro i (hi | hi)
    · exact .inl (Finset.mem_of_mem_erase hi)
    · rcases held_setHolder.mp hi with heq | ⟨holder', -, hi⟩
      · exact .inl (Option.some.inj heq ▸ hmem)
      · exact .inr ⟨holder', hi⟩
  constructor
  · intro holder₁ holder₂ i h₁ h₂
    by_cases heq₁ : holder₁ = holder <;> by_cases heq₂ : holder₂ = holder
    · exact heq₁.trans heq₂.symm
    · subst heq₁
      rw [holders_setHolder_self] at h₁
      exact absurd (Option.some.inj h₁).symm (hother holder₂ i heq₂ h₂).2
    · subst heq₂
      rw [holders_setHolder_self] at h₂
      exact absurd (Option.some.inj h₂).symm (hother holder₁ i heq₁ h₁).2
    · exact h.exclusive holder₁ holder₂ i (hother holder₁ i heq₁ h₁).1 (hother holder₂ i heq₂ h₂).1
  · intro i hi hheld
    obtain ⟨hne, hi⟩ := Finset.mem_erase.mp hi
    rcases held_setHolder.mp hheld with heq | ⟨holder', -, hh⟩
    · exact hne (Option.some.inj heq).symm
    · exact h.disjoint i hi ⟨holder', hh⟩
  · exact fun i hi => h.record i (huse i hi)
  · exact fun i i' keypool keypool' hi hi' => h.distinct i i' keypool keypool' (huse i hi) (huse i' hi')
  · intro holder' i hh
    by_cases heq : holder' = holder
    · subst heq
      rw [holders_setHolder_self] at hh ⊢
      exact ⟨keypool, Option.some.inj hh ▸ hpool, rfl⟩
    · have hh' := (hother holder' i heq hh).1
      rw [holders_setHolder_of_ne heq]
      exact h.own holder' i hh'

/-- An index goes from a holder back to the pool. -/
theorem returnKey (h : w.Intact) (holder : Nat) : (w.returnKey holder).Intact := by
  rw [CWallet.returnKey]
  split
  · next nIndex hindex =>
    -- nobody else has the index
    have hother : ∀ i, w.HeldByOther holder i → i ≠ nIndex ∧ w.Held i := by
      rintro i ⟨holder', hne, hh⟩
      refine ⟨fun heq => hne ?_, holder', hh⟩
      exact h.exclusive holder' holder nIndex (heq ▸ hh) hindex
    have hheld : ∀ i, (w.setHolder holder ⟨none, none⟩).Held i → i ≠ nIndex ∧ w.Held i :=
      fun i hi => hother i ((held_setHolder.mp hi).resolve_left (by simp))
    have huse : ∀ i, (i ∈ insert nIndex w.setKeyPool ∨
        (w.setHolder holder ⟨none, none⟩).Held i) → w.InUse i := by
      rintro i (hi | hi)
      · rcases Finset.mem_insert.mp hi with rfl | hi
        · exact .inr ⟨holder, hindex⟩
        · exact .inl hi
      · exact .inr (hheld i hi).2
    refine h.mono (fun holder' i => holders_setHolder_of_none rfl) (fun i hi => ⟨huse i hi, rfl⟩)
      (fun i hi hh => ?_) (fun i keypool hi hpool => h.notMem_kept (huse i hi) hpool)
    obtain ⟨hne, hh⟩ := hheld i hh
    exact h.disjoint i (Finset.mem_of_mem_insert_of_ne hi hne) hh
  · next hnone => exact h.setHolder_none rfl hnone

/-- An index goes out of use with its record, and its key is handed out. -/
theorem handOut {keypool : CKeyPool K} (h : w.Intact) (hin : w.InUse nIndex)
    (hpool : w.pool nIndex = some keypool)
    (hholders : ∀ holder i, (w'.holders holder).nIndex = some i →
      w'.holders holder = w.holders holder)
    (huse : ∀ i, w'.InUse i → w.InUse i ∧ i ≠ nIndex)
    (hset : w'.setKeyPool ⊆ w.setKeyPool)
    (hpool' : w'.pool = Function.update w.pool nIndex none)
    (hkept : w'.kept = w.kept ++ [keypool.vchPubKey]) : w'.Intact := by
  refine h.mono hholders (fun i hi => ⟨(huse i hi).1, ?_⟩) (fun i hi hh => ?_)
    (fun i other hi hother => ?_)
  · rw [hpool']
    exact Function.update_of_ne (huse i hi).2 _ _
  · obtain ⟨holder, hh⟩ := hh
    exact h.disjoint i (hset hi) ⟨holder, hholders holder i hh ▸ hh⟩
  · rw [hkept, List.mem_append, List.mem_singleton]
    rintro (hold | hnew)
    · exact h.notMem_kept (huse i hi).1 hother hold
    · exact (huse i hi).2 (h.distinct i nIndex other keypool (huse i hi).1 hin hother hpool hnew)

theorem keepKey (h : w.Intact) (holder : Nat) : (w.keepKey holder).Intact := by
  rw [CWallet.keepKey]
  split
  · next nIndex vchPubKey hholder =>
    have hindex : (w.holders holder).nIndex = some nIndex := by rw [hholder]
    obtain ⟨keypool, hpool, hown⟩ := h.own holder nIndex hindex
    rw [hholder] at hown
    refine h.handOut (.inr ⟨holder, hindex⟩) hpool
      (fun holder' i => holders_setHolder_of_none rfl) ?_ (Finset.Subset.refl _) rfl
      (by rw [show vchPubKey = some keypool.vchPubKey from hown]; rfl)
    rintro i (hi | hi)
    · exact ⟨.inl hi, fun heq => h.disjoint i hi ⟨holder, heq ▸ hindex⟩⟩
    · obtain ⟨holder', hne, hh⟩ := (held_setHolder.mp hi).resolve_left (by simp)
      exact ⟨.inr ⟨holder', hh⟩,
        fun heq => hne (h.exclusive holder' holder nIndex (heq ▸ hh) hindex)⟩
  · next hholder => exact h.setHolder_none rfl (by rw [hholder])

theorem eraseReserved {keypool : CKeyPool K} (h : w.Intact) (hmem : nIndex ∈ w.setKeyPool)
    (hpool : w.pool nIndex = some keypool) :
    Intact
      { erasePool { w with setKeyPool := w.setKeyPool.erase nIndex } nIndex with
        kept := w.kept ++ [keypool.vchPubKey] } := by
  refine h.handOut (.inl hmem) hpool (fun _ _ _ => rfl) ?_ (Finset.erase_subset _ _) rfl rfl
  rintro i (hi | hi)
  · obtain ⟨hne, hi⟩ := Finset.mem_erase.mp hi
    exact ⟨.inl hi, hne⟩
  · exact ⟨.inr hi, fun heq => h.disjoint nIndex hmem (heq ▸ hi)⟩

end Intact

section

variable [KeySource K]

omit [KeySource K] in
theorem pool_erasePool_self (w : CWallet K) (nIndex : Nat) :
    (w.erasePool nIndex).pool nIndex = none := Function.update_self _ _ _

namespace Known

theorem setHolder {r : CReserveKey K} (h : w.Known) (holder : Nat)
    (hr : ∀ vchPubKey, r.vchPubKey = some vchPubKey → w.Generated vchPubKey) :
    (w.setHolder holder r).Known where
  pool := h.pool
  kept := h.kept
  holders holder' vchPubKey hholder := by
    by_cases heq : holder' = holder
    · rw [heq, holders_setHolder_self] at hholder
      exact hr vchPubKey hholder
    · rw [holders_setHolder_of_ne heq] at hholder
      exact h.holders holder' vchPubKey hholder
  default := h.default

theorem erasePool (h : w.Known) (nIndex : Nat) : (w.erasePool nIndex).Known where
  pool nIndex' keypool hpool := by
    change Function.update w.pool nIndex none nIndex' = some keypool at hpool
    by_cases heq : nIndex' = nIndex
    · rw [heq, Function.update_self] at hpool
      cases hpool
    · rw [Function.update_of_ne heq] at hpool
      exact h.pool nIndex' keypool hpool
  kept := h.kept
  holders := h.holders
  default := h.default

theorem keep {kept : List K} (h : w.Known) (hkept : ∀ vchPubKey ∈ kept, w.Generated vchPubKey) :
    Known { w with kept := w.kept ++ kept } where
  pool := h.pool
  kept vchPubKey hmem := (List.mem_append.mp hmem).elim (h.kept vchPubKey) (hkept vchPubKey)
  holders := h.holders
  default := h.default

theorem generateNewKey (h : w.Known) : w.generateNewKey.1.Known where
  pool nIndex keypool hpool := (h.pool nIndex keypool hpool).mono (Nat.le_succ _)
  kept vchPubKey hkept := (h.kept vchPubKey hkept).mono (Nat.le_succ _)
  holders holder vchPubKey hholder := (h.holders holder vchPubKey hholder).mono (Nat.le_succ _)
  default vchPubKey hdefault := (h.default vchPubKey hdefault).mono (Nat.le_succ _)

theorem keepKey (h : w.Known) (holder : Nat) : (w.keepKey holder).Known := by
  have hnone : ∀ vchPubKey, (⟨none, none⟩ : CReserveKey K).vchPubKey = some vchPubKey →
      w.Generated vchPubKey := fun vchPubKey heq => by cases heq
  rw [CWallet.keepKey]
  split
  · next nIndex vchPubKey hholder =>
    refine ((h.erasePool nIndex).setHolder holder hnone).keep fun key hkey => ?_
    exact h.holders holder key (by rw [hholder]; exact Option.mem_toList.mp hkey)
  · exact h.setHolder holder hnone

theorem returnKey (h : w.Known) (holder : Nat) : (w.returnKey holder).Known := by
  have hnone := h.setHolder (r := ⟨none, none⟩) holder (fun vchPubKey heq => by cases heq)
  rw [CWallet.returnKey]
  split
  · exact ⟨hnone.pool, hnone.kept, hnone.holders, hnone.default⟩
  · exact hnone

variable [DecidableEq K]

/-- What `ReserveKeyFromKeyPool` leaves and gives out was generated. -/
def Reserves (result : CWallet K × Reservation K) : Prop :=
  result.1.Known ∧ ∀ nIndex keypool, result.2 = .reserved nIndex keypool →
    result.1.Generated keypool.vchPubKey

theorem takeOldest (h : w.Known) : Reserves w.takeOldest := by
  rw [CWallet.takeOldest]
  split
  · have hknown : ∀ setKeyPool, Known { w with setKeyPool := setKeyPool } := fun _ =>
      ⟨h.pool, h.kept, h.holders, h.default⟩
    dsimp only
    split
    · exact ⟨hknown _, fun nIndex keypool heq => by cases heq⟩
    · next keypool hpool =>
      split
      · refine ⟨hknown _, fun nIndex keypool' heq => ?_⟩
        cases heq
        exact h.pool _ keypool hpool
      · exact ⟨hknown _, fun nIndex keypool heq => by cases heq⟩
  · exact ⟨h, fun nIndex keypool heq => by cases heq⟩

theorem reserveKeyFromKeyPool (h : w.Known) (limit : Nat) :
    Reserves (w.reserveKeyFromKeyPool limit) := by
  have h₁ := h.topUpKeyPool limit
  rw [CWallet.reserveKeyFromKeyPool]
  split
  · next heq =>
    rw [heq] at h₁
    exact ⟨h₁, fun nIndex keypool heq => by cases heq⟩
  · next heq =>
    rw [heq] at h₁
    exact h₁.takeOldest

theorem step {w' : CWallet K} {op : KeyPoolOp} (h : w.Known) (hstep : w.step op = some w') :
    w'.Known := by
  cases op with
  | setLocked fLocked => exact Option.some.inj hstep ▸ h.setLocked fLocked
  | topUpKeyPool limit => exact Option.some.inj hstep ▸ h.topUpKeyPool limit
  | getReservedKey holder limit =>
    rw [← Option.some.inj hstep, getReservedKey]
    split
    · obtain ⟨h₁, hkey⟩ := h.reserveKeyFromKeyPool limit
      revert h₁ hkey
      obtain ⟨w₁, reservation⟩ := w.reserveKeyFromKeyPool limit
      intro h₁ hkey
      cases reservation with
      | failed nIndex => exact h₁.setHolder holder (h₁.holders holder)
      | empty => exact h₁.setHolder holder h₁.default
      | reserved nIndex keypool =>
        exact h₁.setHolder holder fun vchPubKey heq =>
          Option.some.inj heq ▸ hkey nIndex keypool rfl
    · exact h
  | keepKey holder => exact Option.some.inj hstep ▸ h.keepKey holder
  | returnKey holder => exact Option.some.inj hstep ▸ h.returnKey holder
  | getKeyFromPool fAllowReuse limit =>
    rw [← Option.some.inj hstep, getKeyFromPool]
    obtain ⟨h₁, hkey⟩ := h.reserveKeyFromKeyPool limit
    revert h₁ hkey
    obtain ⟨w₁, reservation⟩ := w.reserveKeyFromKeyPool limit
    intro h₁ hkey
    cases reservation with
    | failed nIndex => exact h₁
    | empty =>
      rw [handOut]
      split
      · exact h₁
      · split
        · exact h₁
        · exact h₁.generateNewKey
    | reserved nIndex keypool =>
      exact (h₁.erasePool nIndex).keep fun vchPubKey hmem =>
        List.mem_singleton.mp hmem ▸ hkey nIndex keypool rfl

end Known

variable [DecidableEq K] {w' : CWallet K}

omit [KeySource K] [DecidableEq K] in
/-- Once an index of the pool is held, a new holder does not make that good. -/
theorem Clash.not_intact_hold {holder : Nat} {r : CReserveKey K} (h : w.Clash)
    (hnone : (w.holders holder).nIndex = none) (hset : ∀ nIndex ∈ w.setKeyPool,
      nIndex ∈ w'.setKeyPool ∨ r.nIndex = some nIndex)
    (hholders : w'.holders = Function.update w.holders holder r) : ¬ w'.Intact := by
  intro hintact
  obtain ⟨nIndex, hmem, hheld⟩ := h
  obtain ⟨holder', hne, hholder'⟩ := (held_iff_of_none hnone).mp hheld
  have hother : (w'.holders holder').nIndex = some nIndex := by
    rwa [hholders, Function.update_of_ne hne]
  rcases hset nIndex hmem with hmem | hr
  · exact hintact.disjoint nIndex hmem ⟨holder', hother⟩
  · refine hne (hintact.exclusive holder' holder nIndex hother ?_)
    rwa [hholders, Function.update_self]

theorem getReservedKey_intact_iff (hk : w.Known) (h : w.Intact) (holder limit : Nat) :
    (w.getReservedKey holder limit).Intact ↔ w.Avoids (.getReservedKey holder limit) := by
  rw [getReservedKey]
  split
  case isFalse hsome => exact ⟨fun _ hnone => absurd hnone hsome, fun _ => h⟩
  case isTrue hnone =>
    have hnone₁ : ((w.topUpKeyPool limit).1.holders holder).nIndex = none := by
      rwa [topUpKeyPool_holders]
    obtain ⟨w₁, rfl, hcases⟩ := reserveKeyFromKeyPool_cases hk h.recorded limit
    constructor
    · intro hintact _ nIndex hadd hheld
      have hclash := hadd.clash hheld
      rcases hcases with heq | ⟨hempty, heq⟩ | ⟨nIndex', keypool, hmem, hpool, heq⟩
      · rw [heq] at hintact
        refine hclash.not_intact_hold hnone₁ ?_ rfl hintact
        exact fun _ => .inl
      · obtain ⟨nIndex, hmem, -⟩ := hclash
        rw [hempty] at hmem
        exact absurd hmem (Finset.notMem_empty _)
      · rw [heq] at hintact
        refine hclash.not_intact_hold hnone₁ (fun i hi => ?_) rfl hintact
        by_cases heq : i = nIndex'
        · exact .inr (congrArg some heq.symm)
        · exact .inl (Finset.mem_erase.mpr ⟨heq, hi⟩)
    · intro havoids
      have h₁ := h.topUpKeyPool hk (havoids hnone)
      rcases hcases with heq | ⟨-, heq⟩ | ⟨nIndex, keypool, hmem, hpool, heq⟩
      · rw [heq]
        exact h₁.setHolder_none rfl hnone₁
      · rw [heq]
        exact h₁.setHolder_none rfl hnone₁
      · rw [heq]
        exact h₁.hold hnone₁ hmem hpool

theorem getKeyFromPool_intact_iff (hk : w.Known) (h : w.Intact) (fAllowReuse : Bool) (limit : Nat) :
    (w.getKeyFromPool fAllowReuse limit).1.Intact ↔ w.Avoids (.getKeyFromPool fAllowReuse limit) := by
  rw [getKeyFromPool]
  obtain ⟨w₁, rfl, hcases⟩ := reserveKeyFromKeyPool_cases hk h.recorded limit
  constructor
  · intro hintact nIndex hadd hheld
    obtain ⟨i, hi, hheld⟩ := hadd.clash hheld
    rcases hcases with heq | ⟨hempty, heq⟩ | ⟨nIndex', keypool, hmem, hpool, heq⟩
    · rw [heq] at hintact
      exact hintact.disjoint i hi hheld
    · rw [hempty] at hi
      exact absurd hi (Finset.notMem_empty _)
    · rw [heq] at hintact
      by_cases heq : i = nIndex'
      · -- the record of a held index is erased
        subst heq
        obtain ⟨keypool, hpool, -⟩ := hintact.record i (.inr hheld)
        cases hpool.symm.trans (pool_erasePool_self (w.topUpKeyPool limit).1 i)
      · exact hintact.disjoint i (Finset.mem_erase.mpr ⟨heq, hi⟩) hheld
  · intro havoids
    have h₁ := h.topUpKeyPool hk havoids
    rcases hcases with heq | ⟨-, heq⟩ | ⟨nIndex, keypool, hmem, hpool, heq⟩
    · rw [heq]
      exact h₁
    · rw [heq, handOut]
      split
      · exact h₁
      · split
        · exact h₁
        · exact ⟨h₁.exclusive, h₁.disjoint, h₁.record, h₁.distinct, h₁.own⟩
    · rw [heq]
      exact h₁.eraseReserved hmem hpool

theorem step_intact_iff {op : KeyPoolOp} (hk : w.Known) (h : w.Intact)
    (hstep : w.step op = some w') : w'.Intact ↔ w.Avoids op := by
  cases op with
  | setLocked fLocked =>
    exact Option.some.inj hstep ▸ iff_of_true (h.setLocked fLocked) trivial
  | topUpKeyPool limit =>
    rw [← Option.some.inj hstep]
    exact ⟨fun hintact nIndex hadd hheld => hintact.not_clash (hadd.clash hheld),
      fun havoids => h.topUpKeyPool hk havoids⟩
  | getReservedKey holder limit =>
    exact Option.some.inj hstep ▸ getReservedKey_intact_iff hk h holder limit
  | keepKey holder => exact Option.some.inj hstep ▸ iff_of_true (h.keepKey holder) trivial
  | returnKey holder => exact Option.some.inj hstep ▸ iff_of_true (h.returnKey holder) trivial
  | getKeyFromPool fAllowReuse limit =>
    exact Option.some.inj hstep ▸ getKeyFromPool_intact_iff hk h fAllowReuse limit

omit [DecidableEq K] in
theorem known_init (nKeyPool : Int) : (init nKeyPool : CWallet K).Known where
  pool nIndex keypool h := by cases h
  kept vchPubKey h := absurd h List.not_mem_nil
  holders holder vchPubKey h := by cases h
  default vchPubKey h := by cases h

omit [KeySource K] [DecidableEq K] in
theorem not_inUse_init (nKeyPool : Int) (nIndex : Nat) :
    ¬ (init nKeyPool : CWallet K).InUse nIndex := by
  rintro (h | ⟨holder, h⟩)
  · exact Finset.notMem_empty _ h
  · cases h

omit [KeySource K] [DecidableEq K] in
theorem intact_init (nKeyPool : Int) : (init nKeyPool : CWallet K).Intact where
  exclusive holder holder' nIndex h := by cases h
  disjoint nIndex h := absurd (.inl h) (not_inUse_init nKeyPool nIndex)
  record nIndex h := absurd h (not_inUse_init nKeyPool nIndex)
  distinct nIndex nIndex' keypool keypool' h := absurd h (not_inUse_init nKeyPool nIndex)
  own holder nIndex h := by cases h

theorem run_exists (w : CWallet K) (ops : List KeyPoolOp) : ∃ w', Run.run step w ops = some w' := by
  induction ops generalizing w with
  | nil => exact ⟨w, rfl⟩
  | cons op ops ih =>
    obtain ⟨w', h⟩ : ∃ w', w.step op = some w' := by cases op <;> exact ⟨_, rfl⟩
    obtain ⟨w'', hrun⟩ := ih w'
    exact ⟨w'', Run.run_cons.mpr ⟨w', h, hrun⟩⟩

/-- In any interleaving of the holders, from a new wallet: every index in use belongs to one holder
or to the pool, with a record and a key of its own that was not handed out, exactly as long as no
top-up runs into a held index. -/
theorem keyPool_spec (nKeyPool : Int) (ops : List KeyPoolOp) :
    Run.Throughout Intact step (init nKeyPool : CWallet K) ops ↔
      Run.Meets Avoids step (init nKeyPool : CWallet K) ops := by
  obtain ⟨w', hrun⟩ := run_exists (init nKeyPool : CWallet K) ops
  exact Run.throughout_iff_meets (fun _ _ _ hk h => hk.step h)
    (fun _ _ _ hk h hstep => step_intact_iff hk h hstep) (known_init nKeyPool)
    (intact_init nKeyPool) hrun

end

namespace KeyPoolSample

scoped instance keySource : KeySource Nat := ⟨fun n => n, fun _ _ h => h, fun _ => 1700000000⟩

/-- With `-keypool=0`, two holders reserve a key one after the other. -/
def ops : List KeyPoolOp := [.getReservedKey 0 1, .getReservedKey 1 1]

/-- Both get the first index, and the record of the first holder's key is overwritten. -/
theorem not_keyPool_spec : ∃ w : CWallet Nat, Run.run step (init 0) ops = some w ∧
    w.holders 0 = ⟨some 1, some 0⟩ ∧ w.holders 1 = ⟨some 1, some 1⟩ ∧
    w.pool 1 = some ⟨1700000000, 1⟩ ∧ ¬ w.Intact := by
  obtain ⟨w, hrun⟩ := run_exists (init 0 : CWallet Nat) ops
  have hlast : (Run.run step (init 0 : CWallet Nat) ops).map
      (fun w => (w.holders 0, w.holders 1, w.pool 1)) =
      some (⟨some 1, some 0⟩, ⟨some 1, some 1⟩, some ⟨1700000000, 1⟩) := by
    decide +kernel
  rw [hrun, Option.map_some, Option.some.injEq, Prod.mk.injEq, Prod.mk.injEq] at hlast
  obtain ⟨h₀, h₁, hpool⟩ := hlast
  refine ⟨w, hrun, h₀, h₁, hpool, fun hintact => ?_⟩
  exact absurd (hintact.exclusive 0 1 1 (by rw [h₀]) (by rw [h₁])) (by decide)

end KeyPoolSample

end CWallet

end Terracoin
