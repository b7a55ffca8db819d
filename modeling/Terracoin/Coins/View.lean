import Terracoin.Coins.Coins
import Terracoin.Primitives.Block

/-!
# Coins views

A coins view as its users see it: one map from transaction ids to coins and a best block.
`Terracoin.Coins.Cache` shows that a stack of `CCoinsViewCache` layers over the database
behaves like this.

An entry may be pruned. Apart from `haveCoins` such an entry is like none at all, and writing
the view to the database drops it (`dropPruned`). `coinsAt` is the reading that does not tell the
two apart.
-/

namespace Terracoin

open Checked

structure CoinsView where
  coins : uint256 → Option CCoins
  pindexTip : Option CBlockIndex

namespace CoinsView

def empty : CoinsView := ⟨fun _ => none, none⟩

def haveCoins (view : CoinsView) (txid : uint256) : Bool := (view.coins txid).isSome

/-- `GetCoins(txid)`: a reference to an entry that must exist. -/
def getCoins (view : CoinsView) (txid : uint256) : Check CCoins :=
  get (view.coins txid) .assertion

/-- The value of `coins` after `CCoins coins; view.GetCoins(txid, coins);`. -/
def coinsAt (view : CoinsView) (txid : uint256) : CCoins := (view.coins txid).getD CCoins.empty

/-- `SetCoins(txid, coins)`, and also a write through the reference from `GetCoins(txid)`. -/
def setCoins (view : CoinsView) (txid : uint256) (coins : CCoins) : CoinsView :=
  { view with coins := Function.update view.coins txid (some coins) }

def getBestBlock (view : CoinsView) : Option CBlockIndex := view.pindexTip

def setBestBlock (view : CoinsView) (pindex : Option CBlockIndex) : CoinsView :=
  { view with pindexTip := pindex }

/-- The view after its entries have gone through `BatchWriteCoins`, which erases pruned ones. -/
def dropPruned (view : CoinsView) : CoinsView :=
  { view with coins := fun txid => (view.coins txid).filter (fun coins => !coins.isPruned) }

/-! ## Lookups after updates -/

variable {view : CoinsView} {txid txid' : uint256} {coins : CCoins}

theorem getCoins_ok : view.getCoins txid = .ok coins ↔ view.coins txid = some coins := get_ok

theorem coinsAt_of_getCoins (h : view.getCoins txid = .ok coins) : view.coinsAt txid = coins := by
  rw [coinsAt, getCoins_ok.mp h, Option.getD_some]

@[simp] theorem coinsAt_setCoins_self : (view.setCoins txid coins).coinsAt txid = coins := by
  simp [coinsAt, setCoins]

theorem coinsAt_setCoins_of_ne (h : txid' ≠ txid) :
    (view.setCoins txid coins).coinsAt txid' = view.coinsAt txid' := by
  simp [coinsAt, setCoins, Function.update_of_ne h]

@[simp] theorem setCoins_pindexTip : (view.setCoins txid coins).pindexTip = view.pindexTip := rfl

@[simp] theorem setBestBlock_coins {p : Option CBlockIndex} :
    (view.setBestBlock p).coins = view.coins := rfl

@[simp] theorem setBestBlock_pindexTip {p : Option CBlockIndex} :
    (view.setBestBlock p).pindexTip = p := rfl

theorem getCoins_of_output {n : Nat} {out : CTxOut} (h : (view.coinsAt txid).output n = some out) :
    view.getCoins txid = .ok (view.coinsAt txid) := by
  rw [getCoins_ok]
  unfold coinsAt at h ⊢
  cases hc : view.coins txid with
  | none => simp [hc] at h
  | some c => rfl

theorem coinsAt_dropPruned : CCoins.Same (view.dropPruned.coinsAt txid) (view.coinsAt txid) := by
  unfold coinsAt dropPruned
  dsimp only
  cases view.coins txid with
  | none => exact CCoins.Same.refl _
  | some c =>
    rw [Option.filter_some]
    cases hp : c.isPruned with
    | false => exact CCoins.Same.refl c
    | true => exact CCoins.same_of_isPruned CCoins.isPruned_empty hp

/-- Every output available in `w` is available, with the same contents, in `v`. -/
def Below (w v : CoinsView) : Prop :=
  ∀ (txid : uint256) (n : Nat) (out : CTxOut),
    (w.coinsAt txid).output n = some out → (v.coinsAt txid).output n = some out

theorem Below.refl (v : CoinsView) : Below v v := fun _ _ _ h => h

theorem Below.trans {u v w : CoinsView} (h : Below u v) (h' : Below v w) : Below u w :=
  fun txid n out ho => h' txid n out (h txid n out ho)

theorem Below.isPruned {w v : CoinsView} (h : Below w v) {txid : uint256}
    (hv : (v.coinsAt txid).isPruned = true) : (w.coinsAt txid).isPruned = true := by
  rw [CCoins.isPruned_iff] at hv ⊢
  intro n
  cases hn : (w.coinsAt txid).output n with
  | none => rfl
  | some out =>
    have := h txid n out hn
    rw [hv n] at this
    cases this

end CoinsView

end Terracoin
