import Terracoin.Validation.ConnectBlock

/-!
# `CBlock::DisconnectBlock`

Taking a block back with its undo data: the transactions in reverse order, and the inputs of
each in reverse order, both through `UndoLog.revertAll`.
-/

namespace Terracoin

open Checked

/-- The body of the loop over the inputs. -/
def restoreInput (view : CoinsView) (txin : CTxIn) (undo : CTxInUndo) : Check (CoinsView × Bool) :=
  let restored := (view.coinsAt txin.prevout.hash).restore txin.prevout.n.toNat undo
  .ok (view.setCoins txin.prevout.hash restored.1, restored.2)

/-- The body of the loop over the transactions; the first one has no undo record. -/
def disconnectTransaction [Hashing] (nHeight : Int) (view : CoinsView) (tx : CTransaction)
    (txundo : Option CTxUndo) : Check (CoinsView × Bool) := do
  let hash := tx.getHash
  -- the outputs must all be there
  let fClean := view.haveCoins hash && view.coinsAt hash == CCoins.ofTx tx nHeight
  let view := view.setCoins hash CCoins.empty
  match txundo with
  | none => pure (view, fClean)
  | some txundo => do
    require (txundo.vprevout.length == tx.vin.length)
      (.error "DisconnectBlock() : transaction and undo data inconsistent")
    let (view, fClean') ← UndoLog.revertAll restoreInput view tx.vin txundo.vprevout
    pure (view, fClean && fClean')

/-- The view after the call, and what it stores in `*pfClean` or returns. -/
def disconnectBlock [Hashing] (b : CBlock) (pindex : CBlockIndex) (data : BlockData)
    (fReadUndo : Bool) (view : CoinsView) : Check (CoinsView × Bool) := do
  require (some pindex == view.getBestBlock) .assertion
  require data.nStatus.haveUndo (.error "DisconnectBlock() : no undo data available")
  let pprev ← get pindex.pprev .assertion
  let blockUndo ← get (if fReadUndo then data.undo else none)
    (.error "DisconnectBlock() : failure reading undo data")
  require (blockUndo.vtxundo.length + 1 == b.vtx.length)
    (.error "DisconnectBlock() : block and undo data inconsistent")
  let (view, fClean) ← UndoLog.revertAll (disconnectTransaction pindex.nHeight) view b.vtx
    (none :: blockUndo.vtxundo.map some)
  pure (view.setBestBlock (some pprev), fClean)

theorem disconnectBlock_ok [Hashing] {b : CBlock} {pindex : CBlockIndex} {data : BlockData}
    {fReadUndo : Bool} {view view' : CoinsView} {fClean : Bool} :
    disconnectBlock b pindex data fReadUndo view = .ok (view', fClean) ↔
      view.getBestBlock = some pindex ∧ data.nStatus.haveUndo = true ∧
      ∃ pprev blockUndo coins, pindex.pprev = some pprev ∧ fReadUndo = true ∧
        data.undo = some blockUndo ∧ blockUndo.vtxundo.length + 1 = b.vtx.length ∧
        UndoLog.revertAll (disconnectTransaction pindex.nHeight) view b.vtx
          (none :: blockUndo.vtxundo.map some) = .ok (coins, fClean) ∧
        view' = coins.setBestBlock (some pprev) := by
  simp only [disconnectBlock, bind_ok, require_ok, get_ok, pure_ok, Prod.exists, Prod.mk.injEq,
    beq_iff_eq]
  constructor
  · rintro ⟨_, htip, _, hundo, pprev, hprev, blockUndo, hread, _, hlen, coins, fClean', hrev, rfl,
      rfl⟩
    cases fReadUndo with
    | false => simp at hread
    | true => exact ⟨htip.symm, hundo, pprev, blockUndo, coins, hprev, rfl, hread, hlen, hrev, rfl⟩
  · rintro ⟨htip, hundo, pprev, blockUndo, coins, hprev, rfl, hread, hlen, hrev, rfl⟩
    exact ⟨(), htip.symm, (), hundo, pprev, hprev, blockUndo, hread, (), hlen, coins, fClean, hrev,
      rfl, rfl⟩

theorem disconnectBlock_tip [Hashing] {b : CBlock} {pindex : CBlockIndex} {data : BlockData}
    {fReadUndo : Bool} {view view' : CoinsView} {fClean : Bool}
    (h : disconnectBlock b pindex data fReadUndo view = .ok (view', fClean)) :
    view.getBestBlock = some pindex ∧ view'.getBestBlock = pindex.pprev := by
  obtain ⟨htip, -, pprev, _, coins, hprev, -, -, -, -, rfl⟩ := disconnectBlock_ok.mp h
  exact ⟨htip, hprev.symm⟩

end Terracoin
