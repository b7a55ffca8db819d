import Terracoin.Chain.Ancestry
import Terracoin.Lib.Memo
import Terracoin.Validation.Inputs
import Terracoin.Wallet.KeyStore
import Mathlib.Algebra.Order.Ring.Int

/-!
# Transactions of a wallet

`CMerkleTx` knows the block that a transaction is in, and `CWalletTx` which of its outputs are spent.
`GetDebit`, `GetCredit`, `GetImmatureCredit`, `GetAvailableCredit` and `GetChange` remember what they
have computed from the wallet (`Memo`).
-/

namespace Terracoin

open Std (TreeMap)
open CScript Memo

/-! ## The block of a transaction -/

structure CMerkleTx where
  tx : CTransaction
  hashBlock : uint256
  vMerkleBranch : List uint256
  nIndex : Int
  fMerkleVerified : Bool

section

variable [Hashing]

/-- The loop of `CheckMerkleBranch`. -/
def climb : uint256 → List uint256 → Int → uint256
  | hash, [], _ => hash
  | hash, otherside :: vMerkleBranch, nIndex =>
    climb (if nIndex % 2 = 1 then Hashing.hash2 otherside hash else Hashing.hash2 hash otherside)
      vMerkleBranch (nIndex / 2)

def checkMerkleBranch (hash : uint256) (vMerkleBranch : List uint256) (nIndex : Int) : uint256 :=
  if nIndex = -1 then 0 else climb hash vMerkleBranch nIndex

namespace CMerkleTx

/-- `GetDepthInMainChain`, which remembers that it has verified the merkle branch. -/
def getDepthInMainChain (mtx : CMerkleTx) (pindexBest : Option CBlockIndex) : Nat × CMerkleTx :=
  if mtx.hashBlock = 0 ∨ mtx.nIndex = -1 then (0, mtx)
  else
    -- Find the block it claims to be in
    match (CBlockIndex.chainOf pindexBest).find? fun p => p.getBlockHash = mtx.hashBlock with
    | none => (0, mtx)
    | some pindex =>
      let nDepth := (pindexBest.elim 0 CBlockIndex.nHeight) - pindex.nHeight + 1
      -- Make sure the merkle branch connects to this block
      if mtx.fMerkleVerified then (nDepth, mtx)
      else if checkMerkleBranch mtx.tx.getHash mtx.vMerkleBranch mtx.nIndex ≠
          pindex.header.hashMerkleRoot then (0, mtx)
      else (nDepth, { mtx with fMerkleVerified := true })

/-- `GetBlocksToMaturity`, after 20 blocks more than `COINBASE_MATURITY`. -/
def getBlocksToMaturity (mtx : CMerkleTx) (pindexBest : Option CBlockIndex) : Nat × CMerkleTx :=
  if mtx.tx.isCoinBase then
    let (nDepth, mtx) := mtx.getDepthInMainChain pindexBest
    ((coinbaseMaturity.toNat + 20) - nDepth, mtx)
  else (0, mtx)

theorem tx_getDepthInMainChain (mtx : CMerkleTx) (pindexBest : Option CBlockIndex) :
    (mtx.getDepthInMainChain pindexBest).2.tx = mtx.tx := by
  unfold getDepthInMainChain
  split
  · rfl
  · split
    · rfl
    · dsimp only
      split
      · rfl
      · split <;> rfl

theorem tx_getBlocksToMaturity (mtx : CMerkleTx) (pindexBest : Option CBlockIndex) :
    (mtx.getBlocksToMaturity pindexBest).2.tx = mtx.tx := by
  unfold getBlocksToMaturity
  split
  · exact tx_getDepthInMainChain mtx pindexBest
  · rfl

end CMerkleTx

end

/-! ## The transaction in the wallet -/

/-- `CWalletTx`. A remembered value is there if the flag for it is set. -/
structure CWalletTx extends CMerkleTx where
  vtxPrev : List CMerkleTx
  fFromMe : Bool
  vfSpent : List Bool
  nDebitCached : Option Int
  nCreditCached : Option Int
  nImmatureCreditCached : Option Int
  nAvailableCreditCached : Option Int
  nChangeCached : Option Int

namespace CWalletTx

def isSpent (wtx : CWalletTx) (nOut : Nat) : Bool := wtx.vfSpent.getD nOut false

/-- The outputs that are not spent. -/
def unspent (wtx : CWalletTx) : List CTxOut :=
  (wtx.tx.vout.zipIdx.filter fun p => !wtx.isSpent p.2).map Prod.fst

/-- `MarkDirty`: make sure balances are recalculated. -/
def markDirty (wtx : CWalletTx) : CWalletTx :=
  { wtx with
    nCreditCached := none
    nAvailableCreditCached := none
    nDebitCached := none
    nChangeCached := none }

def markSpent (wtx : CWalletTx) (nOut : Nat) : CWalletTx :=
  let wtx := { wtx with vfSpent := wtx.vfSpent.takeD wtx.tx.vout.length false }
  if wtx.isSpent nOut then wtx
  else { wtx with vfSpent := wtx.vfSpent.set nOut true, nAvailableCreditCached := none }

/-- The loop of `UpdateSpent`: the flags, and whether any changed. -/
def mergeSpent : List Bool → List Bool → List Bool × Bool
  | fSpent :: vfSpent, fNewSpent :: vfNewSpent =>
    let (vfSpent, fReturn) := mergeSpent vfSpent vfNewSpent
    ((fSpent || fNewSpent) :: vfSpent, (fNewSpent && !fSpent) || fReturn)
  | vfSpent, _ => (vfSpent, false)

def updateSpent (wtx : CWalletTx) (vfNewSpent : List Bool) : CWalletTx × Bool :=
  let (vfSpent, fReturn) := mergeSpent wtx.vfSpent vfNewSpent
  ({ wtx with
    vfSpent := vfSpent
    nAvailableCreditCached := if fReturn then none else wtx.nAvailableCreditCached }, fReturn)

end CWalletTx

/-! ## The wallet -/

/-- What the transactions of a `CWallet` are valued by: the keys, the addresses with a name, the
transactions themselves, and the chain. -/
structure WalletState [EllipticCurve] [ByteHashing160] where
  keystore : CBasicKeyStore
  mapAddressBook : List CTxDestination
  vchDefaultKey : CPubKey
  mapWallet : TreeMap uint256 CWalletTx
  pindexBest : Option CBlockIndex

/-- The next term of a sum that has to stay in range. -/
def addMoney {α : Type} (value : α → Option Int) (n : Int) (a : α) : Option Int := do
  let v ← value a
  if moneyRange (n + v) then some (n + v) else none

def sumMoney {α : Type} (value : α → Option Int) (l : List α) : Option Int :=
  l.foldlM (addMoney value) 0

theorem sumMoney_congr {α : Type} {value value' : α → Option Int} {l : List α}
    (h : ∀ a ∈ l, value a = value' a) : sumMoney value l = sumMoney value' l := by
  unfold sumMoney
  generalize (0 : Int) = n
  induction l generalizing n with
  | nil => rfl
  | cons a l ih =>
    have hstep : addMoney value n a = addMoney value' n a := by
      rw [addMoney, addMoney, h a List.mem_cons_self]
    rw [List.foldlM_cons, List.foldlM_cons, hstep]
    exact Option.bind_congr fun n' _ => ih (fun a ha => h a (List.mem_cons_of_mem _ ha)) n'

namespace WalletState

variable [EllipticCurve] [ByteHashing160]

def isMine (w : WalletState) (txout : CTxOut) : Bool := w.keystore.isMineScript txout.scriptPubKey

/-- `IsChange`. Any payment to an address that is mine but isn't in the address book is change. -/
def isChange (w : WalletState) (txout : CTxOut) : Bool :=
  match extractDestination txout.scriptPubKey with
  | some address => w.keystore.isMineDest address && !w.mapAddressBook.contains address
  | none => false

/-- `GetCredit(txout)`. -/
def creditOf (w : WalletState) (txout : CTxOut) : Option Int :=
  if moneyRange txout.nValue then some (if w.isMine txout then txout.nValue else 0) else none

/-- `GetChange(txout)`. -/
def changeOf (w : WalletState) (txout : CTxOut) : Option Int :=
  if moneyRange txout.nValue then some (if w.isChange txout then txout.nValue else 0) else none

/-- The previous output of an input, if the wallet has its transaction. -/
def prevOut (w : WalletState) (txin : CTxIn) : Option CTxOut := do
  let prev ← w.mapWallet[txin.prevout.hash]?
  prev.tx.vout[txin.prevout.n.toNat]?

/-- `GetDebit(txin)`. -/
def debitOf (w : WalletState) (txin : CTxIn) : Int :=
  match w.prevOut txin with
  | some txout => if w.isMine txout then txout.nValue else 0
  | none => 0

/-- `CWallet::GetDebit(tx)`. -/
def debit (w : WalletState) (tx : CTransaction) : Option Int :=
  sumMoney (fun txin => some (w.debitOf txin)) tx.vin

/-- `CWallet::GetCredit(tx)`. -/
def credit (w : WalletState) (tx : CTransaction) : Option Int := sumMoney w.creditOf tx.vout

/-- `CWallet::GetChange(tx)`. -/
def change (w : WalletState) (tx : CTransaction) : Option Int := sumMoney w.changeOf tx.vout

def availableCredit (w : WalletState) (wtx : CWalletTx) : Option Int :=
  sumMoney w.creditOf wtx.unspent

end WalletState

/-! ## The values that are remembered -/

namespace CWalletTx

variable [EllipticCurve] [ByteHashing160] [Hashing]

/-- `IsCoinBase() && GetBlocksToMaturity() > 0`. -/
def isImmature (w : WalletState) (wtx : CWalletTx) : Bool × CWalletTx :=
  let (nBlocks, mtx) := wtx.toCMerkleTx.getBlocksToMaturity w.pindexBest
  (decide (0 < nBlocks), { wtx with toCMerkleTx := mtx })

def isInMainChain (w : WalletState) (wtx : CWalletTx) : Bool × CWalletTx :=
  let (nDepth, mtx) := wtx.toCMerkleTx.getDepthInMainChain w.pindexBest
  (decide (0 < nDepth), { wtx with toCMerkleTx := mtx })

def getDebit (w : WalletState) (wtx : CWalletTx) : Option Int × CWalletTx :=
  if wtx.tx.vin = [] then (some 0, wtx)
  else
    let (nDebit, cell) := look true wtx.nDebitCached (w.debit wtx.tx)
    (nDebit, { wtx with nDebitCached := cell })

/-- The credit, remembered for transactions that are mature. -/
def lookCredit (w : WalletState) (fUseCache : Bool) (wtx : CWalletTx) : Option Int × CWalletTx :=
  let (nCredit, cell) := look fUseCache wtx.nCreditCached (w.credit wtx.tx)
  (nCredit, { wtx with nCreditCached := cell })

def getCredit (w : WalletState) (wtx : CWalletTx) (fUseCache : Bool) : Option Int × CWalletTx :=
  -- Must wait until coinbase is safely deep enough in the chain before valuing it
  let (fImmature, wtx) := wtx.isImmature w
  if fImmature then (some 0, wtx) else wtx.lookCredit w fUseCache

/-- The credit, remembered for transactions that are not. -/
def lookImmatureCredit (w : WalletState) (fUseCache : Bool) (wtx : CWalletTx) :
    Option Int × CWalletTx :=
  let (nCredit, cell) := look fUseCache wtx.nImmatureCreditCached (w.credit wtx.tx)
  (nCredit, { wtx with nImmatureCreditCached := cell })

def getImmatureCredit (w : WalletState) (wtx : CWalletTx) (fUseCache : Bool) :
    Option Int × CWalletTx :=
  let (fImmature, wtx) := wtx.isImmature w
  if fImmature then
    let (fInMainChain, wtx) := wtx.isInMainChain w
    if fInMainChain then wtx.lookImmatureCredit w fUseCache else (some 0, wtx)
  else (some 0, wtx)

/-- The credit of the outputs that are not spent. -/
def lookAvailableCredit (w : WalletState) (fUseCache : Bool) (wtx : CWalletTx) :
    Option Int × CWalletTx :=
  let (nCredit, cell) := look fUseCache wtx.nAvailableCreditCached (w.availableCredit wtx)
  (nCredit, { wtx with nAvailableCreditCached := cell })

def getAvailableCredit (w : WalletState) (wtx : CWalletTx) (fUseCache : Bool) :
    Option Int × CWalletTx :=
  -- Must wait until coinbase is safely deep enough in the chain before valuing it
  let (fImmature, wtx) := wtx.isImmature w
  if fImmature then (some 0, wtx) else wtx.lookAvailableCredit w fUseCache

def getChange (w : WalletState) (wtx : CWalletTx) : Option Int × CWalletTx :=
  let (nChange, cell) := look true wtx.nChangeCached (w.change wtx.tx)
  (nChange, { wtx with nChangeCached := cell })

def uncached (wtx : CWalletTx) : CWalletTx :=
  { wtx with
    nDebitCached := none
    nCreditCached := none
    nImmatureCreditCached := none
    nAvailableCreditCached := none
    nChangeCached := none }

/-- What is remembered is what would be computed. -/
structure CachesValid (w : WalletState) (wtx : CWalletTx) : Prop where
  debit : Valid wtx.nDebitCached (w.debit wtx.tx)
  credit : Valid wtx.nCreditCached (w.credit wtx.tx)
  immatureCredit : Valid wtx.nImmatureCreditCached (w.credit wtx.tx)
  availableCredit : Valid wtx.nAvailableCreditCached (w.availableCredit wtx)
  change : Valid wtx.nChangeCached (w.change wtx.tx)

variable {w : WalletState} {wtx : CWalletTx}

omit [Hashing] in
theorem CachesValid.set_merkle (h : wtx.CachesValid w) {mtx : CMerkleTx} (hmtx : mtx.tx = wtx.tx) :
    ({ wtx with toCMerkleTx := mtx } : CWalletTx).CachesValid w := by
  have havailable : w.availableCredit { wtx with toCMerkleTx := mtx } = w.availableCredit wtx := by
    simp only [WalletState.availableCredit, unspent, isSpent, hmtx]
  exact ⟨hmtx ▸ h.debit, hmtx ▸ h.credit, hmtx ▸ h.immatureCredit, havailable ▸ h.availableCredit,
    hmtx ▸ h.change⟩

omit [EllipticCurve] [ByteHashing160] [Hashing] in
theorem mem_vout_of_mem_unspent {txout : CTxOut} (h : txout ∈ wtx.unspent) : txout ∈ wtx.tx.vout := by
  obtain ⟨p, hp, rfl⟩ := List.mem_map.mp h
  exact List.fst_mem_of_mem_zipIdx (List.mem_of_mem_filter hp)

/-- The owner of what is remembered is the same in another wallet. -/
structure SameOwner (w w' : WalletState) (wtx : CWalletTx) : Prop where
  credit : wtx.nCreditCached ≠ none ∨ wtx.nImmatureCreditCached ≠ none ∨
    wtx.nAvailableCreditCached ≠ none → ∀ txout ∈ wtx.tx.vout, w'.isMine txout = w.isMine txout
  change : wtx.nChangeCached ≠ none → ∀ txout ∈ wtx.tx.vout, w'.isChange txout = w.isChange txout
  debit : wtx.nDebitCached ≠ none → ∀ txin ∈ wtx.tx.vin, ∀ txout, w.prevOut txin = some txout →
    w'.isMine txout = w.isMine txout

omit [Hashing] in
theorem sameOwner_of_keys (w w' : WalletState) (hkeys : w'.keystore = w.keystore)
    (hbook : w'.mapAddressBook = w.mapAddressBook) (wtx : CWalletTx) : wtx.SameOwner w w' := by
  have hmine : ∀ txout, w'.isMine txout = w.isMine txout := fun txout => by
    rw [WalletState.isMine, WalletState.isMine, hkeys]
  have hchange : ∀ txout, w'.isChange txout = w.isChange txout := fun txout => by
    rw [WalletState.isChange, WalletState.isChange, hkeys, hbook]
  exact ⟨fun _ txout _ => hmine txout, fun _ txout _ => hchange txout,
    fun _ _ _ txout _ => hmine txout⟩

omit [Hashing] in
theorem creditOf_congr {w' : WalletState} {txout : CTxOut} (h : w'.isMine txout = w.isMine txout) :
    w'.creditOf txout = w.creditOf txout := by
  rw [WalletState.creditOf, WalletState.creditOf, h]

omit [Hashing] in
/-- Another wallet, with the same owner and the same outputs that are spent, computes the same. -/
theorem CachesValid.of_sameOwner {w' : WalletState} (h : wtx.CachesValid w)
    (howner : wtx.SameOwner w w')
    (hprev : wtx.nDebitCached ≠ none → ∀ txin ∈ wtx.tx.vin,
      w'.prevOut txin = w.prevOut txin ∨ w'.debitOf txin = w.debitOf txin) :
    wtx.CachesValid w' := by
  have hcached : ∀ {cell : Option Int} {n : Int}, cell = some n → cell ≠ none := by
    rintro _ _ rfl
    exact Option.some_ne_none _
  refine ⟨fun n hn => ?_, fun n hn => ?_, fun n hn => ?_, fun n hn => ?_, fun n hn => ?_⟩
  · rw [← h.debit n hn]
    refine sumMoney_congr fun txin hmem => ?_
    obtain hprev | hdebit := hprev (hcached hn) txin hmem
    · rw [WalletState.debitOf, WalletState.debitOf, hprev]
      cases hout : w.prevOut txin with
      | none => rfl
      | some txout =>
        dsimp only
        rw [howner.debit (hcached hn) txin hmem txout hout]
    · rw [hdebit]
  · rw [← h.credit n hn]
    exact sumMoney_congr fun txout hmem =>
      creditOf_congr (howner.credit (.inl (hcached hn)) txout hmem)
  · rw [← h.immatureCredit n hn]
    exact sumMoney_congr fun txout hmem =>
      creditOf_congr (howner.credit (.inr (.inl (hcached hn))) txout hmem)
  · rw [← h.availableCredit n hn]
    exact sumMoney_congr fun txout hmem => creditOf_congr
      (howner.credit (.inr (.inr (hcached hn))) txout (mem_vout_of_mem_unspent hmem))
  · rw [← h.change n hn]
    refine sumMoney_congr fun txout hmem => ?_
    rw [WalletState.changeOf, WalletState.changeOf, howner.change (hcached hn) txout hmem]

omit [Hashing] in
theorem CachesValid.markDirty (h : wtx.CachesValid w) : wtx.markDirty.CachesValid w :=
  ⟨valid_none, valid_none, h.immatureCredit, valid_none, valid_none⟩

/-! ## Spent flags -/

omit [EllipticCurve] [ByteHashing160] [Hashing] in
theorem unspent_congr {wtx' : CWalletTx} (htx : wtx'.tx = wtx.tx)
    (h : ∀ i < wtx.tx.vout.length, wtx'.isSpent i = wtx.isSpent i) : wtx'.unspent = wtx.unspent := by
  unfold unspent
  rw [htx]
  congr 1
  refine List.filter_congr fun p hp => ?_
  have hlt := List.snd_lt_of_mem_zipIdx hp
  rw [h p.2 (by simpa using hlt)]

omit [Hashing] in
theorem CachesValid.set_spent (h : wtx.CachesValid w) {vfSpent : List Bool}
    (hspent : ∀ i < wtx.tx.vout.length, vfSpent.getD i false = wtx.isSpent i) :
    ({ wtx with vfSpent := vfSpent } : CWalletTx).CachesValid w := by
  have hunspent : ({ wtx with vfSpent := vfSpent } : CWalletTx).unspent = wtx.unspent :=
    unspent_congr rfl hspent
  refine { h with availableCredit := ?_ }
  rw [WalletState.availableCredit, hunspent]
  exact h.availableCredit

omit [Hashing] in
theorem CachesValid.spend (h : wtx.CachesValid w) (vfSpent : List Bool) :
    ({ wtx with vfSpent := vfSpent, nAvailableCreditCached := none } : CWalletTx).CachesValid w :=
  ⟨h.debit, h.credit, h.immatureCredit, valid_none, h.change⟩

omit [EllipticCurve] [ByteHashing160] [Hashing] in
theorem getD_takeD {α : Type} {i n : Nat} (h : i < n) (l : List α) (a : α) :
    (l.takeD n a).getD i a = l.getD i a := by
  induction n generalizing i l with
  | zero => exact absurd h (Nat.not_lt_zero i)
  | succ n ih =>
    cases l with
    | nil =>
      rw [List.takeD_nil, List.getD_eq_getElem?_getD, List.getElem?_replicate, if_pos h]
      rfl
    | cons b l =>
      cases i with
      | zero => rfl
      | succ i => exact ih (Nat.lt_of_succ_lt_succ h) l

omit [Hashing] in
theorem CachesValid.markSpent (h : wtx.CachesValid w) (nOut : Nat) :
    (wtx.markSpent nOut).CachesValid w := by
  have hresize : ({ wtx with vfSpent := wtx.vfSpent.takeD wtx.tx.vout.length false } :
      CWalletTx).CachesValid w := by
    exact h.set_spent fun i hi => getD_takeD hi wtx.vfSpent false
  unfold CWalletTx.markSpent
  dsimp only
  split
  · exact hresize
  · exact hresize.spend _

omit [EllipticCurve] [ByteHashing160] [Hashing] in
theorem mergeSpent_eq (vfSpent vfNewSpent : List Bool) (h : (mergeSpent vfSpent vfNewSpent).2 = false) :
    (mergeSpent vfSpent vfNewSpent).1 = vfSpent := by
  induction vfSpent generalizing vfNewSpent with
  | nil => cases vfNewSpent <;> rfl
  | cons fSpent vfSpent ih =>
    cases vfNewSpent with
    | nil => rfl
    | cons fNewSpent vfNewSpent =>
      simp only [mergeSpent, Bool.or_eq_false_iff] at h ⊢
      rw [ih vfNewSpent h.2]
      congr 1
      revert h
      cases fSpent <;> cases fNewSpent <;> simp

omit [Hashing] in
theorem CachesValid.updateSpent (h : wtx.CachesValid w) (vfNewSpent : List Bool) :
    (wtx.updateSpent vfNewSpent).1.CachesValid w := by
  unfold CWalletTx.updateSpent
  dsimp only
  cases hupdated : (mergeSpent wtx.vfSpent vfNewSpent).2 with
  | true => exact h.spend _
  | false =>
    rw [mergeSpent_eq _ _ hupdated]
    exact h

/-- A getter answers what it would compute, and leaves the caches valid. -/
structure Answers (w : WalletState) (wtx : CWalletTx)
    (getter : CWalletTx → Option Int × CWalletTx) : Prop where
  value : (getter wtx).1 = (getter wtx.uncached).1
  cachesValid : (getter wtx).2.CachesValid w
  tx_eq : (getter wtx).2.tx = wtx.tx
  vfSpent_eq : (getter wtx).2.vfSpent = wtx.vfSpent

/-- A test that neither reads nor writes what is remembered. -/
structure Blind (w : WalletState) (test : CWalletTx → Bool × CWalletTx) : Prop where
  uncached : ∀ wtx, test wtx.uncached = ((test wtx).1, (test wtx).2.uncached)
  cachesValid : ∀ wtx, wtx.CachesValid w → (test wtx).2.CachesValid w
  tx_eq : ∀ wtx, (test wtx).2.tx = wtx.tx
  vfSpent_eq : ∀ wtx, (test wtx).2.vfSpent = wtx.vfSpent

theorem blind_isImmature (w : WalletState) : Blind w (isImmature w) :=
  ⟨fun _ => rfl, fun _ h => h.set_merkle (CMerkleTx.tx_getBlocksToMaturity _ _),
    fun _ => CMerkleTx.tx_getBlocksToMaturity _ _, fun _ => rfl⟩

theorem blind_isInMainChain (w : WalletState) : Blind w (isInMainChain w) :=
  ⟨fun _ => rfl, fun _ h => h.set_merkle (CMerkleTx.tx_getDepthInMainChain _ _),
    fun _ => CMerkleTx.tx_getDepthInMainChain _ _, fun _ => rfl⟩

omit [Hashing] in
/-- Either getter after a test. -/
theorem Answers.gate {test : CWalletTx → Bool × CWalletTx}
    {getter getter' : CWalletTx → Option Int × CWalletTx} (htest : Blind w test)
    (hgetter : ∀ wtx, wtx.CachesValid w → Answers w wtx getter)
    (hgetter' : ∀ wtx, wtx.CachesValid w → Answers w wtx getter') (h : wtx.CachesValid w) :
    Answers w wtx fun wtx =>
      if (test wtx).1 then getter (test wtx).2 else getter' (test wtx).2 := by
  have hvalid := htest.cachesValid wtx h
  cases hresult : (test wtx).1 with
  | true =>
    obtain ⟨hvalue, hcaches, htx, hspent⟩ := hgetter _ hvalid
    refine ⟨?_, ?_, ?_, ?_⟩
    · rw [htest.uncached, hresult, if_pos rfl, if_pos rfl, hvalue]
    · rwa [hresult, if_pos rfl]
    · rw [hresult, if_pos rfl, htx, htest.tx_eq]
    · rw [hresult, if_pos rfl, hspent, htest.vfSpent_eq]
  | false =>
    obtain ⟨hvalue, hcaches, htx, hspent⟩ := hgetter' _ hvalid
    refine ⟨?_, ?_, ?_, ?_⟩
    · rw [htest.uncached, hresult, if_neg Bool.false_ne_true, if_neg Bool.false_ne_true, hvalue]
    · rwa [hresult, if_neg Bool.false_ne_true]
    · rw [hresult, if_neg Bool.false_ne_true, htx, htest.tx_eq]
    · rw [hresult, if_neg Bool.false_ne_true, hspent, htest.vfSpent_eq]

omit [Hashing] in
theorem answers_zero (h : wtx.CachesValid w) : Answers w wtx fun wtx => (some 0, wtx) :=
  ⟨rfl, h, rfl, rfl⟩

omit [Hashing] in
theorem CachesValid.getDebit (h : wtx.CachesValid w) : Answers w wtx (CWalletTx.getDebit w) := by
  have htx : wtx.uncached.tx = wtx.tx := rfl
  by_cases hvin : wtx.tx.vin = []
  · refine ⟨?_, ?_, ?_, ?_⟩
    · rw [CWalletTx.getDebit, CWalletTx.getDebit, htx, if_pos hvin, if_pos hvin]
    · rwa [CWalletTx.getDebit, if_pos hvin]
    · rw [CWalletTx.getDebit, if_pos hvin]
    · rw [CWalletTx.getDebit, if_pos hvin]
  · refine ⟨?_, ?_, ?_, ?_⟩
    · rw [CWalletTx.getDebit, CWalletTx.getDebit, htx, if_neg hvin, if_neg hvin]
      exact h.debit.look_fst true
    · rw [CWalletTx.getDebit, if_neg hvin]
      exact { h with debit := h.debit.look_snd true }
    · rw [CWalletTx.getDebit, if_neg hvin]
    · rw [CWalletTx.getDebit, if_neg hvin]

omit [Hashing] in
theorem CachesValid.lookCredit (h : wtx.CachesValid w) (fUseCache : Bool) :
    Answers w wtx (CWalletTx.lookCredit w fUseCache) :=
  ⟨(h.credit.look_fst _).trans (look_none_fst _).symm, { h with credit := h.credit.look_snd _ },
    rfl, rfl⟩

theorem CachesValid.getCredit (h : wtx.CachesValid w) (fUseCache : Bool) :
    Answers w wtx fun wtx => wtx.getCredit w fUseCache :=
  .gate (blind_isImmature w) (fun _ => answers_zero) (fun _ h => h.lookCredit fUseCache) h

omit [Hashing] in
theorem CachesValid.lookImmatureCredit (h : wtx.CachesValid w) (fUseCache : Bool) :
    Answers w wtx (CWalletTx.lookImmatureCredit w fUseCache) :=
  ⟨(h.immatureCredit.look_fst _).trans (look_none_fst _).symm,
    { h with immatureCredit := h.immatureCredit.look_snd _ }, rfl, rfl⟩

theorem CachesValid.getImmatureCredit (h : wtx.CachesValid w) (fUseCache : Bool) :
    Answers w wtx fun wtx => wtx.getImmatureCredit w fUseCache := by
  have hgate : ∀ wtx, wtx.CachesValid w → Answers w wtx _ := fun _ =>
    .gate (blind_isInMainChain w) (fun _ h => h.lookImmatureCredit fUseCache) fun _ => answers_zero
  exact .gate (blind_isImmature w) hgate (fun _ => answers_zero) h

omit [Hashing] in
theorem CachesValid.lookAvailableCredit (h : wtx.CachesValid w) (fUseCache : Bool) :
    Answers w wtx (CWalletTx.lookAvailableCredit w fUseCache) :=
  ⟨(h.availableCredit.look_fst _).trans (look_none_fst _).symm,
    { h with availableCredit := h.availableCredit.look_snd _ }, rfl, rfl⟩

theorem CachesValid.getAvailableCredit (h : wtx.CachesValid w) (fUseCache : Bool) :
    Answers w wtx fun wtx => wtx.getAvailableCredit w fUseCache :=
  .gate (blind_isImmature w) (fun _ => answers_zero) (fun _ h => h.lookAvailableCredit fUseCache) h

omit [Hashing] in
theorem CachesValid.getChange (h : wtx.CachesValid w) : Answers w wtx (CWalletTx.getChange w) :=
  ⟨h.change.look_fst true, { h with change := h.change.look_snd true }, rfl, rfl⟩

end CWalletTx

end Terracoin
