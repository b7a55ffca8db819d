import Terracoin.Primitives.Transaction
import Mathlib.Data.List.DropRight

/-!
# `CCoins`: the unspent outputs of one transaction

`CCoins`, `CCoins::Spend` and the undo record `CTxInUndo`, and the body of the input loop of
`DisconnectBlock` that puts a spent output back.

What a `CCoins` means is the partial map `output` from positions to available outputs, together
with the metadata as long as some output is available. `Same` compares two values by that
meaning. `restore_spend` is the algebra the undo data rests on: spending an output and putting it
back from its undo record gives the same coins, whether or not it was the last one.
-/

namespace Terracoin

structure CCoins where
  fCoinBase : Bool
  vout : List CTxOut
  nHeight : Int
  nVersion : Int32
deriving DecidableEq, Repr

/-- Undo information for one input: the output it spent and, if that was the last available
output of its transaction, the metadata of the transaction. -/
structure CTxInUndo where
  txout : CTxOut
  fCoinBase : Bool
  nHeight : Int
  nVersion : Int32
deriving DecidableEq, Repr

structure CTxUndo where
  vprevout : List CTxInUndo
deriving DecidableEq, Repr

structure CBlockUndo where
  vtxundo : List CTxUndo
deriving DecidableEq, Repr

namespace CCoins

/-! ## Definitions -/

/-- `CCoins()`. -/
def empty : CCoins := ⟨false, [], 0, 0⟩

/-- `CCoins(tx, nHeight)`. -/
def ofTx (tx : CTransaction) (nHeight : Int) : CCoins :=
  ⟨tx.isCoinBase, tx.vout, nHeight, tx.nVersion⟩

/-- `Cleanup`: drop the spent outputs at the end. -/
def cleanup (c : CCoins) : CCoins := { c with vout := c.vout.rdropWhile CTxOut.isNull }

def isAvailable (c : CCoins) (nPos : Nat) : Bool :=
  match c.vout[nPos]? with
  | some out => !out.isNull
  | none => false

def isPruned (c : CCoins) : Bool := c.vout.all CTxOut.isNull

/-- `Spend(out, undo)` at position `n`; `none` when it returns `false`. -/
def spend (c : CCoins) (n : Nat) : Option (CCoins × CTxInUndo) :=
  match c.vout[n]? with
  | none => none
  | some out =>
    if out.isNull then none
    else
      let c' := cleanup { c with vout := c.vout.set n CTxOut.null }
      let undo : CTxInUndo :=
        if c'.vout.length = 0 then ⟨out, c.fCoinBase, c.nHeight, c.nVersion⟩
        else ⟨out, false, 0, 0⟩
      some (c', undo)

/-- `vout.resize(n)`, when that makes `vout` longer. -/
def resize (vout : List CTxOut) (n : Nat) : List CTxOut :=
  vout ++ List.replicate (n - vout.length) CTxOut.null

/-- `vout[n] = txout`, after making room for it. -/
def put (vout : List CTxOut) (n : Nat) (txout : CTxOut) : List CTxOut :=
  (if vout.length < n + 1 then resize vout (n + 1) else vout).set n txout

/-- The body of the input loop of `DisconnectBlock`, from the coins found for the previous
transaction (`CCoins()` if there are none). The flag is `false` when it logs an inconsistency. -/
def restore (coins : CCoins) (n : Nat) (undo : CTxInUndo) : CCoins × Bool :=
  let (coins, fClean) :=
    if undo.nHeight ≠ 0 then
      -- the last output of the previous transaction is being put back
      ((⟨undo.fCoinBase, [], undo.nHeight, undo.nVersion⟩ : CCoins), coins.isPruned)
    else (coins, !coins.isPruned)
  let fClean := fClean && !coins.isAvailable n
  ({ coins with vout := put coins.vout n undo.txout }, fClean)

/-! ## Meaning -/

def output (c : CCoins) (n : Nat) : Option CTxOut :=
  c.vout[n]?.filter (fun out => !out.isNull)

theorem output_eq_some {c : CCoins} {n : Nat} {out : CTxOut} :
    c.output n = some out ↔ c.vout[n]? = some out ∧ out.isNull = false := by
  simp [output, Option.filter_eq_some_iff]

theorem isAvailable_eq (c : CCoins) (n : Nat) : c.isAvailable n = (c.output n).isSome := by
  unfold isAvailable output
  cases c.vout[n]? with
  | none => rfl
  | some out => cases h : out.isNull <;> simp [h, Option.filter]

theorem isPruned_iff {c : CCoins} : c.isPruned = true ↔ ∀ n, c.output n = none := by
  rw [isPruned, List.all_eq_true]
  constructor
  · intro h n
    cases ho : c.output n with
    | none => rfl
    | some out =>
      obtain ⟨hn, hnull⟩ := output_eq_some.mp ho
      rw [h out (List.mem_of_getElem? hn)] at hnull
      cases hnull
  · intro h out hout
    obtain ⟨n, hn⟩ := List.mem_iff_getElem?.mp hout
    by_contra hnull
    have := output_eq_some.mpr ⟨hn, Bool.eq_false_iff.mpr hnull⟩
    rw [h n] at this
    cases this

theorem isPruned_eq_false_iff {c : CCoins} : c.isPruned = false ↔ ∃ n, (c.output n).isSome := by
  rw [← not_iff_not, Bool.not_eq_false, isPruned_iff]
  simp

theorem isPruned_eq_false_of_output {c : CCoins} {n : Nat} {out : CTxOut}
    (h : c.output n = some out) : c.isPruned = false :=
  isPruned_eq_false_iff.mpr ⟨n, by rw [h]; rfl⟩

@[simp] theorem output_empty (n : Nat) : empty.output n = none := rfl

@[simp] theorem isPruned_empty : empty.isPruned = true := rfl

/-! ## Trimmed coins -/

/-- No spent output at the end: what `Cleanup` leaves. -/
def Trimmed (c : CCoins) : Prop := c.cleanup = c

theorem trimmed_iff {c : CCoins} :
    c.Trimmed ↔ ∀ h : c.vout ≠ [], (c.vout.getLast h).isNull = false := by
  unfold Trimmed cleanup
  constructor
  · intro h
    have h' : c.vout.rdropWhile CTxOut.isNull = c.vout := congrArg vout h
    rw [List.rdropWhile_eq_self_iff] at h'
    intro hne
    exact Bool.eq_false_iff.mpr (h' hne)
  · intro h
    have h' : c.vout.rdropWhile CTxOut.isNull = c.vout := by
      rw [List.rdropWhile_eq_self_iff]
      exact fun hne => Bool.eq_false_iff.mp (h hne)
    rw [h']

@[simp] theorem cleanup_fCoinBase (c : CCoins) : c.cleanup.fCoinBase = c.fCoinBase := rfl
@[simp] theorem cleanup_nHeight (c : CCoins) : c.cleanup.nHeight = c.nHeight := rfl
@[simp] theorem cleanup_nVersion (c : CCoins) : c.cleanup.nVersion = c.nVersion := rfl

theorem cleanup_trimmed (c : CCoins) : c.cleanup.Trimmed := by
  unfold Trimmed cleanup
  simp [List.rdropWhile_idempotent CTxOut.isNull c.vout]

/-- Dropping spent outputs at the end changes no available output. -/
theorem cleanup_output (c : CCoins) (n : Nat) : c.cleanup.output n = c.output n := by
  have hsplit : c.vout = c.vout.rdropWhile CTxOut.isNull ++ c.vout.rtakeWhile CTxOut.isNull := by
    rw [List.rdropWhile, List.rtakeWhile, ← List.reverse_append, List.takeWhile_append_dropWhile,
      List.reverse_reverse]
  ext out
  rw [output_eq_some, output_eq_some]
  constructor
  · rintro ⟨hn, hnull⟩
    refine ⟨?_, hnull⟩
    change (c.vout.rdropWhile CTxOut.isNull)[n]? = some out at hn
    rw [hsplit, List.getElem?_append_left (List.getElem?_eq_some_iff.mp hn).1]
    exact hn
  · rintro ⟨hn, hnull⟩
    refine ⟨?_, hnull⟩
    by_cases hlt : n < (c.vout.rdropWhile CTxOut.isNull).length
    · rw [hsplit, List.getElem?_append_left hlt] at hn
      exact hn
    · rw [hsplit, List.getElem?_append_right (by omega)] at hn
      have hmem := List.mem_of_getElem? hn
      rw [List.mem_rtakeWhile_imp hmem] at hnull
      cases hnull

theorem Trimmed.isPruned_iff {c : CCoins} (h : c.Trimmed) : c.isPruned = true ↔ c.vout = [] := by
  constructor
  · intro hp
    by_contra hne
    have hlast := trimmed_iff.mp h hne
    rw [isPruned, List.all_eq_true] at hp
    rw [hp _ (List.getLast_mem hne)] at hlast
    cases hlast
  · intro he
    simp [isPruned, he]

theorem trimmed_of_nonneg {c : CCoins} (h : ∀ out ∈ c.vout, 0 ≤ out.nValue) : c.Trimmed :=
  trimmed_iff.mpr fun hne => CTxOut.isNull_of_nonneg (h _ (List.getLast_mem hne))

/-! ## Equal meaning -/

/-- The same available outputs, and the same metadata if there are any. -/
structure Same (c d : CCoins) : Prop where
  output : ∀ n, c.output n = d.output n
  metadata : c.isPruned = false →
    c.fCoinBase = d.fCoinBase ∧ c.nHeight = d.nHeight ∧ c.nVersion = d.nVersion

theorem Same.refl (c : CCoins) : Same c c := ⟨fun _ => rfl, fun _ => ⟨rfl, rfl, rfl⟩⟩

theorem Same.isPruned {c d : CCoins} (h : Same c d) : c.isPruned = d.isPruned := by
  rw [Bool.eq_iff_iff, isPruned_iff, isPruned_iff]
  simp only [h.output]

theorem Same.symm {c d : CCoins} (h : Same c d) : Same d c :=
  ⟨fun n => (h.output n).symm, fun hd => by
    obtain ⟨h1, h2, h3⟩ := h.metadata (h.isPruned.trans hd)
    exact ⟨h1.symm, h2.symm, h3.symm⟩⟩

theorem Same.trans {c d e : CCoins} (h : Same c d) (h' : Same d e) : Same c e :=
  ⟨fun n => (h.output n).trans (h'.output n), fun hc => by
    obtain ⟨h1, h2, h3⟩ := h.metadata hc
    obtain ⟨h4, h5, h6⟩ := h'.metadata (h.isPruned.symm.trans hc)
    exact ⟨h1.trans h4, h2.trans h5, h3.trans h6⟩⟩

theorem same_of_isPruned {c d : CCoins} (hc : c.isPruned = true) (hd : d.isPruned = true) :
    Same c d :=
  ⟨fun n => by rw [isPruned_iff.mp hc, isPruned_iff.mp hd], fun h => by rw [hc] at h; cases h⟩

/-- Trimmed coins that mean the same as coins none of whose outputs is spent are equal to them. -/
theorem Same.eq_of_unspent {c d : CCoins} (h : Same d c) (hne : c.vout ≠ [])
    (hc : ∀ out ∈ c.vout, out.isNull = false) (hd : d.Trimmed) : d = c := by
  have hout : ∀ (n : Nat) (out : CTxOut), c.vout[n]? = some out → d.vout[n]? = some out := by
    intro n out hn
    have h1 : c.output n = some out := output_eq_some.mpr ⟨hn, hc out (List.mem_of_getElem? hn)⟩
    exact (output_eq_some.mp ((h.output n).trans h1)).1
  have hlen : d.vout.length ≤ c.vout.length := by
    by_contra hlt
    have hdne : d.vout ≠ [] := by
      intro he
      simp [he] at hlt
    have hlast := trimmed_iff.mp hd hdne
    rw [List.getLast_eq_getElem] at hlast
    have h1 : d.output (d.vout.length - 1) = some (d.vout.get ⟨d.vout.length - 1, by omega⟩) :=
      output_eq_some.mpr ⟨List.getElem?_eq_getElem _, hlast⟩
    rw [h.output] at h1
    have := (List.getElem?_eq_some_iff.mp (output_eq_some.mp h1).1).1
    omega
  have hvout : d.vout = c.vout := by
    apply List.ext_getElem?
    intro n
    cases hn : c.vout[n]? with
    | some out => exact hout n out hn
    | none =>
      rw [List.getElem?_eq_none_iff] at hn ⊢
      omega
  have hpruned : d.isPruned = false := by
    obtain ⟨out, rest, he⟩ := List.exists_cons_of_ne_nil hne
    refine isPruned_eq_false_of_output (n := 0) (output_eq_some.mpr ⟨?_, hc out ?_⟩)
    · exact hout 0 out (by rw [he]; rfl)
    · rw [he]
      exact List.mem_cons_self
  obtain ⟨h1, h2, h3⟩ := h.metadata hpruned
  cases c
  cases d
  simp_all

/-! ## Spending -/

/-- What a successful `Spend` does. -/
structure Spent (c : CCoins) (n : Nat) (c' : CCoins) (undo : CTxInUndo) : Prop where
  txout : c.output n = some undo.txout
  output : ∀ m, c'.output m = if m = n then none else c.output m
  trimmed : c'.Trimmed
  fCoinBase : c'.fCoinBase = c.fCoinBase
  nHeight : c'.nHeight = c.nHeight
  nVersion : c'.nVersion = c.nVersion
  last : c'.isPruned = true →
    undo.fCoinBase = c.fCoinBase ∧ undo.nHeight = c.nHeight ∧ undo.nVersion = c.nVersion
  notLast : c'.isPruned = false →
    undo.fCoinBase = false ∧ undo.nHeight = 0 ∧ undo.nVersion = 0

theorem spent_of_spend {c c' : CCoins} {n : Nat} {undo : CTxInUndo}
    (h : c.spend n = some (c', undo)) : Spent c n c' undo := by
  unfold spend at h
  split at h
  · cases h
  · rename_i out hn
    split at h
    · cases h
    · rename_i hnull
      simp only [Option.some.injEq, Prod.mk.injEq] at h
      obtain ⟨rfl, rfl⟩ := h
      have hlt := (List.getElem?_eq_some_iff.mp hn).1
      have htrim := cleanup_trimmed { c with vout := c.vout.set n CTxOut.null }
      have hpruned : (cleanup { c with vout := c.vout.set n CTxOut.null }).isPruned = true ↔
          (cleanup { c with vout := c.vout.set n CTxOut.null }).vout.length = 0 := by
        rw [htrim.isPruned_iff, List.length_eq_zero_iff]
      refine ⟨?_, ?_, htrim, rfl, rfl, rfl, ?_, ?_⟩
      · rw [output_eq_some]
        split <;> exact ⟨hn, Bool.eq_false_iff.mpr hnull⟩
      · intro m
        rw [cleanup_output]
        unfold output
        by_cases hm : m = n
        · subst hm
          simp [List.getElem?_set_self hlt]
        · rw [if_neg hm, List.getElem?_set_ne (Ne.symm hm)]
      · intro hp
        rw [if_pos (hpruned.mp hp)]
        exact ⟨rfl, rfl, rfl⟩
      · intro hp
        rw [if_neg (fun h0 => by rw [hpruned.mpr h0] at hp; cases hp)]
        exact ⟨rfl, rfl, rfl⟩

theorem spend_isSome {c : CCoins} {n : Nat} : (c.spend n).isSome = c.isAvailable n := by
  unfold spend isAvailable
  cases c.vout[n]? with
  | none => rfl
  | some out => cases h : out.isNull <;> simp [h]

theorem Spent.isPruned {c c' : CCoins} {n : Nat} {undo : CTxInUndo} (h : Spent c n c' undo) :
    c.isPruned = false :=
  isPruned_eq_false_of_output h.txout

theorem Spent.txout_isNull {c c' : CCoins} {n : Nat} {undo : CTxInUndo} (h : Spent c n c' undo) :
    undo.txout.isNull = false :=
  (output_eq_some.mp h.txout).2

/-- Spending the same output of coins with the same meaning gives the same undo record. -/
theorem Spent.congr {c c' d d' : CCoins} {n : Nat} {u v : CTxInUndo} (h : Spent c n c' u)
    (h' : Spent d n d' v) (hs : Same c d) : Same c' d' ∧ u = v := by
  have hsame : Same c' d' := by
    refine ⟨fun m => by rw [h.output, h'.output, hs.output], fun _ => ?_⟩
    obtain ⟨h1, h2, h3⟩ := hs.metadata h.isPruned
    rw [h.fCoinBase, h.nHeight, h.nVersion, h'.fCoinBase, h'.nHeight, h'.nVersion]
    exact ⟨h1, h2, h3⟩
  refine ⟨hsame, ?_⟩
  have htx : u.txout = v.txout := by
    have := h.txout
    rw [hs.output, h'.txout] at this
    exact (Option.some.inj this).symm
  have hmeta : u.fCoinBase = v.fCoinBase ∧ u.nHeight = v.nHeight ∧ u.nVersion = v.nVersion := by
    cases hp : c'.isPruned with
    | true =>
      obtain ⟨h1, h2, h3⟩ := h.last hp
      obtain ⟨h4, h5, h6⟩ := h'.last (hsame.isPruned.symm.trans hp)
      obtain ⟨h7, h8, h9⟩ := hs.metadata h.isPruned
      exact ⟨by rw [h1, h4, h7], by rw [h2, h5, h8], by rw [h3, h6, h9]⟩
    | false =>
      obtain ⟨h1, h2, h3⟩ := h.notLast hp
      obtain ⟨h4, h5, h6⟩ := h'.notLast (hsame.isPruned.symm.trans hp)
      exact ⟨by rw [h1, h4], by rw [h2, h5], by rw [h3, h6]⟩
  obtain ⟨h1, h2, h3⟩ := hmeta
  cases u
  cases v
  simp_all

/-! ## Putting an output back -/

theorem resize_output {vout : List CTxOut} {b : Bool} {h : Int} {v : Int32} (n m : Nat) :
    output ⟨b, resize vout n, h, v⟩ m = output ⟨b, vout, h, v⟩ m := by
  unfold output resize
  dsimp only
  by_cases hm : m < vout.length
  · rw [List.getElem?_append_left hm]
  · have hnone : vout[m]? = none := List.getElem?_eq_none_iff.mpr (by omega)
    rw [List.getElem?_append_right (by omega), hnone, List.getElem?_replicate]
    split <;> rfl

theorem lt_length_resize {vout : List CTxOut} {n : Nat} :
    n < (if vout.length < n + 1 then resize vout (n + 1) else vout).length := by
  split
  · simp only [resize, List.length_append, List.length_replicate]
    omega
  · omega

theorem put_output_of_ne {c : CCoins} {n m : Nat} (txout : CTxOut) (hm : m ≠ n) :
    output { c with vout := put c.vout n txout } m = c.output m := by
  unfold output put
  dsimp only
  rw [List.getElem?_set_ne (Ne.symm hm)]
  split
  · exact resize_output (b := c.fCoinBase) (h := c.nHeight) (v := c.nVersion) (n + 1) m
  · rfl

theorem put_output {c : CCoins} {n : Nat} {txout : CTxOut} (hnull : txout.isNull = false)
    (m : Nat) : output { c with vout := put c.vout n txout } m =
      if m = n then some txout else c.output m := by
  by_cases hm : m = n
  · subst hm
    rw [if_pos rfl, output_eq_some]
    exact ⟨List.getElem?_set_self lt_length_resize, hnull⟩
  · rw [if_neg hm, put_output_of_ne txout hm]

theorem put_trimmed {c : CCoins} {n : Nat} {txout : CTxOut} (hc : c.Trimmed)
    (hnull : txout.isNull = false) : Trimmed { c with vout := put c.vout n txout } := by
  rw [trimmed_iff]
  unfold put
  dsimp only
  intro hne
  by_cases hlt : c.vout.length < n + 1
  · simp only [if_pos hlt, List.getLast_eq_getElem, List.getElem_set, List.length_set, resize,
      List.length_append, List.length_replicate]
    rw [if_pos (by omega)]
    exact hnull
  · have hcne : c.vout ≠ [] := by
      intro he
      simp [he] at hlt
    have hlast := trimmed_iff.mp hc hcne
    rw [List.getLast_eq_getElem] at hlast
    simp only [if_neg hlt, List.getLast_eq_getElem, List.getElem_set, List.length_set]
    split
    · exact hnull
    · exact hlast

/-- The coins that `restore` writes the output into. -/
def restoreBase (coins : CCoins) (undo : CTxInUndo) : CCoins :=
  if undo.nHeight ≠ 0 then ⟨undo.fCoinBase, [], undo.nHeight, undo.nVersion⟩ else coins

theorem restore_clean {d : CCoins} {n : Nat} {undo : CTxInUndo} :
    (restore d n undo).2 = true ↔
      (if undo.nHeight ≠ 0 then d.isPruned = true else d.isPruned = false) ∧
        (restoreBase d undo).output n = none := by
  unfold restore restoreBase
  by_cases h : undo.nHeight ≠ 0
  · simp [if_pos h, isAvailable_eq]
  · simp [if_neg h, isAvailable_eq]

theorem restore_output {d : CCoins} {n : Nat} {undo : CTxInUndo} (hnull : undo.txout.isNull = false)
    (m : Nat) : (restore d n undo).1.output m =
      if m = n then some undo.txout else (restoreBase d undo).output m := by
  unfold restore restoreBase
  by_cases h : undo.nHeight ≠ 0
  · rw [if_pos h, if_pos h]
    exact put_output hnull m
  · rw [if_neg h, if_neg h]
    exact put_output hnull m

theorem restore_metadata (d : CCoins) (n : Nat) (undo : CTxInUndo) :
    (restore d n undo).1.fCoinBase = (restoreBase d undo).fCoinBase ∧
      (restore d n undo).1.nHeight = (restoreBase d undo).nHeight ∧
      (restore d n undo).1.nVersion = (restoreBase d undo).nVersion := by
  unfold restore restoreBase
  by_cases h : undo.nHeight ≠ 0
  · simp [if_pos h]
  · simp [if_neg h]

theorem restore_trimmed {d : CCoins} {n : Nat} {undo : CTxInUndo} (hd : d.Trimmed)
    (hnull : undo.txout.isNull = false) : (restore d n undo).1.Trimmed := by
  unfold restore
  by_cases h : undo.nHeight ≠ 0
  · rw [if_pos h]
    exact put_trimmed (c := ⟨undo.fCoinBase, [], undo.nHeight, undo.nVersion⟩) rfl hnull
  · rw [if_neg h]
    exact put_trimmed hd hnull

/-- Putting a spent output back into coins that mean the same as the ones left by the spending
is clean and gives the coins from before. -/
theorem restore_spend {c c' d : CCoins} {n : Nat} {undo : CTxInUndo} (h : Spent c n c' undo)
    (hheight : c.nHeight ≠ 0) (hd : Same d c') :
    (restore d n undo).2 = true ∧ Same (restore d n undo).1 c := by
  have hbase : (∀ m, m ≠ n → (restoreBase d undo).output m = c.output m) ∧
      (restoreBase d undo).output n = none ∧ (restoreBase d undo).fCoinBase = c.fCoinBase ∧
      (restoreBase d undo).nHeight = c.nHeight ∧ (restoreBase d undo).nVersion = c.nVersion ∧
      (if undo.nHeight ≠ 0 then d.isPruned = true else d.isPruned = false) := by
    unfold restoreBase
    cases hp : c'.isPruned with
    | true =>
      obtain ⟨h1, h2, h3⟩ := h.last hp
      have hnone := isPruned_iff.mp hp
      rw [if_pos (h2 ▸ hheight), if_pos (h2 ▸ hheight)]
      refine ⟨?_, rfl, h1, h2, h3, hd.isPruned.trans hp⟩
      intro m hm
      have := hnone m
      rw [h.output, if_neg hm] at this
      exact this.symm
    | false =>
      obtain ⟨-, h2, -⟩ := h.notLast hp
      have hdp := hd.isPruned.trans hp
      obtain ⟨h4, h5, h6⟩ := hd.metadata hdp
      rw [if_neg (by simp [h2]), if_neg (by simp [h2])]
      refine ⟨?_, ?_, h4.trans h.fCoinBase, h5.trans h.nHeight, h6.trans h.nVersion, hdp⟩
      · intro m hm
        rw [hd.output, h.output, if_neg hm]
      · rw [hd.output, h.output, if_pos rfl]
  obtain ⟨hother, hself, h1, h2, h3, hclean⟩ := hbase
  refine ⟨restore_clean.mpr ⟨hclean, hself⟩, ?_, ?_⟩
  · intro m
    rw [restore_output h.txout_isNull]
    by_cases hm : m = n
    · rw [if_pos hm, hm, h.txout]
    · rw [if_neg hm, hother m hm]
  · intro _
    obtain ⟨h4, h5, h6⟩ := restore_metadata d n undo
    exact ⟨h4.trans h1, h5.trans h2, h6.trans h3⟩

end CCoins

end Terracoin
