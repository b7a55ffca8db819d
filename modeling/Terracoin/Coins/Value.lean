import Terracoin.Coins.View
import Mathlib.Algebra.BigOperators.Intervals
import Mathlib.Algebra.Order.BigOperators.Group.Finset
import Mathlib.Data.Fintype.EquivFin

/-!
# The value of a coins view

The sum of all available outputs of a view. Spending an output lowers it by the value of the
output, replacing an entry changes it by the difference of the two values, and a view below
another one is worth at most as much, as long as no value is negative.

Sums are over positions (`value_eq_sum`), where availability is what counts and not the
spent outputs that a vector may still contain.
-/

namespace Terracoin

open Finset

namespace CCoins

/-! ## The coins of one transaction -/

def value (c : CCoins) : Int := ((c.vout.filter fun out => !out.isNull).map CTxOut.nValue).sum

def valueAt (c : CCoins) (n : Nat) : Int := (c.output n).elim 0 CTxOut.nValue

/-- No available output is worth less than nothing. -/
def NonNeg (c : CCoins) : Prop := ∀ n out, c.output n = some out → 0 ≤ out.nValue

theorem valueAt_of_output {c : CCoins} {n : Nat} {out : CTxOut} (h : c.output n = some out) :
    c.valueAt n = out.nValue := by
  rw [valueAt, h]
  rfl

theorem NonNeg.valueAt {c : CCoins} (h : c.NonNeg) (n : Nat) : 0 ≤ c.valueAt n := by
  unfold CCoins.valueAt
  cases hn : c.output n with
  | none => exact le_refl 0
  | some out => exact h n out hn

theorem valueAt_eq_zero_of_le {c : CCoins} {n : Nat} (h : c.vout.length ≤ n) : c.valueAt n = 0 := by
  rw [valueAt, output, List.getElem?_eq_none_iff.mpr h]
  rfl

/-- The value is the sum over the positions, however far one goes. -/
theorem value_eq_sum {c : CCoins} {N : Nat} (hN : c.vout.length ≤ N) :
    c.value = ∑ n ∈ range N, c.valueAt n := by
  have hlen : ∀ vout : List CTxOut, (∑ n ∈ range vout.length,
      ((vout[n]?.filter fun out => !out.isNull).elim 0 CTxOut.nValue)) =
        ((vout.filter fun out => !out.isNull).map CTxOut.nValue).sum := by
    intro vout
    induction vout with
    | nil => rfl
    | cons out vout ih =>
      rw [List.length_cons, sum_range_succ']
      simp only [List.getElem?_cons_succ, ih, List.getElem?_cons_zero, Option.filter_some]
      cases hnull : out.isNull with
      | true => simp [hnull]
      | false =>
        simp only [hnull, Bool.not_false, if_true, Option.elim_some, List.filter_cons_of_pos,
          List.map_cons, List.sum_cons]
        exact add_comm _ _
  have hsplit := sum_range_add_sum_Ico c.valueAt hN
  have hzero : ∑ n ∈ Ico c.vout.length N, c.valueAt n = 0 :=
    sum_eq_zero fun n hn => valueAt_eq_zero_of_le (mem_Ico.mp hn).1
  rw [← hsplit, hzero, add_zero]
  exact (hlen c.vout).symm

theorem NonNeg.value {c : CCoins} (h : c.NonNeg) : 0 ≤ c.value := by
  rw [value_eq_sum (le_refl _)]
  exact sum_nonneg fun n _ => h.valueAt n

theorem value_le {c d : CCoins} (hd : d.NonNeg)
    (h : ∀ n out, c.output n = some out → d.output n = some out) : c.value ≤ d.value := by
  rw [value_eq_sum (le_max_left c.vout.length d.vout.length),
    value_eq_sum (le_max_right c.vout.length d.vout.length)]
  refine sum_le_sum fun n _ => ?_
  cases hn : c.output n with
  | none =>
    rw [valueAt, hn]
    exact hd.valueAt n
  | some out => rw [valueAt_of_output hn, valueAt_of_output (h n out hn)]

theorem Spent.value {c c' : CCoins} {n : Nat} {undo : CTxInUndo} (h : Spent c n c' undo) :
    c'.value = c.value - undo.txout.nValue := by
  have hlt : n < c.vout.length :=
    (List.getElem?_eq_some_iff.mp (output_eq_some.mp h.txout).1).1
  have hmem : n ∈ range (max c.vout.length c'.vout.length) := mem_range.mpr (by omega)
  rw [value_eq_sum (le_max_left c.vout.length c'.vout.length),
    value_eq_sum (le_max_right c.vout.length c'.vout.length), ← add_sum_erase _ _ hmem,
    ← add_sum_erase _ (fun m => c.valueAt m) hmem]
  have hself : c'.valueAt n = 0 := by
    rw [valueAt, h.output, if_pos rfl]
    rfl
  have hother : ∑ m ∈ (range (max c.vout.length c'.vout.length)).erase n, c'.valueAt m =
      ∑ m ∈ (range (max c.vout.length c'.vout.length)).erase n, c.valueAt m := by
    refine sum_congr rfl fun m hm => ?_
    rw [valueAt, h.output, if_neg (mem_erase.mp hm).1]
    rfl
  rw [hself, hother, valueAt_of_output h.txout]
  omega

theorem ofTx_nonNeg {tx : CTransaction} {nHeight : Int} (h : tx.Checked) :
    (ofTx tx nHeight).NonNeg :=
  fun _ _ hn => (h.value_range _ (List.mem_of_getElem? (output_eq_some.mp hn).1)).1

theorem ofTx_value {tx : CTransaction} {nHeight : Int} (h : tx.Checked) :
    (ofTx tx nHeight).value = tx.valueOut := by
  have hall : tx.vout.filter (fun out => !out.isNull) = tx.vout := by
    rw [List.filter_eq_self]
    intro out hout
    rw [CTxOut.isNull_of_nonneg (h.value_range out hout).1]
    rfl
  rw [value, ofTx, hall, CTransaction.valueOut]

end CCoins

/-! ## The coins of a view -/

noncomputable instance : Fintype uint256 :=
  Fintype.ofInjective (fun h : uint256 => h.toFin) fun _ _ h => BitVec.eq_of_toFin_eq h

namespace CoinsView

/-- The sum of the values of all available outputs. -/
noncomputable def total (view : CoinsView) : Int := ∑ txid : uint256, (view.coinsAt txid).value

def NonNeg (view : CoinsView) : Prop := ∀ txid, (view.coinsAt txid).NonNeg

theorem NonNeg.total {view : CoinsView} (h : view.NonNeg) : 0 ≤ view.total :=
  sum_nonneg fun txid _ => (h txid).value

theorem total_setCoins (view : CoinsView) (txid : uint256) (coins : CCoins) :
    (view.setCoins txid coins).total = view.total - (view.coinsAt txid).value + coins.value := by
  unfold total
  rw [← add_sum_erase _ _ (mem_univ txid),
    ← add_sum_erase _ (fun t => (view.coinsAt t).value) (mem_univ txid), coinsAt_setCoins_self]
  have hother : ∑ t ∈ univ.erase txid, ((view.setCoins txid coins).coinsAt t).value =
      ∑ t ∈ univ.erase txid, (view.coinsAt t).value := by
    refine sum_congr rfl fun t ht => ?_
    rw [coinsAt_setCoins_of_ne (mem_erase.mp ht).1]
  rw [hother]
  omega

@[simp] theorem total_setBestBlock (view : CoinsView) (p : Option CBlockIndex) :
    (view.setBestBlock p).total = view.total := rfl

theorem NonNeg.setCoins {view : CoinsView} {txid : uint256} {coins : CCoins} (h : view.NonNeg)
    (hc : coins.NonNeg) : (view.setCoins txid coins).NonNeg := by
  intro t
  by_cases ht : t = txid
  · subst ht
    rwa [coinsAt_setCoins_self]
  · rw [coinsAt_setCoins_of_ne ht]
    exact h t

theorem NonNeg.of_below {w v : CoinsView} (h : v.NonNeg) (hb : Below w v) : w.NonNeg :=
  fun txid n out hn => h txid n out (hb txid n out hn)

theorem Below.total_le {w v : CoinsView} (h : Below w v) (hv : v.NonNeg) : w.total ≤ v.total :=
  sum_le_sum fun txid _ => CCoins.value_le (hv txid) (h txid)

end CoinsView

end Terracoin
