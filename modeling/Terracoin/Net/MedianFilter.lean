import Terracoin.Lib.CheckedInt
import Terracoin.Lib.OrderStatistic
import Terracoin.Lib.Recent

/-!
# The median of the heights that peers claim

`CMedianFilter<int>` of `util.h`, with the last `nSize` values and a sorted copy of them. For an even
number of values the two in the middle are added before the sum is halved, and the sum overflows for
heights that a peer may well claim. The median is between the two exactly if it does not
(`median_between_iff`).
-/

namespace Terracoin

open Checked OrderStatistic Recent

/-- `CMedianFilter<int>`. -/
structure CMedianFilter where
  vValues : List Int32
  vSorted : List Int32
  nSize : UInt32

namespace CMedianFilter

def new (size : UInt32) (initial_value : Int32) : CMedianFilter :=
  ⟨[initial_value], [initial_value], size⟩

def input (filter : CMedianFilter) (value : Int32) : CMedianFilter :=
  let vValues :=
    if filter.vValues.length = filter.nSize.toNat then filter.vValues.tail else filter.vValues
  let vValues := vValues ++ [value]
  { filter with vValues, vSorted := vValues.insertionSort (· ≤ ·) }

/-- `median`; not defined if the assertion fails or the sum overflows. -/
def median (filter : CMedianFilter) : Option Int32 :=
  let size : Int32 := Int32.ofNat filter.vSorted.length
  if 0 < size.toInt then
    if size.toInt % 2 = 1 then filter.vSorted[(size.toInt / 2).toNat]?
    else do
      let lower ← filter.vSorted[(size.toInt / 2 - 1).toNat]?
      let upper ← filter.vSorted[(size.toInt / 2).toNat]?
      let sum ← int32 (lower.toInt + upper.toInt)
      pure (sum / 2)
  else none

def inputs (filter : CMedianFilter) (values : List Int32) : CMedianFilter := values.foldl input filter

def getNumBlocksOfPeers (cPeerBlockCounts : CMedianFilter) (nTotalBlocksEstimate : Int32) :
    Option Int32 :=
  cPeerBlockCounts.median.map fun m => if m < nTotalBlocksEstimate then nTotalBlocksEstimate else m

/-- The last `nSize` values, the initial one included. -/
def window (nSize : UInt32) (initial_value : Int32) (values : List Int32) : List Int :=
  ((initial_value :: values).rtake nSize.toNat).map Int32.toInt

/-- The value `m` is between the two in the middle, which are the same for an odd number of values. -/
def IsMedian (values : List Int) (m : Int) : Prop :=
  ∃ lower upper, nth values ((values.length - 1) / 2) = some lower ∧
    nth values (values.length / 2) = some upper ∧ lower ≤ m ∧ m ≤ upper

/-- The two values in the middle can be added. -/
def SumFits (values : List Int) : Prop :=
  ∀ lower upper, nth values (values.length / 2 - 1) = some lower →
    nth values (values.length / 2) = some upper → Int32Range (lower + upper)

variable {filter : CMedianFilter} {nSize : UInt32} {initial_value : Int32} {values : List Int32}

/-- What the filter holds after values. -/
structure Holds (filter : CMedianFilter) (nSize : UInt32) (all : List Int32) : Prop where
  nSize_eq : filter.nSize = nSize
  vValues_eq : filter.vValues = all.rtake nSize.toNat
  vSorted_eq : filter.vSorted = filter.vValues.insertionSort (· ≤ ·)

theorem holds_new (hsize : 0 < nSize.toNat) : (new nSize initial_value).Holds nSize [initial_value] :=
  ⟨rfl, (rtake_of_length_le hsize).symm, rfl⟩

theorem Holds.input {all : List Int32} (h : filter.Holds nSize all) (hsize : 0 < nSize.toNat)
    (value : Int32) : (filter.input value).Holds nSize (all ++ [value]) := by
  refine ⟨h.nSize_eq, ?_, rfl⟩
  rw [← push_rtake hsize, ← h.vValues_eq, ← h.nSize_eq]
  rfl

theorem Holds.inputs {all : List Int32} (h : filter.Holds nSize all) (hsize : 0 < nSize.toNat)
    (values : List Int32) : (filter.inputs values).Holds nSize (all ++ values) := by
  induction values generalizing filter all with
  | nil => simpa [CMedianFilter.inputs] using h
  | cons value values ih => simpa [CMedianFilter.inputs] using ih (h.input hsize value)

theorem Holds.nth_eq {all : List Int32} (h : filter.Holds nSize all) (k : Nat) :
    nth ((all.rtake nSize.toNat).map Int32.toInt) k = filter.vSorted[k]?.map Int32.toInt := by
  rw [h.vSorted_eq, h.vValues_eq, nth, ← List.getElem?_map]
  congr 1
  exact (List.map_insertionSort (· ≤ ·) (· ≤ ·) Int32.toInt _
    fun _ _ _ _ => Int32.le_iff_toInt_le).symm

theorem Holds.length_vSorted {all : List Int32} (h : filter.Holds nSize all) :
    filter.vSorted.length = (all.rtake nSize.toNat).length := by
  rw [h.vSorted_eq, List.length_insertionSort, h.vValues_eq]

/-! ## The median -/

theorem not_pos_toInt_ofNat {n : Nat} (h : 2 ^ 31 ≤ n) (hlt : n < 2 ^ 32) :
    ¬ 0 < (Int32.ofNat n).toInt := by
  rw [Int32.toInt_ofNat', Int.bmod_def, show Int32.size = 2 ^ 32 from rfl]
  omega

theorem tdiv_two_between {a b : Int} (h : a ≤ b) :
    a ≤ (a + b).tdiv 2 ∧ (a + b).tdiv 2 ≤ b := by
  rcases le_or_gt 0 (a + b) with hpos | hneg
  · rw [Int.tdiv_eq_ediv_of_nonneg hpos]
    omega
  · rw [← Int.neg_neg (a + b), Int.neg_tdiv, Int.tdiv_eq_ediv_of_nonneg (by omega)]
    omega

theorem toInt_div_two (n : Int32) : (n / 2).toInt = n.toInt.tdiv 2 := by
  rw [Int32.toInt_div_of_ne_right n 2 (by decide)]
  rfl

theorem median_eq (hpos : 0 < filter.vSorted.length) (hlt : filter.vSorted.length < 2 ^ 31) :
    filter.median =
      if filter.vSorted.length % 2 = 1 then filter.vSorted[filter.vSorted.length / 2]?
      else
        filter.vSorted[filter.vSorted.length / 2 - 1]?.bind fun lower =>
          filter.vSorted[filter.vSorted.length / 2]?.bind fun upper =>
            (int32 (lower.toInt + upper.toInt)).bind fun sum => some (sum / 2) := by
  have hsize := Int32.toInt_ofNat_of_lt hlt
  simp only [median, hsize]
  rw [if_pos (by omega)]
  have hhalf : ((filter.vSorted.length : Int) / 2).toNat = filter.vSorted.length / 2 := by omega
  have hpred : ((filter.vSorted.length : Int) / 2 - 1).toNat = filter.vSorted.length / 2 - 1 := by
    omega
  rw [hhalf, hpred]
  congr 1
  simp only [eq_iff_iff]
  omega

theorem median_eq_none (hle : 2 ^ 31 ≤ filter.vSorted.length) (hlt : filter.vSorted.length < 2 ^ 32) :
    filter.median = none := if_neg (not_pos_toInt_ofNat hle hlt)

theorem nth_le_nth {l : List Int} {i j : Nat} {a b : Int} (hij : i ≤ j) (ha : nth l i = some a)
    (hb : nth l j = some b) : a ≤ b := by
  rw [le_nth_iff hb]
  exact ((le_nth_iff ha).mp le_rfl).trans hij

theorem Holds.median_odd {all : List Int32} (h : filter.Holds nSize all)
    (hlt : filter.vSorted.length < 2 ^ 31) (hodd : filter.vSorted.length % 2 = 1) :
    ∃ m, filter.median = some m ∧ IsMedian ((all.rtake nSize.toNat).map Int32.toInt) m.toInt := by
  have hget := List.getElem?_eq_getElem (l := filter.vSorted)
    (show filter.vSorted.length / 2 < filter.vSorted.length by omega)
  refine ⟨_, by rw [median_eq (by omega) hlt, if_pos hodd, hget], _, _, ?_, ?_, le_rfl, le_rfl⟩
  · rw [h.nth_eq, List.length_map, ← h.length_vSorted,
      show (filter.vSorted.length - 1) / 2 = filter.vSorted.length / 2 by omega, hget]
    rfl
  · rw [h.nth_eq, List.length_map, ← h.length_vSorted, hget]
    rfl

/-- The median of an even number of values is between the two in the middle, if it is defined. -/
theorem Holds.median_even {all : List Int32} (h : filter.Holds nSize all)
    (hpos : 0 < filter.vSorted.length) (hlt : filter.vSorted.length < 2 ^ 31)
    (heven : filter.vSorted.length % 2 = 0) :
    (∃ m, filter.median = some m ∧ IsMedian ((all.rtake nSize.toNat).map Int32.toInt) m.toInt) ↔
      SumFits ((all.rtake nSize.toNat).map Int32.toInt) := by
  have hlower := List.getElem?_eq_getElem (l := filter.vSorted)
    (show filter.vSorted.length / 2 - 1 < filter.vSorted.length by omega)
  have hupper := List.getElem?_eq_getElem (l := filter.vSorted)
    (show filter.vSorted.length / 2 < filter.vSorted.length by omega)
  generalize filter.vSorted[filter.vSorted.length / 2 - 1] = lower at hlower
  generalize filter.vSorted[filter.vSorted.length / 2] = upper at hupper
  have hlen : ((all.rtake nSize.toNat).map Int32.toInt).length = filter.vSorted.length := by
    rw [List.length_map, h.length_vSorted]
  have hnthLower := h.nth_eq (filter.vSorted.length / 2 - 1)
  have hnthUpper := h.nth_eq (filter.vSorted.length / 2)
  rw [hlower] at hnthLower
  rw [hupper] at hnthUpper
  have hmedian : filter.median = (int32 (lower.toInt + upper.toInt)).bind fun sum => some (sum / 2) := by
    rw [median_eq hpos hlt, if_neg (by omega), hlower, hupper]
    rfl
  rw [hmedian]
  constructor
  · rintro ⟨m, hm, -⟩ lower' upper' hlower' hupper'
    rw [hlen, hnthLower] at hlower'
    rw [hlen, hnthUpper] at hupper'
    obtain rfl := Option.some.inj hlower'
    obtain rfl := Option.some.inj hupper'
    obtain ⟨sum, hsum, -⟩ := Option.bind_eq_some_iff.mp hm
    rw [← int32_eq_some.mp hsum]
    exact int32Range_toInt sum
  · intro hfits
    have hrange : Int32Range (lower.toInt + upper.toInt) :=
      hfits _ _ (by rw [hlen, hnthLower]; rfl) (by rw [hlen, hnthUpper]; rfl)
    have hle : lower.toInt ≤ upper.toInt := nth_le_nth (Nat.sub_le _ 1) hnthLower hnthUpper
    refine ⟨_, by rw [int32_of_range hrange]; rfl, lower.toInt, upper.toInt, ?_, ?_, ?_⟩
    · rw [hlen, show (filter.vSorted.length - 1) / 2 = filter.vSorted.length / 2 - 1 by omega,
        hnthLower]
      rfl
    · rw [hlen, hnthUpper]
      rfl
    · rw [toInt_div_two, toInt_ofInt hrange]
      exact tdiv_two_between hle

/-- The median of the last `nSize` values is between the two in the middle exactly if there are any,
an `int` can count them, and the two in the middle of an even number of them can be added. -/
theorem median_between_iff (nSize : UInt32) (initial_value : Int32) (values : List Int32) :
    (∃ m, ((new nSize initial_value).inputs values).median = some m ∧
        IsMedian (window nSize initial_value values) m.toInt) ↔
      nSize ≠ 0 ∧ (window nSize initial_value values).length < 2 ^ 31 ∧
        ((window nSize initial_value values).length % 2 = 0 →
          SumFits (window nSize initial_value values)) := by
  by_cases hzero : nSize = 0
  · subst hzero
    refine iff_of_false ?_ fun h => h.1 rfl
    rintro ⟨m, -, lower, upper, hlower, -⟩
    rw [window, UInt32.toNat_zero, List.rtake_zero] at hlower
    cases hlower
  · have hsize : 0 < nSize.toNat :=
      Nat.pos_of_ne_zero fun h => hzero (UInt32.toNat_inj.mp h)
    have hholds : ((new nSize initial_value).inputs values).Holds nSize (initial_value :: values) :=
      (holds_new hsize).inputs hsize values
    have hlen : (window nSize initial_value values).length =
        ((new nSize initial_value).inputs values).vSorted.length := by
      rw [window, List.length_map, hholds.length_vSorted]
    have hcount : (window nSize initial_value values).length =
        min nSize.toNat (values.length + 1) := by
      rw [window, List.length_map, length_rtake, List.length_cons]
    have hpos : 0 < (window nSize initial_value values).length := by omega
    have hbound := nSize.toNat_lt
    rw [hlen] at hpos hcount ⊢
    rcases Nat.lt_or_ge ((new nSize initial_value).inputs values).vSorted.length (2 ^ 31) with
      hlt | hge
    · rcases Nat.mod_two_eq_zero_or_one ((new nSize initial_value).inputs values).vSorted.length with
        heven | hodd
      · rw [window, hholds.median_even hpos hlt heven]
        exact ⟨fun hfits => ⟨hzero, hlt, fun _ => hfits⟩, fun h => h.2.2 heven⟩
      · refine iff_of_true (hholds.median_odd hlt hodd) ⟨hzero, hlt, fun heven => ?_⟩
        omega
    · refine iff_of_false ?_ fun h => by omega
      rintro ⟨m, hm, -⟩
      rw [median_eq_none hge (by omega)] at hm
      cases hm

theorem toInt_getNumBlocksOfPeers {m n nTotalBlocksEstimate : Int32} (hm : filter.median = some m)
    (hn : filter.getNumBlocksOfPeers nTotalBlocksEstimate = some n) :
    n.toInt = max m.toInt nTotalBlocksEstimate.toInt := by
  rw [getNumBlocksOfPeers, hm, Option.map_some, Option.some.injEq] at hn
  split at hn
  · rename_i hlt
    rw [← hn, max_eq_right (Int32.lt_iff_toInt_lt.mp hlt).le]
  · rename_i hge
    rw [← hn, max_eq_left]
    exact not_lt.mp fun hlt => hge (Int32.lt_iff_toInt_lt.mpr hlt)

/-- Three peers that claim the greatest height there is. -/
theorem not_median_between : ¬ ∀ (nSize : UInt32) (initial_value : Int32) (values : List Int32),
    nSize ≠ 0 → ∃ m, ((new nSize initial_value).inputs values).median = some m ∧
      IsMedian (window nSize initial_value values) m.toInt := by
  intro h
  obtain ⟨m, hm, -⟩ := h 8 0 [2147483647, 2147483647, 2147483647] (by decide)
  have hnone : ((new 8 0).inputs [2147483647, 2147483647, 2147483647]).median = none := by decide
  rw [hnone] at hm
  cases hm

end CMedianFilter

end Terracoin
