import Mathlib.Data.List.Induction
import Terracoin.Chain.MinWork
import Terracoin.Mining.UpdateTime

/-!
# The bounds of the moving average

Above the height 110322 every duration that goes into the moving average lies between 60 and 180
seconds, and so does the average itself, computed without rounding: the bounds that follow it never
apply. The next target is at most one and a half times and at least half of the last one, up to
its caps and the compact form (`getEmaNextWorkRequired_bounds`).
-/

namespace Terracoin

open MainnetSample (average average_concat)

theorem limitDuration_mem {nHeight : Nat} (h : 110322 < nHeight) (duration : Int) :
    60 ≤ limitDuration nHeight duration ∧ limitDuration nHeight duration ≤ 180 := by
  unfold limitDuration perBlockTargetTimespan
  dsimp only
  split <;> split <;> split <;> omega

theorem blockDurations_mem {nHeight n : Nat} (h : 110322 < nHeight) {p : CBlockIndex}
    {durations : List Int} (hdurations : blockDurations nHeight n p = some durations) :
    ∀ duration ∈ durations, 60 ≤ duration ∧ duration ≤ 180 := by
  induction n generalizing p durations with
  | zero =>
    obtain rfl := Option.some.inj hdurations
    exact fun _ hmem => nomatch hmem
  | succ n ih =>
    obtain ⟨pprev, -, hdurations⟩ := Option.bind_eq_some_iff.mp hdurations
    obtain ⟨earlier, hearlier, hdurations⟩ := Option.bind_eq_some_iff.mp hdurations
    obtain rfl := Option.some.inj hdurations
    intro duration hmem
    obtain hmem | hmem := List.mem_append.mp hmem
    · exact ih hearlier duration hmem
    · obtain rfl := List.mem_singleton.mp hmem
      exact limitDuration_mem h _

/-! ## The average -/

/-- The average lies where all durations and its start of 120 seconds lie. -/
theorem average_mem {alpha low high : Rat} (h0 : 0 ≤ alpha) (h1 : alpha ≤ 1) (hlow : low ≤ 120)
    (hhigh : 120 ≤ high) {durations : List Int}
    (hdurations : ∀ duration ∈ durations, low ≤ (duration : Rat) ∧ (duration : Rat) ≤ high) :
    low ≤ average alpha durations ∧ average alpha durations ≤ high := by
  induction durations using List.reverseRecOn with
  | nil =>
    have hstart : average alpha [] = 120 := by
      show ((120 : Int) : Rat) = 120
      norm_num
    rw [hstart]
    exact ⟨hlow, hhigh⟩
  | append_singleton durations duration ih =>
    obtain ⟨hlow', hhigh'⟩ := ih fun d hd => hdurations d (List.mem_append_left _ hd)
    obtain ⟨hd, hd'⟩ := hdurations duration (List.mem_append_right _ (List.mem_singleton_self _))
    have hcomp : 0 ≤ 1 - alpha := by linarith
    rw [average_concat]
    constructor
    · calc low = alpha * low + (1 - alpha) * low := by ring
        _ ≤ alpha * duration + (1 - alpha) * average alpha durations :=
          add_le_add (mul_le_mul_of_nonneg_left hd h0) (mul_le_mul_of_nonneg_left hlow' hcomp)
    · calc alpha * duration + (1 - alpha) * average alpha durations
          ≤ alpha * high + (1 - alpha) * high :=
            add_le_add (mul_le_mul_of_nonneg_left hd' h0) (mul_le_mul_of_nonneg_left hhigh' hcomp)
        _ = high := by ring

/-- `nActualTimespan` before its bounds. -/
def wholeSeconds (accumulator : Rat) : Int := accumulator.num.tdiv accumulator.den

theorem wholeSeconds_eq {q : Rat} (h : 0 ≤ q) : wholeSeconds q = ⌊q⌋ :=
  MainnetSample.tdiv_of_floor (Int.floor_nonneg.mpr h) (Int.floor_le q) (Int.lt_floor_add_one q)

theorem wholeSeconds_mem {q : Rat} {low high : Int} (h0 : 0 ≤ q) (hlow : (low : Rat) ≤ q)
    (hhigh : q ≤ high) : low ≤ wholeSeconds q ∧ wholeSeconds q ≤ high := by
  rw [wholeSeconds_eq h0]
  refine ⟨Int.le_floor.mpr hlow, ?_⟩
  calc ⌊q⌋ ≤ ⌊(high : Rat)⌋ := Int.floor_mono hhigh
    _ = high := Int.floor_intCast high

/-! ## The next target -/

/-- The caps of a new target above the height 104290. -/
def capWork (bnNew : Int) : Int := min (min bnNew fiveThousandsLimit) proofOfWorkLimit

theorem limitWork_eq_capWork {nHeight : Nat} (h : 104290 < nHeight) (bnNew : Int) :
    limitWork nHeight bnNew = capWork bnNew := by
  unfold limitWork capWork
  simp only [h, true_and]
  split <;> split <;> omega

theorem capWork_nonneg {bnNew : Int} (h : 0 ≤ bnNew) : 0 ≤ capWork bnNew :=
  le_min (le_min h (by decide)) (by decide)

theorem capWork_le (bnNew : Int) :
    capWork bnNew ≤ bnNew ∧ capWork bnNew ≤ fiveThousandsLimit ∧ capWork bnNew ≤ proofOfWorkLimit :=
  ⟨(min_le_left _ _).trans (min_le_left _ _), (min_le_left _ _).trans (min_le_right _ _),
    min_le_right _ _⟩

theorem capWork_lt (bnNew : Int) : capWork bnNew < 2 ^ (8 * 32) :=
  (capWork_le bnNew).2.2.trans_lt proofOfWorkLimit_lt

theorem half_capWork_le {bn bnNew : Int} (h0 : 0 ≤ bn) (h : bn / 2 ≤ bnNew) :
    capWork bn / 2 ≤ capWork bnNew := by
  have hfive : 0 ≤ fiveThousandsLimit := by decide
  have hlimit : 0 ≤ proofOfWorkLimit := by decide
  unfold capWork
  omega

theorem scaledWork_bounds {bn m : Int} (h0 : 0 ≤ bn) (h60 : 60 ≤ m) (h180 : m ≤ 180) :
    0 ≤ (bn * m).tdiv 120 ∧ bn / 2 ≤ (bn * m).tdiv 120 ∧ 2 * (bn * m).tdiv 120 ≤ 3 * bn := by
  have hlow : bn * 60 ≤ bn * m := mul_le_mul_of_nonneg_left h60 h0
  have hhigh : bn * m ≤ bn * 180 := mul_le_mul_of_nonneg_left h180 h0
  rw [Int.tdiv_eq_ediv_of_nonneg (by omega)]
  omega

section

open MainnetSample

variable [NodeConfig]

/-- The average of the durations, the timespan that it gives, and the target that follows; and the
target of difficulty 5254, which is never exceeded. -/
theorem getEmaNextWorkRequired_bounds (hmain : NodeConfig.fTestNet = false) :
    (∀ (pindexLast : CBlockIndex) (pblock : CBlockHeader), 110322 < pindexLast.nHeight →
      0 ≤ setCompact pindexLast.header.nBits → ¬ LongAfter pindexLast pblock.nTime →
        ∃ durations nBits, blockDurations pindexLast.nHeight 2160 pindexLast = some durations ∧
          (60 ≤ average 0.06 durations ∧ average 0.06 durations ≤ 180) ∧
          emaTimespan pindexLast.nHeight durations = wholeSeconds (average 0.06 durations) ∧
          getEmaNextWorkRequired pindexLast pblock = some nBits ∧
          2 * setCompact nBits ≤ 3 * setCompact pindexLast.header.nBits ∧
          setCompact nBits ≤ fiveThousandsLimit ∧ setCompact nBits ≤ proofOfWorkLimit ∧
          setCompact (getCompact (capWork (setCompact pindexLast.header.nBits) / 2)) ≤
            setCompact nBits) ∧
      ∀ (pindexLast : CBlockIndex) (pblock : CBlockHeader), 104290 < pindexLast.nHeight →
        0 ≤ setCompact pindexLast.header.nBits →
          ∃ nBits, getEmaNextWorkRequired pindexLast pblock = some nBits ∧
            setCompact nBits ≤ fiveThousandsLimit := by
  refine ⟨fun pindexLast pblock hheight h0 hlong => ?_, fun pindexLast pblock hheight h0 => ?_⟩
  · obtain ⟨durations, hdurations⟩ :=
      blockDurations_isSome pindexLast.nHeight (show 2160 ≤ pindexLast.nHeight by omega)
    have hmem := blockDurations_mem hheight hdurations
    have haverage : 60 ≤ average 0.06 durations ∧ average 0.06 durations ≤ 180 :=
      average_mem (by norm_num) (by norm_num) (by norm_num) (by norm_num) fun duration hd =>
        ⟨by exact_mod_cast (hmem duration hd).1, by exact_mod_cast (hmem duration hd).2⟩
    have hnonneg : 0 ≤ average 0.06 durations := le_trans (by norm_num) haverage.1
    have hseconds : 60 ≤ wholeSeconds (average 0.06 durations) ∧
        wholeSeconds (average 0.06 durations) ≤ 180 :=
      wholeSeconds_mem hnonneg (by exact_mod_cast haverage.1) (by exact_mod_cast haverage.2)
    have hspan : emaTimespan pindexLast.nHeight durations = wholeSeconds (average 0.06 durations) := by
      refine emaTimespan_eq (if_pos hheight).symm hseconds.1 (by omega) ?_ ?_
      · rw [wholeSeconds_eq hnonneg]
        exact Int.floor_le _
      · rw [wholeSeconds_eq hnonneg]
        exact Int.lt_floor_add_one _
    have hwork : getEmaNextWorkRequired pindexLast pblock = some (getCompact (capWork
        ((setCompact pindexLast.header.nBits * wholeSeconds (average 0.06 durations)).tdiv 120))) := by
      rw [getEmaNextWorkRequired, if_neg hlong, emaWork_eq hdurations, hspan,
        limitWork_eq_capWork (by omega)]
    obtain ⟨hnew, hhalf, hlarge⟩ := scaledWork_bounds h0 hseconds.1 hseconds.2
    generalize (setCompact pindexLast.header.nBits *
      wholeSeconds (average 0.06 durations)).tdiv 120 = bnNew at hwork hnew hhalf hlarge
    obtain ⟨hle, hle5, hle0⟩ := capWork_le bnNew
    have hround := setCompact_getCompact_le (capWork_nonneg hnew) (capWork_lt bnNew)
    refine ⟨durations, _, hdurations, haverage, hspan, hwork, by omega, by omega, by omega, ?_⟩
    have hcap := capWork_nonneg h0
    exact setCompact_getCompact_mono (by omega) (half_capWork_le h0 hhalf) (capWork_lt bnNew)
  · have hcapped : ∀ bnNew : Int, 0 ≤ bnNew → setCompact (getCompact
        (limitWork pindexLast.nHeight bnNew)) ≤ fiveThousandsLimit := fun bnNew hnew => by
      rw [limitWork_eq_capWork hheight]
      exact (setCompact_getCompact_le (capWork_nonneg hnew) (capWork_lt bnNew)).trans
        (capWork_le bnNew).2.1
    by_cases hlong : LongAfter pindexLast pblock.nTime
    · refine ⟨loweredWork pindexLast, ?_, hcapped _ (mul_nonneg h0 ?_)⟩
      · rw [getEmaNextWorkRequired, if_pos hlong, hmain]
        rfl
      · split <;> decide
    · obtain ⟨durations, hdurations⟩ :=
        blockDurations_isSome pindexLast.nHeight (show 2160 ≤ pindexLast.nHeight by omega)
      refine ⟨_, (if_neg hlong).trans (emaWork_eq hdurations), hcapped _ ?_⟩
      have hspan : 60 ≤ emaTimespan pindexLast.nHeight durations := le_emaTimespan
      exact Int.tdiv_nonneg (mul_nonneg h0 (by omega)) (by decide)

end

namespace MainnetSample

/-- A block ten minutes after the last one of the chain with a block every two minutes. -/
theorem getEmaNextWorkRequired_bounds_sample :
    ∃ durations nBits, blockDurations steady.nHeight 2160 steady = some durations ∧
      (60 ≤ average 0.06 durations ∧ average 0.06 durations ≤ 180) ∧
      emaTimespan steady.nHeight durations = wholeSeconds (average 0.06 durations) ∧
      getEmaNextWorkRequired steady (header 14400600 0) = some nBits ∧
      2 * setCompact nBits ≤ 3 * setCompact steady.header.nBits ∧
      setCompact nBits ≤ fiveThousandsLimit ∧ setCompact nBits ≤ proofOfWorkLimit ∧
      setCompact (getCompact (capWork (setCompact steady.header.nBits) / 2)) ≤ setCompact nBits := by
  have hheight : steady.nHeight = 120000 := spaced_nHeight
  have hbits : steady.header.nBits = 0x1b0404cb := spaced_nBits
  have hlong : ¬ LongAfter steady (header 14400600 0).nTime := by
    rw [steady_longAfter (by decide)]
    decide
  refine (getEmaNextWorkRequired_bounds rfl).1 steady (header 14400600 0) (by omega) ?_ hlong
  rw [hbits]
  decide

end MainnetSample

end Terracoin
