import Terracoin.Chain.Retarget
import Mathlib.Tactic.NormNum

/-!
# The least work after a checkpoint

`ProcessBlock` refuses a block whose target is above the one `ComputeMinWork` allows for the time
since the last checkpoint: four times the target of the checkpoint for every started period of four
hours. The retargeting rules are not bound to that rate. A block more than 20 minutes after its
predecessor doubles the target, and the moving average may raise it with every block, so a valid
chain can leave the allowance behind.

`le_computeMinWork_iff` reads the allowance off the loop. Between two blocks the target grows at most
by the product of the factors of the blocks in between, which their times make
(`CBlockIndex.ValidChain.le_growth`), and `computeMinWork_spec` compares this growth with the
allowance. Two rises of the target in every started period are always within it.
-/

namespace Terracoin

/-! ## The allowance -/

/-- The loop of `ComputeMinWork`. Every round takes four hours off `nTime`, so `nTime` rounds are
more than enough. -/
def minWorkLoop : Nat → Int → Int → Int
  | 0, bnResult, _ => bnResult
  | fuel + 1, bnResult, nTime =>
    if 0 < nTime ∧ bnResult < proofOfWorkLimit then
      minWorkLoop fuel (bnResult * 4) (nTime - nTargetTimespan * 4)
    else bnResult

def computeMinWork [NodeConfig] (nBase : UInt32) (nTime : Int) : UInt32 :=
  if NodeConfig.fTestNet = true ∧ nTargetSpacing * 2 < nTime then getCompact proofOfWorkLimit
  else
    let bnResult := minWorkLoop nTime.toNat (setCompact nBase) nTime
    getCompact (if proofOfWorkLimit < bnResult then proofOfWorkLimit else bnResult)

/-- The periods of four hours that have started after `nTime` seconds. -/
def startedPeriods (nTime : Int) : Nat := ((nTime + 14399) / 14400).toNat

theorem startedPeriods_of_nonpos {nTime : Int} (h : nTime ≤ 0) : startedPeriods nTime = 0 := by
  unfold startedPeriods
  omega

theorem startedPeriods_of_pos {nTime : Int} (h : 0 < nTime) :
    startedPeriods nTime = startedPeriods (nTime - 14400) + 1 := by
  unfold startedPeriods
  omega

theorem minWorkLoop_nonneg (fuel : Nat) {bn : Int} (nTime : Int) (h : 0 ≤ bn) :
    0 ≤ minWorkLoop fuel bn nTime := by
  induction fuel generalizing bn nTime with
  | zero => exact h
  | succ fuel ih =>
    rw [minWorkLoop]
    split
    · exact ih _ (by omega)
    · exact h

/-- Up to the limit, the loop multiplies by four for every started period. -/
theorem le_minWorkLoop_iff {fuel : Nat} (bn nTime : Int) {y : Int} (hfuel : nTime ≤ fuel)
    (h0 : 0 ≤ bn) (hy : y ≤ proofOfWorkLimit) :
    y ≤ minWorkLoop fuel bn nTime ↔ y ≤ bn * 4 ^ startedPeriods nTime := by
  induction fuel generalizing bn nTime with
  | zero =>
    rw [startedPeriods_of_nonpos (by omega), pow_zero, mul_one]
    rfl
  | succ fuel ih =>
    rw [minWorkLoop]
    by_cases htime : 0 < nTime
    · by_cases hlimit : bn < proofOfWorkLimit
      · rw [if_pos ⟨htime, hlimit⟩, startedPeriods_of_pos htime, pow_succ]
        have := ih (bn * 4) (nTime - nTargetTimespan * 4)
          (by unfold nTargetTimespan; omega) (by omega)
        rw [this, show nTargetTimespan * 4 = 14400 from rfl]
        ring_nf
      · rw [if_neg (fun h => hlimit h.2)]
        have hpow : bn * 1 ≤ bn * 4 ^ startedPeriods nTime :=
          mul_le_mul_of_nonneg_left (one_le_pow₀ (by norm_num)) h0
        constructor
        · intro h
          omega
        · intro _
          omega
    · rw [if_neg (fun h => htime h.1), startedPeriods_of_nonpos (by omega), pow_zero, mul_one]

theorem proofOfWorkLimit_lt : proofOfWorkLimit < 2 ^ (8 * 32) := by decide

section

variable [NodeConfig]

/-- The target that `ComputeMinWork` allows on mainnet, without its rounding. -/
theorem le_computeMinWork_iff {nBase nBits : UInt32} {nTime : Int}
    (hmain : NodeConfig.fTestNet = false) (hbase : 0 ≤ setCompact nBase) (h0 : 0 ≤ setCompact nBits)
    (hle : setCompact nBits ≤ proofOfWorkLimit) :
    setCompact nBits ≤ setCompact (computeMinWork nBase nTime) ↔
      setCompact nBits ≤ setCompact nBase * 4 ^ startedPeriods nTime := by
  have hloop := le_minWorkLoop_iff _ _ (Int.self_le_toNat nTime) hbase hle
  have hnonneg := minWorkLoop_nonneg nTime.toNat nTime hbase
  have hlimit := proofOfWorkLimit_lt
  unfold computeMinWork
  rw [if_neg (by rw [hmain]; simp), ← hloop]
  dsimp only
  split
  · rename_i hlt
    constructor
    · intro _
      omega
    · intro _
      exact le_setCompact_getCompact h0 hle hlimit
  · constructor
    · intro h
      exact h.trans (setCompact_getCompact_le hnonneg (by omega))
    · intro h
      exact le_setCompact_getCompact h0 h (by omega)

end

theorem limitWork_le {nHeight : Nat} {bnNew : Int} : limitWork nHeight bnNew ≤ proofOfWorkLimit := by
  unfold limitWork
  dsimp only
  generalize (if 104290 < nHeight ∧ fiveThousandsLimit < bnNew then fiveThousandsLimit
    else bnNew) = bn
  split
  · exact le_refl proofOfWorkLimit
  · omega

theorem limitWork_nonneg {nHeight : Nat} {bnNew : Int} (h : 0 ≤ bnNew) :
    0 ≤ limitWork nHeight bnNew := by
  have h1 : 0 ≤ fiveThousandsLimit := by decide
  have h2 : 0 ≤ proofOfWorkLimit := by decide
  have h3 : 0 ≤ if 104290 < nHeight ∧ fiveThousandsLimit < bnNew then fiveThousandsLimit
      else bnNew := by
    split
    · exact h1
    · exact h
  unfold limitWork
  dsimp only
  generalize (if 104290 < nHeight ∧ fiveThousandsLimit < bnNew then fiveThousandsLimit
    else bnNew) = bn at h3 ⊢
  split
  · exact h2
  · exact h3

theorem getCompact_nonneg {bnNew : Int} (h0 : 0 ≤ bnNew) (hle : bnNew ≤ proofOfWorkLimit) :
    0 ≤ setCompact (getCompact bnNew) :=
  setCompact_getCompact_nonneg h0 (hle.trans_lt proofOfWorkLimit_lt)

/-! ## Valid chains -/

section

variable [NodeConfig] [FloatArithmetic]

/-- Every block of the chain has the work and the time that `AcceptBlock` asks for. -/
inductive CBlockIndex.ValidChain : CBlockIndex → Prop
  | root {h : CBlockHeader} : 0 < setCompact h.nBits → ValidChain (.root h)
  | child {p : CBlockIndex} {h : CBlockHeader} : ValidChain p → h.Acceptable p →
    ValidChain (.child p h)

/-- The average time of the last blocks up to `pindexPrev`. -/
def averageTime (pindexPrev : CBlockIndex) : Int :=
  emaTimespan pindexPrev.nHeight ((blockDurations pindexPrev.nHeight 2160 pindexPrev).getD [])

/-- What a block at the time `nTime` may multiply the target by: two after 20 minutes, otherwise the
average block time over the two minutes it should be. -/
def growthFactor (pindexPrev : CBlockIndex) (nTime : UInt32) : ℚ :=
  if LongAfter pindexPrev nTime then 2 else averageTime pindexPrev / 120

/-- The product of the factors of the blocks after `pindexBase`. -/
def growth (pindexBase : CBlockIndex) : CBlockIndex → ℚ
  | .root _ => 1
  | .child p h =>
    if .child p h = pindexBase then 1 else growth pindexBase p * growthFactor p h.nTime

/-- A block after `pindexPrev` at the time `nTime` may have a higher target. -/
def Raises (pindexPrev : CBlockIndex) (nTime : UInt32) : Prop :=
  LongAfter pindexPrev nTime ∨ perBlockTargetTimespan < averageTime pindexPrev

instance (pindexPrev : CBlockIndex) (nTime : UInt32) : Decidable (Raises pindexPrev nTime) :=
  inferInstanceAs (Decidable (_ ∨ _))

/-- The blocks after `pindexBase` at which the target may rise. -/
def rises (pindexBase : CBlockIndex) : CBlockIndex → Nat
  | .root _ => 0
  | .child p h =>
    if .child p h = pindexBase then 0
    else rises pindexBase p + if Raises p h.nTime then 1 else 0

/-- The times of the blocks after the checkpoint stay within `n` periods: they let the target grow at
most four times for each, or from some block on too little to bring the highest target there is above
that. -/
def GrowsWithin (pcheckpoint pindex : CBlockIndex) (n : Nat) : Prop :=
  growth pcheckpoint pindex ≤ 4 ^ n ∨ ∃ q ∈ pindex.chain, pcheckpoint ∈ q.chain ∧
    fiveThousandsLimit * growth q pindex ≤ setCompact pcheckpoint.header.nBits * 4 ^ n

/-! ## Targets are never negative -/

omit [NodeConfig] in
theorem le_emaTimespan {nHeight : Nat} {durations : List Int} : 60 ≤ emaTimespan nHeight durations := by
  unfold emaTimespan perBlockTargetTimespan
  dsimp only
  split
  · omega
  · split
    · omega
    · omega

omit [NodeConfig] in
theorem emaWork_nonneg {p : CBlockIndex} {nBits : UInt32} (h : emaWork p = some nBits)
    (h0 : 0 ≤ setCompact p.header.nBits) : 0 ≤ setCompact nBits := by
  obtain ⟨durations, -, h⟩ := Option.bind_eq_some_iff.mp h
  obtain rfl := Option.some.inj h
  have hspan : 60 ≤ emaTimespan p.nHeight durations := le_emaTimespan
  refine getCompact_nonneg (limitWork_nonneg ?_) limitWork_le
  exact Int.tdiv_nonneg (mul_nonneg h0 (by omega)) (by decide)

omit [NodeConfig] [FloatArithmetic] in
theorem loweredWork_nonneg {p : CBlockIndex} (h0 : 0 ≤ setCompact p.header.nBits) :
    0 ≤ setCompact (loweredWork p) := by
  refine getCompact_nonneg (limitWork_nonneg (mul_nonneg h0 ?_)) limitWork_le
  split
  · decide
  · decide

omit [FloatArithmetic] in
theorem intervalWork_nonneg {p : CBlockIndex} {nBits : UInt32} (h : intervalWork p = some nBits)
    (h0 : 0 ≤ setCompact p.header.nBits) : 0 ≤ setCompact nBits := by
  obtain ⟨pindexFirst, -, h⟩ := Option.bind_eq_some_iff.mp h
  obtain rfl := Option.some.inj h
  refine getCompact_nonneg (le_min ?_ (by decide)) (min_le_right _ _)
  refine Int.tdiv_nonneg (mul_nonneg h0 (le_min ?_ (by decide))) (by decide)
  exact le_trans (by decide) (le_max_right _ _)

/-- A block after one with a target that is not negative has such a target itself. -/
theorem getNextWorkRequired_nonneg {p : CBlockIndex} {b : CBlockHeader} {nBits : UInt32}
    (h : getNextWorkRequired p b = some nBits) (h0 : 0 ≤ setCompact p.header.nBits) :
    0 ≤ setCompact nBits := by
  unfold getNextWorkRequired getEmaNextWorkRequired at h
  split at h
  · split at h
    · split at h
      · obtain rfl := Option.some.inj h
        decide
      · obtain rfl := Option.some.inj h
        exact loweredWork_nonneg h0
    · exact emaWork_nonneg h h0
  · split at h
    · obtain rfl := Option.some.inj h
      exact h0
    · exact intervalWork_nonneg h h0

namespace CBlockIndex

variable {B C : CBlockIndex}

theorem ValidChain.nonneg (h : B.ValidChain) : 0 ≤ setCompact B.header.nBits := by
  induction h with
  | root hpos => exact hpos.le
  | child _ hacc ih => exact getNextWorkRequired_nonneg hacc.1 ih

theorem ValidChain.of_mem (h : B.ValidChain) (hC : C ∈ B.chain) : C.ValidChain := by
  induction h with
  | root hpos =>
    obtain rfl := List.mem_singleton.mp hC
    exact .root hpos
  | child hp hacc ih =>
    rcases mem_chain_child.mp hC with rfl | hC
    · exact .child hp hacc
    · exact ih hC

end CBlockIndex

/-! ## The target grows with the times -/

omit [NodeConfig] [FloatArithmetic] in
theorem limitWork_le_self {nHeight : Nat} {bnNew : Int} : limitWork nHeight bnNew ≤ bnNew := by
  have h1 : (if 104290 < nHeight ∧ fiveThousandsLimit < bnNew then fiveThousandsLimit
      else bnNew) ≤ bnNew := by
    split
    · rename_i h
      exact h.2.le
    · exact le_refl bnNew
  unfold limitWork
  dsimp only
  generalize (if 104290 < nHeight ∧ fiveThousandsLimit < bnNew then fiveThousandsLimit
    else bnNew) = bn at h1 ⊢
  split
  · omega
  · exact h1

omit [NodeConfig] [FloatArithmetic] in
theorem limitWork_le_fiveThousandsLimit {nHeight : Nat} {bnNew : Int} (h : 104290 < nHeight) :
    limitWork nHeight bnNew ≤ fiveThousandsLimit := by
  have hlimit : fiveThousandsLimit ≤ proofOfWorkLimit := by decide
  have hbounded : (if 104290 < nHeight ∧ fiveThousandsLimit < bnNew then fiveThousandsLimit
      else bnNew) ≤ fiveThousandsLimit := by
    split
    · exact le_refl fiveThousandsLimit
    · rename_i hnot
      exact not_lt.mp fun hhigh => hnot ⟨h, hhigh⟩
  unfold limitWork
  dsimp only
  rw [if_neg (by omega)]
  exact hbounded

omit [NodeConfig] [FloatArithmetic] in
theorem rounded_le {nHeight : Nat} {bnNew : Int} (h0 : 0 ≤ bnNew) :
    setCompact (getCompact (limitWork nHeight bnNew)) ≤ limitWork nHeight bnNew :=
  setCompact_getCompact_le (limitWork_nonneg h0) (limitWork_le.trans_lt proofOfWorkLimit_lt)

/-- What a block of a valid chain asks for above the height 110322, before it is bounded and
rounded. -/
theorem target_of_acceptable {p : CBlockIndex} {h : CBlockHeader} (hmain : NodeConfig.fTestNet = false)
    (hheight : 110322 ≤ p.nHeight) (hacc : h.Acceptable p) (h0 : 0 ≤ setCompact p.header.nBits) :
    ∃ bnNew : Int, 0 ≤ bnNew ∧ (bnNew : ℚ) ≤ setCompact p.header.nBits * growthFactor p h.nTime ∧
      setCompact h.nBits = setCompact (getCompact (limitWork p.nHeight bnNew)) := by
  have hema : EmaActive p := .inr (by omega)
  obtain ⟨durations, hdur⟩ := blockDurations_isSome p.nHeight (n := 2160) (p := p) (by omega)
  have hwork := hacc.1
  rw [getNextWorkRequired_of_emaActive hema hmain] at hwork
  unfold growthFactor
  by_cases hlong : LongAfter p h.nTime
  · rw [if_pos hlong] at hwork ⊢
    refine ⟨setCompact p.header.nBits * 2, by omega, by push_cast; exact le_refl _, ?_⟩
    rw [← Option.some.inj hwork]
    unfold loweredWork
    dsimp only
    rw [if_neg (by omega)]
  · rw [if_neg hlong] at hwork ⊢
    have hspan : 60 ≤ emaTimespan p.nHeight durations := le_emaTimespan
    have haverage : averageTime p = emaTimespan p.nHeight durations := by
      rw [averageTime, hdur, Option.getD_some]
    have hscaled : 0 ≤ setCompact p.header.nBits * emaTimespan p.nHeight durations :=
      mul_nonneg h0 (by omega)
    refine ⟨_, Int.tdiv_nonneg hscaled (by decide : 0 ≤ perBlockTargetTimespan), ?_, ?_⟩
    · have hdiv := Int.ediv_mul_le (setCompact p.header.nBits * emaTimespan p.nHeight durations)
        (show (120 : Int) ≠ 0 by decide)
      have hcast : (((setCompact p.header.nBits * emaTimespan p.nHeight durations / 120 : Int) : ℚ)) *
          120 ≤ setCompact p.header.nBits * emaTimespan p.nHeight durations := by
        exact_mod_cast hdiv
      rw [Int.tdiv_eq_ediv_of_nonneg hscaled, haverage, ← mul_div_assoc, le_div_iff₀ (by norm_num)]
      exact hcast
    · unfold emaWork at hwork
      rw [hdur] at hwork
      rw [← Option.some.inj hwork]

omit [NodeConfig] in
theorem emaTimespan_le {nHeight : Nat} {durations : List Int} (h : 110322 < nHeight) :
    emaTimespan nHeight durations ≤ 240 := by
  unfold emaTimespan perBlockTargetTimespan
  dsimp only
  rw [if_pos h, if_pos h]
  split
  · decide
  · exact min_le_right _ _

omit [NodeConfig] in
theorem growthFactor_nonneg {p : CBlockIndex} {nTime : UInt32} : 0 ≤ growthFactor p nTime := by
  have hspan : 60 ≤ averageTime p := le_emaTimespan
  unfold growthFactor
  split
  · norm_num
  · exact div_nonneg (by exact_mod_cast (by omega : (0 : Int) ≤ averageTime p)) (by norm_num)

omit [NodeConfig] in
/-- The target at most doubles, and only where it may rise at all. -/
theorem growthFactor_le {p : CBlockIndex} {nTime : UInt32} (hheight : 110322 < p.nHeight) :
    growthFactor p nTime ≤ 2 ^ (if Raises p nTime then 1 else 0) := by
  have hhigh : averageTime p ≤ 240 := emaTimespan_le hheight
  unfold growthFactor
  by_cases hlong : LongAfter p nTime
  · have hraises : Raises p nTime := .inl hlong
    rw [if_pos hlong, if_pos hraises, pow_one]
  · rw [if_neg hlong, div_le_iff₀ (by norm_num)]
    by_cases hema : 120 < averageTime p
    · have hraises : Raises p nTime := .inr hema
      rw [if_pos hraises, pow_one]
      exact_mod_cast (by omega : averageTime p ≤ 2 * 120)
    · have hnot : ¬ Raises p nTime := fun h => h.elim hlong hema
      rw [if_neg hnot, pow_zero]
      exact_mod_cast (by omega : averageTime p ≤ 1 * 120)

namespace CBlockIndex

variable {B C : CBlockIndex}

omit [NodeConfig] [FloatArithmetic] in
theorem child_ne {p : CBlockIndex} {h : CBlockHeader} (hC : C ∈ p.chain) : child p h ≠ C := by
  have hle := nHeight_le_of_mem_chain hC
  rintro rfl
  rw [nHeight] at hle
  omega

/-- The target of a block of a valid chain is at most that of `C` times the growth since. -/
theorem ValidChain.le_growth (hmain : NodeConfig.fTestNet = false) (h : B.ValidChain)
    (hC : C ∈ B.chain) (hheight : 110322 < C.nHeight) :
    (setCompact B.header.nBits : ℚ) ≤ setCompact C.header.nBits * growth C B := by
  induction h with
  | root hpos =>
    obtain rfl := List.mem_singleton.mp hC
    rw [growth, mul_one]
  | @child p h hp hacc ih =>
    rw [growth]
    rcases mem_chain_child.mp hC with rfl | hC
    · rw [if_pos rfl, mul_one]
    · have hle := nHeight_le_of_mem_chain hC
      rw [if_neg (child_ne hC), ← mul_assoc]
      obtain ⟨bnNew, h0, hnew, hbits⟩ := target_of_acceptable hmain (by omega) hacc hp.nonneg
      have hrounded : (setCompact (CBlockIndex.child p h).header.nBits : ℚ) ≤ bnNew := by
        rw [show (CBlockIndex.child p h).header.nBits = h.nBits from rfl, hbits]
        exact_mod_cast (rounded_le h0).trans limitWork_le_self
      calc (setCompact (CBlockIndex.child p h).header.nBits : ℚ)
          ≤ bnNew := hrounded
        _ ≤ setCompact p.header.nBits * growthFactor p h.nTime := hnew
        _ ≤ setCompact C.header.nBits * growth C p * growthFactor p h.nTime :=
          mul_le_mul_of_nonneg_right (ih hC) growthFactor_nonneg

theorem ValidChain.target_le (hmain : NodeConfig.fTestNet = false) (h : B.ValidChain)
    (hheight : 110322 < B.nHeight) : setCompact B.header.nBits ≤ fiveThousandsLimit := by
  cases h with
  | root hpos => exact absurd hheight (Nat.not_lt_zero _)
  | @child p h hp hacc =>
    rw [nHeight] at hheight
    obtain ⟨bnNew, h0, -, hbits⟩ := target_of_acceptable hmain (by omega) hacc hp.nonneg
    rw [show (CBlockIndex.child p h).header = h from rfl, hbits]
    exact (rounded_le h0).trans (limitWork_le_fiveThousandsLimit (by omega))

omit [NodeConfig] in
theorem growth_nonneg (C B : CBlockIndex) : 0 ≤ growth C B := by
  induction B with
  | root h => exact zero_le_one
  | child p h ih =>
    rw [growth]
    split
    · exact zero_le_one
    · exact mul_nonneg ih growthFactor_nonneg

omit [NodeConfig] in
theorem growth_le_rises (hC : C ∈ B.chain) (hheight : 110322 < C.nHeight) :
    growth C B ≤ 2 ^ rises C B := by
  induction B with
  | root h => exact le_refl 1
  | child p h ih =>
    rw [growth, rises]
    rcases mem_chain_child.mp hC with rfl | hC
    · rw [if_pos rfl, if_pos rfl, pow_zero]
    · have hle := nHeight_le_of_mem_chain hC
      rw [if_neg (child_ne hC), if_neg (child_ne hC), pow_add]
      exact mul_le_mul (ih hC) (growthFactor_le (by omega)) growthFactor_nonneg
        (pow_nonneg (by norm_num) _)

end CBlockIndex

open CBlockIndex in
/-- A block of a valid chain has a target within the allowance of `ComputeMinWork` if the times since
the checkpoint let the target grow at most four times for every started period of four hours, or, from
some block on, too little to bring the highest target there is above that. Two rises of the target in
every started period are within it. -/
theorem computeMinWork_spec (hmain : NodeConfig.fTestNet = false) {pcheckpoint pindex : CBlockIndex}
    (hvalid : pindex.ValidChain) (hmem : pcheckpoint ∈ pindex.chain)
    (hheight : 110322 < pcheckpoint.nHeight) :
    let n := startedPeriods (pindex.getBlockTime - pcheckpoint.getBlockTime)
    (GrowsWithin pcheckpoint pindex n → setCompact pindex.header.nBits ≤
      setCompact (computeMinWork pcheckpoint.header.nBits
        (pindex.getBlockTime - pcheckpoint.getBlockTime))) ∧
    (rises pcheckpoint pindex ≤ 2 * n → GrowsWithin pcheckpoint pindex n) := by
  intro n
  have hle := nHeight_le_of_mem_chain hmem
  have hlimit : fiveThousandsLimit ≤ proofOfWorkLimit := by decide
  refine ⟨fun hgrows => ?_, fun hrises => .inl ?_⟩
  · rw [le_computeMinWork_iff hmain (hvalid.of_mem hmem).nonneg hvalid.nonneg
      ((hvalid.target_le hmain (by omega)).trans hlimit)]
    have hcast : (setCompact pindex.header.nBits : ℚ) ≤
        setCompact pcheckpoint.header.nBits * 4 ^ n := by
      rcases hgrows with hgrows | ⟨q, hq, hcheckpoint, hgrows⟩
      · have h0 : (0 : ℚ) ≤ setCompact pcheckpoint.header.nBits := by
          exact_mod_cast (hvalid.of_mem hmem).nonneg
        exact (hvalid.le_growth hmain hmem hheight).trans (mul_le_mul_of_nonneg_left hgrows h0)
      · have hheight' := nHeight_le_of_mem_chain hcheckpoint
        have htop : (setCompact q.header.nBits : ℚ) ≤ fiveThousandsLimit := by
          exact_mod_cast (hvalid.of_mem hq).target_le hmain (by omega)
        calc (setCompact pindex.header.nBits : ℚ)
            ≤ setCompact q.header.nBits * growth q pindex :=
              hvalid.le_growth hmain hq (by omega)
          _ ≤ fiveThousandsLimit * growth q pindex :=
              mul_le_mul_of_nonneg_right htop (growth_nonneg q pindex)
          _ ≤ setCompact pcheckpoint.header.nBits * 4 ^ n := hgrows
    exact_mod_cast hcast
  · calc growth pcheckpoint pindex ≤ 2 ^ rises pcheckpoint pindex :=
          growth_le_rises hmem hheight
      _ ≤ 2 ^ (2 * n) := pow_le_pow_right₀ (by norm_num) hrises
      _ = 4 ^ n := by rw [pow_mul]; norm_num

end

/-! ## A checkpoint whose successor comes at the same time -/

namespace MainnetSample

/-- The lowest difficulty there is, until the difficulty is kept at 5254 or more. -/
def slowBits (n : Nat) : UInt32 := if n ≤ 104291 then 0x1d00ffff else 0x1b0c7898

theorem limitWork_of_le {nHeight : Nat} {bnNew : Int} (h : nHeight ≤ 104290) :
    limitWork nHeight bnNew = limitWork 0 bnNew := by
  simp [limitWork, show ¬ 104290 < nHeight by omega]

theorem limitWork_of_lt {nHeight : Nat} {bnNew : Int} (h : 104290 < nHeight) :
    limitWork nHeight bnNew = limitWork 104291 bnNew := by
  simp [limitWork, h]

/-- A chain with a block every 125 seconds, at the lowest difficulty. -/
def slow (n : Nat) : CBlockIndex := spaced 125 slowBits n

variable {n k : Nat}

theorem average_slow (alpha : Rat) (h1 : 0.06 ≤ alpha) (h2 : alpha ≤ 0.09) (hk : 100 ≤ k) :
    124.9 < average alpha (List.replicate k ((125 : Nat) : Int)) ∧
      average alpha (List.replicate k ((125 : Nat) : Int)) < 125 := by
  have hpos : 0 < (1 - alpha) ^ k := pow_pos (by linarith) k
  have hsmall : (1 - alpha) ^ k ≤ 0.94 ^ 100 :=
    calc (1 - alpha) ^ k ≤ 0.94 ^ k := pow_le_pow_left₀ (by linarith) (by linarith) k
      _ ≤ 0.94 ^ 100 := pow_le_pow_of_le_one (by norm_num) (by norm_num) hk
  have hpow : (0.94 : Rat) ^ 100 < 0.01 := by norm_num
  rw [average_replicate]
  push_cast
  constructor
  · linarith
  · linarith

theorem emaWork_eq {p : CBlockIndex} {durations : List Int}
    (hdur : blockDurations p.nHeight 2160 p = some durations) :
    emaWork p = some (getCompact (limitWork p.nHeight
      ((setCompact p.header.nBits * emaTimespan p.nHeight durations).tdiv 120))) := by
  unfold emaWork
  rw [hdur]
  rfl

theorem slow_durations {nHeight : Nat} (hk : k ≤ n) (hn : n ≤ 110400) :
    blockDurations nHeight k (slow n) = some (List.replicate k ((125 : Nat) : Int)) :=
  spaced_blockDurations hk (by omega) (by decide) (by decide)

theorem slow_emaWork (h1 : 101631 < n) (hn : n ≤ 110400) :
    emaWork (slow n) = some (slowBits (n + 1)) := by
  have hheight : (slow n).nHeight = n := spaced_nHeight
  have hspan : emaTimespan n (List.replicate 2160 ((125 : Nat) : Int)) = 124 := by
    have halpha : (0.06 : Rat) ≤ (if 110322 < n then 0.06 else 0.09) ∧
        (if 110322 < n then 0.06 else 0.09) ≤ (0.09 : Rat) := by
      split <;> norm_num
    obtain ⟨hlow, hhigh⟩ := average_slow _ halpha.1 halpha.2 (show 100 ≤ 2160 by decide)
    refine emaTimespan_eq rfl (by decide) (by decide) ?_ ?_
    · rw [show ((124 : Int) : Rat) = 124 by norm_num]
      linarith
    · rw [show ((124 : Int) : Rat) = 124 by norm_num]
      linarith
  rw [emaWork_eq (by rw [hheight]; exact slow_durations (by omega) hn), hheight, hspan]
  rw [slow, spaced_nBits]
  unfold slowBits
  by_cases h2 : n ≤ 104290
  · rw [if_pos (by omega), if_pos (by omega), limitWork_of_le h2]
    decide
  · rw [if_neg (show ¬ n + 1 ≤ 104291 by omega), limitWork_of_lt (not_le.mp h2)]
    split
    · decide
    · decide

theorem slow_intervalWork (h : (n + 1) % 30 = 0) (hn : n ≤ 101631) :
    intervalWork (slow n) = some 0x1d00ffff := by
  have hheight : (slow n).nHeight = n := spaced_nHeight
  have hrange : blocksLookupRange n ≤ n := by
    have := blocksLookupRange_le (p := slow n) (by rw [hheight]; exact h)
    rwa [hheight] at this
  have hbits : slowBits n = 0x1d00ffff := if_pos (by omega)
  unfold intervalWork
  rw [hheight, slow, spaced_ancestor hrange]
  show some (getCompact _) = _
  rw [spaced_getBlockTime (by omega), spaced_getBlockTime (by omega), spaced_nBits, hbits,
    if_neg (by omega)]
  by_cases h1 : 99988 < n
  · have hspan : ((1370000000 : Int) + ((125 : Nat) : Int) * n - (1370000000 +
        ((125 : Nat) : Int) * ((n - blocksLookupRange n : Nat) : Int))) = 90000 := by
      rw [show blocksLookupRange n = 720 by
        unfold blocksLookupRange
        rw [if_neg (by decide), if_pos h1]
        rfl] at hrange ⊢
      push_cast [hrange]
      ring
    rw [if_pos h1, hspan]
    decide
  · have hspan : ((1370000000 : Int) + ((125 : Nat) : Int) * n - (1370000000 +
        ((125 : Nat) : Int) * ((n - blocksLookupRange n : Nat) : Int))) = 3625 := by
      rw [show blocksLookupRange n = 29 by
        unfold blocksLookupRange
        rw [if_neg (by decide), if_neg h1]
        rfl] at hrange ⊢
      push_cast [hrange]
      ring
    rw [if_neg h1, hspan]
    decide

theorem getNextWorkRequired_slow {b : CBlockHeader} (hn : n ≤ 110400)
    (hlong : ¬ LongAfter (slow n) b.nTime) :
    getNextWorkRequired (slow n) b = some (slowBits (n + 1)) := by
  have hheight : (slow n).nHeight = n := spaced_nHeight
  by_cases h1 : 101631 < n
  · rw [getNextWorkRequired_of_emaActive (.inr (by rw [hheight]; exact h1)) rfl, if_neg hlong]
    exact slow_emaWork h1 hn
  · have hema : ¬ EmaActive (slow n) := by
      rintro (⟨ht, -⟩ | h)
      · cases ht
      · rw [hheight] at h
        exact h1 h
    have hbits : ∀ m ≤ n + 1, slowBits m = 0x1d00ffff := fun m hm => if_pos (by omega)
    unfold getNextWorkRequired
    rw [if_neg hema, hheight, hbits _ le_rfl]
    split
    · rw [slow, spaced_nBits, hbits n (Nat.le_succ n)]
    · rename_i h
      exact slow_intervalWork (not_not.mp h) (by omega)

theorem slow_valid (hn : n ≤ 110400) : (slow n).ValidChain := by
  induction n with
  | zero => exact .root (by decide)
  | succ n ih =>
    have htime : (header (125 * (n + 1)) (slowBits (n + 1))).nTime.toNat =
        1370000000 + 125 * (n + 1) := header_nTime (by omega)
    have hprev : (slow n).getBlockTime = 1370000000 + (125 : Nat) * n :=
      spaced_getBlockTime (by omega)
    have hmedian : (slow n).getMedianTimePast ≤ 1370000000 + (125 : Nat) * n :=
      spaced_getMedianTimePast (by omega)
    have hlong : ¬ LongAfter (slow n) (header (125 * (n + 1)) (slowBits (n + 1))).nTime := by
      unfold LongAfter perBlockTargetTimespan
      omega
    refine .child (ih (by omega)) ⟨getNextWorkRequired_slow (by omega) hlong, ?_⟩
    show (slow n).getMedianTimePast < ((header (125 * (n + 1)) _).nTime.toNat : Int)
    omega

/-- Two blocks at half the spacing lower the average block time, ... -/
def quick1 : CBlockIndex := .child (slow 110400) (header 13800060 0x1b0c7898)

def quick2 : CBlockIndex := .child quick1 (header 13800120 0x1b0c7898)

/-- ... so the block after them has a lower target. It comes ten minutes later itself, ... -/
def checkpoint : CBlockIndex := .child quick2 (header 13800720 0x1b0c28c7)

/-- ... and its successor, with the same time, has a higher target again. -/
def successor : CBlockIndex := .child checkpoint (header 13800720 0x1b0c42b7)

theorem slow_nHeight : (slow n).nHeight = n := spaced_nHeight

theorem quick1_durations {nHeight : Nat} (h : k + 1 ≤ 110400) :
    blockDurations nHeight (k + 1) quick1 =
      some (List.replicate k ((125 : Nat) : Int) ++ [60]) := by
  rw [quick1, blockDurations_child, slow_durations (by omega) le_rfl,
    show (header 13800060 0x1b0c7898).getBlockTime - (slow 110400).getBlockTime = 60 by decide,
    limitDuration_of_mem (by decide) (by decide)]
  rfl

theorem quick2_durations {nHeight : Nat} (h : k + 2 ≤ 110400) :
    blockDurations nHeight (k + 2) quick2 =
      some (List.replicate k ((125 : Nat) : Int) ++ [60] ++ [60]) := by
  rw [quick2, blockDurations_child, quick1_durations (by omega),
    show (header 13800120 0x1b0c7898).getBlockTime - quick1.getBlockTime = 60 by decide,
    limitDuration_of_mem (by decide) (by decide)]
  rfl

theorem checkpoint_durations {nHeight : Nat} (hn : 110322 < nHeight) (h : k + 3 ≤ 110400) :
    blockDurations nHeight (k + 3) checkpoint =
      some (List.replicate k ((125 : Nat) : Int) ++ [60] ++ [60] ++ [180]) := by
  have hlimit : limitDuration nHeight 600 = 180 := by
    simp [limitDuration, perBlockTargetTimespan, hn]
  rw [checkpoint, blockDurations_child, quick2_durations (by omega),
    show (header 13800720 0x1b0c28c7).getBlockTime - quick2.getBlockTime = 600 by decide, hlimit]
  rfl

theorem valid_child {p : CBlockIndex} {h : CBlockHeader} {durations : List Int} {m : Int}
    (hp : p.ValidChain) (hheight : 110322 < p.nHeight)
    (hdur : blockDurations p.nHeight 2160 p = some durations)
    (hspan : emaTimespan p.nHeight durations = m) (hlong : ¬ LongAfter p h.nTime)
    (hbits : getCompact (limitWork 104291 ((setCompact p.header.nBits * m).tdiv 120)) = h.nBits)
    (hmedian : p.getMedianTimePast < h.getBlockTime) : (CBlockIndex.child p h).ValidChain := by
  refine .child hp ⟨?_, hmedian⟩
  rw [getNextWorkRequired_of_emaActive (.inr (by omega)) rfl, if_neg hlong, emaWork_eq hdur, hspan,
    limitWork_of_lt (by omega), hbits]

theorem emaTimespan_of_average {nHeight : Nat} {durations : List Int} {m : Int}
    (hn : 110322 < nHeight) (h60 : 60 ≤ m) (h240 : m ≤ 240)
    (h1 : m ≤ average 0.06 durations) (h2 : average 0.06 durations < m + 1) :
    emaTimespan nHeight durations = m :=
  emaTimespan_eq (if_pos hn).symm h60 h240 h1 h2

theorem quick1_valid : quick1.ValidChain := by
  have hheight : 110322 < (slow 110400).nHeight := by
    rw [slow_nHeight]
    decide
  obtain ⟨h1, h2⟩ := average_slow 0.06 (k := 2160) le_rfl (by norm_num) (by decide)
  refine valid_child (m := 124) (slow_valid le_rfl) hheight (slow_durations (by decide) le_rfl)
    (emaTimespan_of_average hheight (by decide) (by decide) ?_ ?_) (by decide) (by decide)
    (by decide)
  · rw [show ((124 : Int) : Rat) = 124 by norm_num]
    linarith
  · rw [show ((124 : Int) : Rat) = 124 by norm_num]
    linarith

theorem quick2_valid : quick2.ValidChain := by
  have hheight : 110322 < quick1.nHeight := by
    rw [quick1, CBlockIndex.nHeight, slow_nHeight]
    decide
  obtain ⟨h1, h2⟩ := average_slow 0.06 (k := 2159) le_rfl (by norm_num) (by decide)
  refine valid_child (m := 121) quick1_valid hheight (quick1_durations (k := 2159) (by decide))
    (emaTimespan_of_average hheight (by decide) (by decide) ?_ ?_) (by decide) (by decide)
    (by decide)
  · rw [average_concat, show ((121 : Int) : Rat) = 121 by norm_num,
      show ((60 : Int) : Rat) = 60 by norm_num]
    linarith
  · rw [average_concat, show ((121 : Int) : Rat) = 121 by norm_num,
      show ((60 : Int) : Rat) = 60 by norm_num]
    linarith

theorem checkpoint_valid : checkpoint.ValidChain := by
  have hheight : 110322 < quick2.nHeight := by
    rw [quick2, quick1, CBlockIndex.nHeight, CBlockIndex.nHeight, slow_nHeight]
    decide
  obtain ⟨h1, h2⟩ := average_slow 0.06 (k := 2158) le_rfl (by norm_num) (by decide)
  refine valid_child (m := 117) quick2_valid hheight (quick2_durations (k := 2158) (by decide))
    (emaTimespan_of_average hheight (by decide) (by decide) ?_ ?_) (by decide) (by decide)
    (by decide)
  · rw [average_concat, average_concat, show ((117 : Int) : Rat) = 117 by norm_num,
      show ((60 : Int) : Rat) = 60 by norm_num]
    linarith
  · rw [average_concat, average_concat, show ((117 : Int) : Rat) = 117 by norm_num,
      show ((60 : Int) : Rat) = 60 by norm_num]
    linarith

theorem checkpoint_nHeight : 110322 < checkpoint.nHeight := by
  rw [checkpoint, quick2, quick1, CBlockIndex.nHeight, CBlockIndex.nHeight, CBlockIndex.nHeight,
    slow_nHeight]
  decide

theorem successor_valid : successor.ValidChain := by
  obtain ⟨h1, h2⟩ := average_slow 0.06 (k := 2157) le_rfl (by norm_num) (by decide)
  refine valid_child (m := 121) checkpoint_valid checkpoint_nHeight
    (checkpoint_durations (k := 2157) checkpoint_nHeight (by decide))
    (emaTimespan_of_average checkpoint_nHeight (by decide) (by decide) ?_ ?_) (by decide)
    (by decide) (by decide)
  · rw [average_concat, average_concat, average_concat, show ((121 : Int) : Rat) = 121 by norm_num,
      show ((60 : Int) : Rat) = 60 by norm_num, show ((180 : Int) : Rat) = 180 by norm_num]
    linarith
  · rw [average_concat, average_concat, average_concat, show ((121 : Int) : Rat) = 121 by norm_num,
      show ((60 : Int) : Rat) = 60 by norm_num, show ((180 : Int) : Rat) = 180 by norm_num]
    linarith

theorem checkpoint_mem_successor : checkpoint ∈ successor.chain :=
  CBlockIndex.mem_chain_child.mpr (.inr CBlockIndex.self_mem_chain)

/-- The checkpoint is within the allowance of the block two before it. -/
theorem computeMinWork_spec_sample :
    setCompact checkpoint.header.nBits ≤ setCompact (computeMinWork quick1.header.nBits
      (checkpoint.getBlockTime - quick1.getBlockTime)) := by
  have hmem : quick1 ∈ checkpoint.chain :=
    CBlockIndex.mem_chain_child.mpr (.inr (CBlockIndex.mem_chain_child.mpr (.inr
      CBlockIndex.self_mem_chain)))
  have hheight : 110322 < quick1.nHeight := by
    rw [quick1, CBlockIndex.nHeight, slow_nHeight]
    decide
  obtain ⟨hspec, hrises⟩ := computeMinWork_spec rfl checkpoint_valid hmem hheight
  refine hspec (hrises ?_)
  have hone : ∀ (p : CBlockIndex) (nTime : UInt32), (if Raises p nTime then 1 else 0) ≤ 1 := by
    intro p nTime
    split
    · exact le_refl 1
    · exact Nat.zero_le 1
  have hself : rises quick1 quick1 = 0 := by
    rw [quick1, rises, if_pos rfl]
  have hquick2 : rises quick1 quick2 ≤ 1 := by
    rw [quick2, rises, if_neg (CBlockIndex.child_ne CBlockIndex.self_mem_chain), hself]
    exact Nat.add_le_add_left (hone _ _) 0
  have hcheckpoint : rises quick1 checkpoint ≤ 2 := by
    have hmem' : quick1 ∈ quick2.chain :=
      CBlockIndex.mem_chain_child.mpr (.inr CBlockIndex.self_mem_chain)
    rw [checkpoint, rises, if_neg (CBlockIndex.child_ne hmem')]
    exact Nat.add_le_add hquick2 (hone _ _)
  exact hcheckpoint

/-- `ProcessBlock` takes the successor of the checkpoint for a block with too little work. -/
theorem not_computeMinWork_spec : ¬ ∀ (pcheckpoint pindex : CBlockIndex), pindex.ValidChain →
    pcheckpoint ∈ pindex.chain → 110322 < pcheckpoint.nHeight →
    pcheckpoint.getBlockTime ≤ pindex.getBlockTime →
    setCompact pindex.header.nBits ≤ setCompact (computeMinWork pcheckpoint.header.nBits
      (pindex.getBlockTime - pcheckpoint.getBlockTime)) := by
  intro h
  have hle := h checkpoint successor successor_valid checkpoint_mem_successor checkpoint_nHeight
    (by decide)
  rw [show successor.getBlockTime - checkpoint.getBlockTime = 0 by decide] at hle
  revert hle
  decide

end MainnetSample

end Terracoin
