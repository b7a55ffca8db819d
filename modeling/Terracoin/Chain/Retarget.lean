import Terracoin.Chain.Ancestry
import Terracoin.Primitives.Compact
import Terracoin.Validation.CheckBlock
import Mathlib.Data.List.Sort
import Mathlib.Data.Rat.Floor
import Mathlib.Tactic.Ring

/-!
# The work required of the next block

`GetNextWorkRequired` and `GetEmaNextWorkRequired`: the interval rule of the first blocks, the
moving average of the block times that replaced it, and the lowered difficulty of a block that
comes more than 20 minutes after its predecessor. The functions follow `pprev` without testing it,
so they are partial here; `getNextWorkRequired_isSome` shows that at the heights where they are
used the predecessors exist.

The moving average is computed in `float`, whose rounding is the compiler's: its operations are a
parameter.
-/

namespace Terracoin

/-! ## The time of a chain -/

namespace CBlockIndex

/-- The times of the entry and of its predecessors, `n` of them if there are as many. -/
def lastTimes : Nat → CBlockIndex → List Int
  | 0, _ => []
  | _ + 1, root h => [h.getBlockTime]
  | n + 1, child p h => h.getBlockTime :: lastTimes n p

def getMedianTimePast (pindex : CBlockIndex) : Int :=
  let pmedian := (pindex.lastTimes 11).insertionSort (· ≤ ·)
  pmedian.getD (pmedian.length / 2) 0

/-- The entry `n` steps down the chain, if it exists. -/
def ancestor : Nat → CBlockIndex → Option CBlockIndex
  | 0, p => some p
  | n + 1, p => p.pprev.bind (ancestor n)

theorem lastTimes_ne_nil {n : Nat} {p : CBlockIndex} : p.lastTimes (n + 1) ≠ [] := by
  cases p <;> simp [lastTimes]

theorem getMedianTimePast_mem (p : CBlockIndex) : p.getMedianTimePast ∈ p.lastTimes 11 := by
  unfold getMedianTimePast
  dsimp only
  have hpos : 0 < ((p.lastTimes 11).insertionSort (· ≤ ·)).length := by
    rw [List.length_insertionSort]
    exact List.length_pos_of_ne_nil lastTimes_ne_nil
  apply (List.mem_insertionSort (· ≤ ·)).mp
  rw [List.getD_eq_getElem?_getD, List.getElem?_eq_getElem (Nat.div_lt_self hpos (by decide))]
  exact List.getElem_mem _

theorem ancestor_isSome {n : Nat} {p : CBlockIndex} (h : n ≤ p.nHeight) :
    ∃ q, p.ancestor n = some q := by
  induction n generalizing p with
  | zero => exact ⟨p, rfl⟩
  | succ n ih =>
    cases p with
    | root h' => simp [nHeight] at h
    | child p h' =>
      rw [nHeight] at h
      exact ih (by omega)

end CBlockIndex

/-! ## The moving average -/

/-- The arithmetic of `float`, with its conversions from a decimal literal, from `int64` and to
`int64`. -/
class FloatArithmetic where
  float : Type
  ofDecimal : Rat → float
  ofInt : Int → float
  toInt : float → Int
  add : float → float → float
  sub : float → float → float
  mul : float → float → float

def nTargetTimespan : Int := 60 * 60

def nTargetSpacing : Int := 2 * 60

def nInterval : Nat := 30

def perBlockTargetTimespan : Int := 120

/-- The target of `0x1b0c7898`, the one of difficulty 5254. -/
def fiveThousandsLimit : Int := setCompact 0x1b0c7898

/-- The bounds of a new target after the block of height `nHeight`. -/
def limitWork (nHeight : Nat) (bnNew : Int) : Int :=
  let bnNew := if 104290 < nHeight ∧ fiveThousandsLimit < bnNew then fiveThousandsLimit else bnNew
  if proofOfWorkLimit < bnNew then proofOfWorkLimit else bnNew

/-- The bounds of one duration, when the last block has height `nHeight`. -/
def limitDuration (nHeight : Nat) (duration : Int) : Int :=
  -- above 110322 the durations lie between half and one and a half of the block target
  let duration := if 110322 < nHeight ∧ 180 < duration then 180 else duration
  let duration :=
    if 110322 < nHeight ∧ 0 ≤ duration ∧ duration < perBlockTargetTimespan / 2 then
      perBlockTargetTimespan / 2
    else duration
  if duration < 0 ∧ 104290 < nHeight then perBlockTargetTimespan else duration

/-- `block_durations`, oldest first: `n` durations up to the block `pindexFirst`. -/
def blockDurations (nHeight : Nat) : Nat → CBlockIndex → Option (List Int)
  | 0, _ => some []
  | n + 1, pindexFirst => do
    let pprev ← pindexFirst.pprev
    let durations ← blockDurations nHeight n pprev
    pure (durations ++
      [limitDuration nHeight (pindexFirst.getBlockTime - pprev.getBlockTime)])

section

variable [FloatArithmetic]

open FloatArithmetic

/-- The loop over `block_durations`: the exponential moving average. -/
def accumulate (alpha : float) (durations : List Int) : float :=
  durations.foldl
    (fun accumulator duration =>
      add (mul alpha (ofInt duration)) (mul (sub (ofInt 1) alpha) accumulator))
    (ofInt 120)

/-- `nActualTimespan` of the moving average, within its bounds. -/
def emaTimespan (nHeight : Nat) (durations : List Int) : Int :=
  let alpha := if 110322 < nHeight then ofDecimal 0.06 else ofDecimal 0.09
  let nActualTimespan := toInt (accumulate alpha durations)
  if nActualTimespan < perBlockTargetTimespan / 2 then perBlockTargetTimespan / 2
  else min nActualTimespan
    (if 110322 < nHeight then perBlockTargetTimespan * 2 else perBlockTargetTimespan * 4)

/-- The target of `GetEmaNextWorkRequired` for a block in time. -/
def emaWork (pindexLast : CBlockIndex) : Option UInt32 := do
  let durations ← blockDurations pindexLast.nHeight 2160 pindexLast
  let nActualTimespan := emaTimespan pindexLast.nHeight durations
  let bnNew := (setCompact pindexLast.header.nBits * nActualTimespan).tdiv perBlockTargetTimespan
  pure (getCompact (limitWork pindexLast.nHeight bnNew))

end

/-- The target of `GetEmaNextWorkRequired` on mainnet for a block that comes too late. -/
def loweredWork (pindexLast : CBlockIndex) : UInt32 :=
  let bnNew := setCompact pindexLast.header.nBits *
    if 101631 < pindexLast.nHeight ∧ pindexLast.nHeight < 103791 then 10 else 2
  getCompact (limitWork pindexLast.nHeight bnNew)

/-- The time `nTime` is more than 20 minutes after the block. -/
def LongAfter (pindexLast : CBlockIndex) (nTime : UInt32) : Prop :=
  pindexLast.getBlockTime + perBlockTargetTimespan * 10 < nTime.toNat

instance (pindexLast : CBlockIndex) (nTime : UInt32) : Decidable (LongAfter pindexLast nTime) :=
  inferInstanceAs (Decidable (_ < _))

/-! ## The interval rule -/

section

variable [NodeConfig]

/-- `nBlocksLookupRange` of `GetNextWorkRequired`. -/
def blocksLookupRange (nHeight : Nat) : Nat :=
  if NodeConfig.fTestNet then
    if 89 < nHeight then nInterval else nInterval - 1
  else if 99988 < nHeight then nInterval * 24 else nInterval - 1

/-- The target of `GetNextWorkRequired` at the end of an interval. -/
def intervalWork (pindexLast : CBlockIndex) : Option UInt32 := do
  let pindexFirst ← pindexLast.ancestor (blocksLookupRange pindexLast.nHeight)
  let nActualTimespan := pindexLast.getBlockTime - pindexFirst.getBlockTime
  let nActualTimespan :=
    if 101908 < pindexLast.nHeight then nActualTimespan.tdiv 3
    else if 99988 < pindexLast.nHeight then nActualTimespan.tdiv 24
    else nActualTimespan
  let nActualTimespan := min (max nActualTimespan (nTargetTimespan / 4)) (nTargetTimespan * 4)
  let bnNew := (setCompact pindexLast.header.nBits * nActualTimespan).tdiv nTargetTimespan
  pure (getCompact (min bnNew proofOfWorkLimit))

/-- The blocks after which the moving average is in force. -/
def EmaActive (pindexLast : CBlockIndex) : Prop :=
  NodeConfig.fTestNet = true ∧ 5182 < pindexLast.nHeight ∨ 101631 < pindexLast.nHeight

instance (pindexLast : CBlockIndex) : Decidable (EmaActive pindexLast) :=
  inferInstanceAs (Decidable (_ ∨ _))

variable [FloatArithmetic]

def getEmaNextWorkRequired (pindexLast : CBlockIndex) (pblock : CBlockHeader) : Option UInt32 :=
  if LongAfter pindexLast pblock.nTime then
    if NodeConfig.fTestNet then some (getCompact proofOfWorkLimit)
    else some (loweredWork pindexLast)
  else emaWork pindexLast

def getNextWorkRequired (pindexLast : CBlockIndex) (pblock : CBlockHeader) : Option UInt32 :=
  if EmaActive pindexLast then getEmaNextWorkRequired pindexLast pblock
  else if (pindexLast.nHeight + 1) % nInterval ≠ 0 then some pindexLast.header.nBits
  else intervalWork pindexLast

/-- What `AcceptBlock` asks of the work and the time of a block after `pindexPrev`. -/
def CBlockHeader.Acceptable (pindexPrev : CBlockIndex) (pblock : CBlockHeader) : Prop :=
  getNextWorkRequired pindexPrev pblock = some pblock.nBits ∧
    pindexPrev.getMedianTimePast < pblock.getBlockTime

end

/-! ## The predecessors exist -/

theorem blockDurations_isSome (nHeight : Nat) {n : Nat} {p : CBlockIndex} (h : n ≤ p.nHeight) :
    ∃ durations, blockDurations nHeight n p = some durations := by
  induction n generalizing p with
  | zero => exact ⟨[], rfl⟩
  | succ n ih =>
    cases p with
    | root h' => simp [CBlockIndex.nHeight] at h
    | child p h' =>
      rw [CBlockIndex.nHeight] at h
      obtain ⟨durations, hd⟩ := ih (p := p) (by omega)
      refine ⟨durations ++ [limitDuration nHeight (h'.getBlockTime - p.getBlockTime)], ?_⟩
      show (blockDurations nHeight n p >>= fun durations => _) = _
      rw [hd]
      rfl

section

variable [NodeConfig] {p : CBlockIndex}

theorem le_nHeight_of_emaActive (h : EmaActive p) : 2160 ≤ p.nHeight := by
  rcases h with ⟨-, h⟩ | h
  · omega
  · omega

theorem blocksLookupRange_le (h : (p.nHeight + 1) % nInterval = 0) :
    blocksLookupRange p.nHeight ≤ p.nHeight := by
  unfold blocksLookupRange nInterval at *
  split
  · split
    · omega
    · omega
  · split
    · omega
    · omega

variable [FloatArithmetic]

omit [NodeConfig] in
theorem emaWork_isSome (h : 2160 ≤ p.nHeight) : ∃ nBits, emaWork p = some nBits := by
  obtain ⟨durations, hd⟩ := blockDurations_isSome p.nHeight h
  exact ⟨_, by rw [emaWork, hd]; rfl⟩

/-- `GetNextWorkRequired` finds the predecessors it looks for. -/
theorem getNextWorkRequired_isSome (p : CBlockIndex) (pblock : CBlockHeader) :
    ∃ nBits, getNextWorkRequired p pblock = some nBits := by
  unfold getNextWorkRequired
  by_cases hema : EmaActive p
  · rw [if_pos hema]
    unfold getEmaNextWorkRequired
    split
    · split
      · exact ⟨_, rfl⟩
      · exact ⟨_, rfl⟩
    · exact emaWork_isSome (le_nHeight_of_emaActive hema)
  · rw [if_neg hema]
    split
    · exact ⟨_, rfl⟩
    · rename_i hint
      obtain ⟨q, hq⟩ := CBlockIndex.ancestor_isSome (blocksLookupRange_le (not_not.mp hint))
      exact ⟨_, by rw [intervalWork, hq]; rfl⟩

theorem getNextWorkRequired_congr {p : CBlockIndex} {b b' : CBlockHeader} (h : b.nTime = b'.nTime) :
    getNextWorkRequired p b = getNextWorkRequired p b' := by
  unfold getNextWorkRequired getEmaNextWorkRequired
  rw [h]

theorem getNextWorkRequired_of_not_emaActive {p : CBlockIndex} (b b' : CBlockHeader)
    (h : ¬ EmaActive p) : getNextWorkRequired p b = getNextWorkRequired p b' := by
  unfold getNextWorkRequired
  rw [if_neg h, if_neg h]

theorem getNextWorkRequired_of_emaActive {p : CBlockIndex} {b : CBlockHeader} (h : EmaActive p)
    (hmain : NodeConfig.fTestNet = false) : getNextWorkRequired p b =
      if LongAfter p b.nTime then some (loweredWork p) else emaWork p := by
  unfold getNextWorkRequired getEmaNextWorkRequired
  rw [if_pos h, hmain]
  rfl

end

/-! ## Evenly spaced chains on mainnet -/

namespace MainnetSample

scoped instance config : NodeConfig where
  fTestNet := false
  nTotalBlocksEstimate := 110197
  fScriptCheckThreads := false
  fTxIndex := false

scoped instance hashing : Hashing := Sample.hashing

/-- The moving average without rounding. -/
scoped instance floats : FloatArithmetic where
  float := Rat
  ofDecimal x := x
  ofInt x := x
  toInt x := x.num.tdiv x.den
  add x y := x + y
  sub x y := x - y
  mul x y := x * y

/-- A block at the given number of seconds after the first one. -/
def header (nSeconds : Nat) (nBits : UInt32) : CBlockHeader :=
  ⟨2, 0, 0, UInt32.ofNat (1370000000 + nSeconds), nBits, 0⟩

/-- A chain with a block every `gap` seconds. -/
def spaced (gap : Nat) (nBits : Nat → UInt32) : Nat → CBlockIndex
  | 0 => .root (header 0 (nBits 0))
  | n + 1 => .child (spaced gap nBits n) (header (gap * (n + 1)) (nBits (n + 1)))

variable {gap n k : Nat} {nBits : Nat → UInt32}

theorem spaced_header : (spaced gap nBits n).header = header (gap * n) (nBits n) := by
  cases n <;> rfl

theorem spaced_nHeight : (spaced gap nBits n).nHeight = n := by
  induction n with
  | zero => rfl
  | succ n ih => rw [spaced, CBlockIndex.nHeight, ih]

theorem spaced_nBits : (spaced gap nBits n).header.nBits = nBits n := by
  rw [spaced_header]
  rfl

theorem header_nTime {nSeconds : Nat} {bits : UInt32} (h : nSeconds ≤ 10 ^ 8) :
    (header nSeconds bits).nTime.toNat = 1370000000 + nSeconds :=
  UInt32.toNat_ofNat_of_lt' (by show _ < 2 ^ 32; omega)

theorem spaced_getBlockTime (h : gap * n ≤ 10 ^ 8) :
    (spaced gap nBits n).getBlockTime = 1370000000 + gap * n := by
  unfold CBlockIndex.getBlockTime CBlockHeader.getBlockTime
  rw [spaced_header, header_nTime h]
  push_cast
  ring

theorem spaced_ancestor (h : k ≤ n) :
    (spaced gap nBits n).ancestor k = some (spaced gap nBits (n - k)) := by
  induction k generalizing n with
  | zero => rfl
  | succ k ih =>
    obtain ⟨m, rfl⟩ : ∃ m, n = m + 1 := ⟨n - 1, by omega⟩
    rw [Nat.succ_sub_succ]
    exact ih (by omega)

theorem blockDurations_child {nHeight : Nat} {p : CBlockIndex} {h : CBlockHeader} :
    blockDurations nHeight (k + 1) (.child p h) = (blockDurations nHeight k p).map
      (· ++ [limitDuration nHeight (h.getBlockTime - p.getBlockTime)]) := by
  show (blockDurations nHeight k p >>= fun durations => _) = _
  cases blockDurations nHeight k p <;> rfl

theorem limitDuration_of_mem {nHeight : Nat} {duration : Int} (h1 : 60 ≤ duration)
    (h2 : duration ≤ 180) : limitDuration nHeight duration = duration := by
  unfold limitDuration perBlockTargetTimespan
  dsimp only
  rw [if_neg (by omega), if_neg (by omega), if_neg (by omega)]

theorem spaced_blockDurations {nHeight : Nat} (hk : k ≤ n) (hn : gap * n ≤ 10 ^ 8)
    (h1 : 60 ≤ gap) (h2 : gap ≤ 180) :
    blockDurations nHeight k (spaced gap nBits n) = some (List.replicate k (gap : Int)) := by
  induction k generalizing n with
  | zero => rfl
  | succ k ih =>
    obtain ⟨m, rfl⟩ : ∃ m, n = m + 1 := ⟨n - 1, by omega⟩
    have hm : gap * m ≤ 10 ^ 8 := le_trans (Nat.mul_le_mul_left _ (Nat.le_succ m)) hn
    have htime : (header (gap * (m + 1)) (nBits (m + 1))).getBlockTime -
        (spaced gap nBits m).getBlockTime = gap := by
      rw [CBlockHeader.getBlockTime, header_nTime hn, spaced_getBlockTime hm]
      push_cast
      ring
    rw [spaced, blockDurations_child, htime, limitDuration_of_mem (by omega) (by omega),
      ih (by omega) hm, List.replicate_succ']
    rfl

/-- The moving average as a rational number. -/
def average (alpha : Rat) (durations : List Int) : Rat := accumulate alpha durations

theorem average_concat (alpha : Rat) (durations : List Int) (duration : Int) :
    average alpha (durations ++ [duration]) =
      alpha * duration + (1 - alpha) * average alpha durations := by
  unfold average accumulate
  rw [List.foldl_concat]
  show alpha * (duration : Rat) + (((1 : Int) : Rat) - alpha) * _ = _
  rw [Int.cast_one]

theorem average_replicate (alpha : Rat) (k : Nat) (duration : Int) :
    average alpha (List.replicate k duration) = duration + (120 - duration) * (1 - alpha) ^ k := by
  induction k with
  | zero =>
    show ((120 : Int) : Rat) = _
    push_cast
    ring
  | succ k ih =>
    rw [List.replicate_succ', average_concat, ih, pow_succ]
    ring

theorem tdiv_of_floor {q : Rat} {m : Int} (hm : 0 ≤ m) (h1 : m ≤ q) (h2 : q < m + 1) :
    q.num.tdiv q.den = m := by
  have hfloor : ⌊q⌋ = m := Int.floor_eq_iff.mpr ⟨h1, h2⟩
  have hq : 0 ≤ q := le_trans (by exact_mod_cast hm) h1
  rw [Int.tdiv_eq_ediv_of_nonneg (Rat.num_nonneg.mpr hq), ← hfloor, Rat.floor_def']

/-- The timespan is the whole part of the average, if that lies between the bounds. -/
theorem emaTimespan_eq {nHeight : Nat} {alpha : Rat} {durations : List Int} {m : Int}
    (halpha : alpha = if 110322 < nHeight then 0.06 else 0.09) (h60 : 60 ≤ m) (h240 : m ≤ 240)
    (h1 : m ≤ average alpha durations) (h2 : average alpha durations < m + 1) :
    emaTimespan nHeight durations = m := by
  have htoInt : FloatArithmetic.toInt (accumulate alpha durations) = m :=
    tdiv_of_floor (by omega) h1 h2
  have hfloat : (if 110322 < nHeight then FloatArithmetic.ofDecimal 0.06
      else FloatArithmetic.ofDecimal 0.09 : FloatArithmetic.float) = alpha := by
    rw [halpha]
    rfl
  unfold emaTimespan
  dsimp only
  rw [hfloat, htoInt]
  unfold perBlockTargetTimespan
  rw [if_neg (by omega)]
  split
  · omega
  · omega

theorem spaced_lastTimes (hn : gap * n ≤ 10 ^ 8) :
    ∀ t ∈ (spaced gap nBits n).lastTimes k, t ≤ 1370000000 + gap * n := by
  induction k generalizing n with
  | zero => simp [CBlockIndex.lastTimes]
  | succ k ih =>
    cases n with
    | zero =>
      intro t ht
      obtain rfl : t = (spaced gap nBits 0).getBlockTime := List.mem_singleton.mp ht
      exact le_of_eq (spaced_getBlockTime hn)
    | succ n =>
      have hm : gap * n ≤ 10 ^ 8 := le_trans (Nat.mul_le_mul_left _ (Nat.le_succ n)) hn
      intro t ht
      rcases List.mem_cons.mp ht with rfl | ht
      · exact le_of_eq (spaced_getBlockTime hn)
      · have := ih hm t ht
        push_cast
        rw [mul_add]
        omega

theorem spaced_getMedianTimePast (hn : gap * n ≤ 10 ^ 8) :
    (spaced gap nBits n).getMedianTimePast ≤ 1370000000 + gap * n :=
  spaced_lastTimes hn _ (CBlockIndex.getMedianTimePast_mem _)

end MainnetSample

end Terracoin
