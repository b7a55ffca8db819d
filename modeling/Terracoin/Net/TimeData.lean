import Terracoin.Lib.CheckedInt
import Terracoin.Lib.OrderStatistic
import Terracoin.Lib.Recent
import Mathlib.Algebra.Order.Ring.Int

/-!
# The clock of the network

`AddTimeData` takes one sample from every address, the difference of its clock from the own one, and
sets `nTimeOffset` to the median of the samples whenever it has an odd number of them, if that is
less than 70 minutes. The filter holds 200 values. When it is full their number is even and stays so:
the offset is the median of the first 199 values, the zero of the start among them, and never changes
again (`addTimeData_spec`). A difference that is not an `int64`, or whose absolute value is not one,
is an overflow.
-/

namespace Terracoin

open Checked OrderStatistic Recent

/-- `CMedianFilter<int64>`. -/
structure CMedianFilterInt64 where
  vValues : List Int
  vSorted : List Int
  nSize : Nat

namespace CMedianFilterInt64

def new (size : Nat) (initial_value : Int) : CMedianFilterInt64 :=
  ⟨[initial_value], [initial_value], size⟩

def input (filter : CMedianFilterInt64) (value : Int) : CMedianFilterInt64 :=
  let vValues := push filter.nSize filter.vValues value
  { filter with vValues, vSorted := vValues.insertionSort (· ≤ ·) }

/-- `median`; not defined if the assertion fails or the sum overflows. -/
def median (filter : CMedianFilterInt64) : Option Int :=
  let size := filter.vSorted.length
  if size % 2 = 1 then filter.vSorted[size / 2]?
  else do
    let lower ← filter.vSorted[size / 2 - 1]?
    let upper ← filter.vSorted[size / 2]?
    let sum ← int64 (lower + upper)
    pure (sum.tdiv 2)

end CMedianFilterInt64

/-- `abs64`. -/
def abs64 (n : Int) : Option Int := if 0 ≤ n then some n else int64 (-n)

/-- The static variables behind `AddTimeData`; `fDone` is set with the warning. -/
structure TimeData (Addr : Type) where
  setKnown : List Addr
  vTimeOffsets : CMedianFilterInt64
  nTimeOffset : Int
  fDone : Bool

/-- The arguments of `AddTimeData`, and the clock. -/
structure TimeCall (Addr : Type) where
  ip : Addr
  nTime : Int
  time : Int

/-- Another clock is off by less than five minutes. -/
def fMatch (vSorted : List Int) : Option Bool :=
  vSorted.foldlM (fun fMatch nOffset =>
    if nOffset = 0 then some fMatch
    else (abs64 nOffset).map fun n => fMatch || decide (n < 5 * 60)) false

namespace TimeData

variable {Addr : Type} [DecidableEq Addr]

def init : TimeData Addr := ⟨[], .new 200 0, 0, false⟩

def addTimeData (s : TimeData Addr) (c : TimeCall Addr) : Option (TimeData Addr) := do
  let nOffsetSample ← int64 (c.nTime - c.time)
  if c.ip ∈ s.setKnown then pure s
  else
    let s := { s with
      setKnown := c.ip :: s.setKnown
      vTimeOffsets := s.vTimeOffsets.input nOffsetSample }
    let size := s.vTimeOffsets.vValues.length
    if 5 ≤ size ∧ size % 2 = 1 then do
      let nMedian ← s.vTimeOffsets.median
      let n ← abs64 nMedian
      if n < 70 * 60 then pure { s with nTimeOffset := nMedian }
      else if s.fDone then pure { s with nTimeOffset := 0 }
      else do
        let fMatch ← fMatch s.vTimeOffsets.vSorted
        pure { s with nTimeOffset := 0, fDone := !fMatch }
    else pure s

def run (s : TimeData Addr) (calls : List (TimeCall Addr)) : Option (TimeData Addr) :=
  calls.foldlM addTimeData s

/-- The samples: those of the first call for each address. -/
def samples : List Addr → List (TimeCall Addr) → List Int
  | _, [] => []
  | setKnown, c :: calls =>
    if c.ip ∈ setKnown then samples setKnown calls
    else (c.nTime - c.time) :: samples (c.ip :: setKnown) calls

end TimeData

/-! ## The offset of a list of values -/

/-- How many of the first values the offset is the median of: an odd number, and at most 199. -/
def counted (n : Nat) : Nat := (min n 199 + 1) / 2 * 2 - 1

/-- The median of these values if there are five of them and it is less than 70 minutes. -/
def offsetOf (values : List Int) : Int :=
  if counted values.length < 5 then 0
  else
    match nth (values.take (counted values.length)) (counted values.length / 2) with
    | some nMedian => if |nMedian| < 70 * 60 then nMedian else 0
    | none => 0

theorem counted_odd {n : Nat} (hn : 0 < n) : counted n % 2 = 1 ∧ counted n ≤ n := by
  unfold counted
  omega

theorem abs64_eq_some {n m : Int} (h : abs64 n = some m) : m = |n| := by
  unfold abs64 at h
  split at h
  · rename_i h0
    rw [abs_of_nonneg h0]
    exact (Option.some.inj h).symm
  · rename_i h0
    rw [abs_of_neg (not_le.mp h0)]
    exact (int64_eq_some.mp h).1.symm

/-- One more value that does not make the number odd, or comes when the filter is full. -/
theorem offsetOf_concat {values : List Int} {x : Int} (hne : values ≠ [])
    (h : ¬(5 ≤ min (values.length + 1) 200 ∧ min (values.length + 1) 200 % 2 = 1)) :
    offsetOf (values ++ [x]) = offsetOf values := by
  have hpos : 0 < values.length := List.length_pos_iff.mpr hne
  have hlength : (values ++ [x]).length = values.length + 1 := by simp
  by_cases hsmall : counted (values.length + 1) < 5
  · have hsmall' : counted values.length < 5 := by
      unfold counted at hsmall ⊢
      omega
    rw [offsetOf, hlength, if_pos hsmall, offsetOf, if_pos hsmall']
  · have hsame : counted (values.length + 1) = counted values.length := by
      unfold counted at hsmall ⊢
      omega
    have htake : (values ++ [x]).take (counted values.length) =
        values.take (counted values.length) :=
      List.take_append_of_le_length (counted_odd hpos).2
    rw [offsetOf, hlength, hsame, htake, offsetOf]

theorem offsetOf_concat_odd {values : List Int} {x nMedian : Int}
    (h : 5 ≤ values.length + 1 ∧ (values.length + 1) % 2 = 1 ∧ values.length + 1 < 200)
    (hmedian : nth (values ++ [x]) ((values.length + 1) / 2) = some nMedian) :
    offsetOf (values ++ [x]) = if |nMedian| < 70 * 60 then nMedian else 0 := by
  have hlength : (values ++ [x]).length = values.length + 1 := by simp
  have hcounted : counted (values.length + 1) = values.length + 1 := by
    unfold counted
    omega
  have hall : (values ++ [x]).take (values.length + 1) = values ++ [x] :=
    List.take_of_length_le hlength.le
  rw [offsetOf, hlength, hcounted, if_neg (by omega), hall, hmedian]

theorem abs_offsetOf_lt (values : List Int) : |offsetOf values| < 70 * 60 := by
  unfold offsetOf
  split
  · decide
  · split
    · split
      · assumption
      · decide
    · decide

/-- If most of the values are in a range, their median is. -/
theorem nth_mem_range {values : List Int} {k : Nat} {a b m : Int}
    (hlength : values.length = 2 * k + 1)
    (hmost : k < values.countP fun x => a ≤ x ∧ x ≤ b) (h : nth values k = some m) :
    a ≤ m ∧ m ≤ b := by
  have hsplit := List.length_eq_countP_add_countP (fun x => decide (a ≤ x ∧ x ≤ b)) (l := values)
  constructor
  · rw [le_nth_iff h]
    have hmono : values.countP (· < a) ≤
        values.countP fun x => decide ¬decide (a ≤ x ∧ x ≤ b) = true := by
      apply List.countP_mono_left
      intro x _ hx
      simp only [decide_eq_true_eq] at hx ⊢
      omega
    omega
  · by_contra hlt
    have hle := (le_nth_iff (m := b + 1) h).mp (by omega)
    have hmono : (values.countP fun x => decide (a ≤ x ∧ x ≤ b)) ≤ values.countP (· < b + 1) := by
      apply List.countP_mono_left
      intro x _ hx
      simp only [decide_eq_true_eq] at hx ⊢
      omega
    omega

/-! ## Runs -/

namespace TimeData

variable {Addr : Type} [DecidableEq Addr] {s s' : TimeData Addr} {c : TimeCall Addr}
  {calls later : List (TimeCall Addr)} {values : List Int}

/-- What holds between the calls, with all values that have been put in. -/
structure Inv (values : List Int) (s : TimeData Addr) : Prop where
  ne : values ≠ []
  nSize : s.vTimeOffsets.nSize = 200
  vValues : s.vTimeOffsets.vValues = values.rtake 200
  nTimeOffset : s.nTimeOffset = offsetOf values

omit [DecidableEq Addr] in
theorem inv_init : Inv [0] (init : TimeData Addr) where
  ne := List.cons_ne_nil _ _
  nSize := rfl
  vValues := rfl
  nTimeOffset := rfl

/-- A call with a new address puts a value in, and the offset follows. -/
theorem Inv.addTimeData (hs : Inv values s) (h : s.addTimeData c = some s') :
    (c.ip ∈ s.setKnown ∧ s' = s) ∨
      c.ip ∉ s.setKnown ∧ s'.setKnown = c.ip :: s.setKnown ∧ Inv (values ++ [c.nTime - c.time]) s' := by
  simp only [TimeData.addTimeData, Option.bind_eq_bind, Option.bind_eq_some_iff, int64_eq_some] at h
  obtain ⟨_, ⟨rfl, -⟩, h⟩ := h
  split at h
  · rename_i hknown
    exact .inl ⟨hknown, (Option.some.inj h).symm⟩
  · rename_i hknown
    right
    generalize hx : c.nTime - c.time = x at h ⊢
    have hpush : (s.vTimeOffsets.input x).vValues = (values ++ [x]).rtake 200 := by
      show push s.vTimeOffsets.nSize s.vTimeOffsets.vValues x = _
      rw [hs.nSize, hs.vValues, push_rtake (by decide)]
    have hlength : (s.vTimeOffsets.input x).vValues.length = min (values.length + 1) 200 := by
      rw [hpush, length_rtake, List.length_append, List.length_singleton, Nat.min_comm]
    have hne : values ++ [x] ≠ [] := by simp
    split at h
    · rename_i hodd
      rw [hlength] at hodd
      have hwindow : (values ++ [x]).rtake 200 = values ++ [x] :=
        rtake_of_length_le (by rw [List.length_append, List.length_singleton]; omega)
      have hsorted : (s.vTimeOffsets.input x).vSorted = (values ++ [x]).insertionSort (· ≤ ·) := by
        show (s.vTimeOffsets.input x).vValues.insertionSort (· ≤ ·) = _
        rw [hpush, hwindow]
      have hsize : (s.vTimeOffsets.input x).vSorted.length = values.length + 1 := by
        rw [hsorted, List.length_insertionSort, List.length_append, List.length_singleton]
      simp only [Option.bind_eq_some_iff] at h
      obtain ⟨nMedian, hmedian, n, hn, h⟩ := h
      rw [CMedianFilterInt64.median, hsize, if_pos (by omega), hsorted] at hmedian
      have hoffset := offsetOf_concat_odd (x := x) (by omega) hmedian
      rw [← abs64_eq_some hn] at hoffset
      split at h
      · rename_i hlt
        obtain rfl := Option.some.inj h
        exact ⟨hknown, rfl, hne, hs.nSize, hpush, by rw [hoffset, if_pos hlt]⟩
      · rename_i hge
        rw [if_neg hge] at hoffset
        split at h
        · obtain rfl := Option.some.inj h
          exact ⟨hknown, rfl, hne, hs.nSize, hpush, hoffset.symm⟩
        · obtain ⟨fMatch, -, h⟩ := Option.bind_eq_some_iff.mp h
          obtain rfl := Option.some.inj h
          exact ⟨hknown, rfl, hne, hs.nSize, hpush, hoffset.symm⟩
    · rename_i heven
      rw [hlength] at heven
      obtain rfl := Option.some.inj h
      exact ⟨hknown, rfl, hne, hs.nSize, hpush, by rw [offsetOf_concat hs.ne heven]; exact hs.nTimeOffset⟩

theorem Inv.run (hs : Inv values s) (h : s.run calls = some s') :
    Inv (values ++ samples s.setKnown calls) s' := by
  induction calls generalizing s values with
  | nil =>
    obtain rfl := Option.some.inj h
    rw [samples, List.append_nil]
    exact hs
  | cons c calls ih =>
    rw [TimeData.run, List.foldlM_cons, Option.bind_eq_bind, Option.bind_eq_some_iff] at h
    obtain ⟨s1, h1, h2⟩ := h
    rcases hs.addTimeData h1 with ⟨hknown, rfl⟩ | ⟨hknown, hset, hs1⟩
    · rw [samples, if_pos hknown]
      exact ih hs h2
    · rw [samples, if_neg hknown, ← hset]
      have hrun := ih hs1 h2
      rwa [List.append_assoc] at hrun

/-! ## No overflow -/

/-- A value whose absolute value is an `int64` as well. -/
def AbsInt64 (x : Int) : Prop := -2 ^ 63 < x ∧ x < 2 ^ 63

theorem abs64_isSome {x : Int} (h : AbsInt64 x) : ∃ n, abs64 x = some n := by
  unfold abs64
  split
  · exact ⟨x, rfl⟩
  · refine ⟨-x, int64_eq_some.mpr ⟨rfl, ?_⟩⟩
    unfold AbsInt64 at h
    unfold Int64Range
    omega

theorem fMatch_isSome {vSorted : List Int} (h : ∀ x ∈ vSorted, AbsInt64 x) :
    ∃ b, fMatch vSorted = some b := by
  unfold fMatch
  generalize false = b
  induction vSorted generalizing b with
  | nil => exact ⟨b, rfl⟩
  | cons x vSorted ih =>
    obtain ⟨hx, hrest⟩ := List.forall_mem_cons.mp h
    rw [List.foldlM_cons]
    split
    · exact ih hrest b
    · obtain ⟨n, hn⟩ := abs64_isSome hx
      rw [hn]
      exact ih hrest (b || decide (n < 5 * 60))

theorem median_isSome {filter : CMedianFilterInt64} (hodd : filter.vSorted.length % 2 = 1) :
    ∃ nMedian ∈ filter.vSorted, filter.median = some nMedian := by
  have hlt : filter.vSorted.length / 2 < filter.vSorted.length := by omega
  refine ⟨filter.vSorted[filter.vSorted.length / 2], List.getElem_mem hlt, ?_⟩
  rw [CMedianFilterInt64.median, if_pos hodd]
  exact List.getElem?_eq_getElem hlt

/-- Samples whose absolute values are `int64`s do not overflow. -/
theorem addTimeData_isSome (hvalues : ∀ x ∈ s.vTimeOffsets.vValues, AbsInt64 x)
    (hc : AbsInt64 (c.nTime - c.time)) : ∃ s', s.addTimeData c = some s' := by
  have hsample : int64 (c.nTime - c.time) = some (c.nTime - c.time) :=
    int64_eq_some.mpr ⟨rfl, Int.le_of_lt hc.1, hc.2⟩
  have hinput : ∀ x ∈ (s.vTimeOffsets.input (c.nTime - c.time)).vSorted, AbsInt64 x := by
    intro x hx
    rw [CMedianFilterInt64.input, List.mem_insertionSort] at hx
    have hmem := (push_suffix _ _ _).subset hx
    rcases List.mem_append.mp hmem with hmem | hmem
    · exact hvalues x hmem
    · exact List.mem_singleton.mp hmem ▸ hc
  have hlength : (s.vTimeOffsets.input (c.nTime - c.time)).vSorted.length =
      (s.vTimeOffsets.input (c.nTime - c.time)).vValues.length := List.length_insertionSort ..
  rw [TimeData.addTimeData, Option.bind_eq_bind, hsample, Option.bind_some]
  split
  · exact ⟨s, rfl⟩
  · dsimp only
    split
    · rename_i hodd
      obtain ⟨nMedian, hmem, hmedian⟩ := median_isSome (hlength ▸ hodd.2)
      obtain ⟨n, hn⟩ := abs64_isSome (hinput nMedian hmem)
      simp only [Option.bind_eq_bind, hmedian, hn, Option.bind_some]
      split
      · exact ⟨_, rfl⟩
      · split
        · exact ⟨_, rfl⟩
        · obtain ⟨b, hb⟩ := fMatch_isSome hinput
          rw [hb, Option.bind_some]
          exact ⟨_, rfl⟩
    · exact ⟨_, rfl⟩

theorem mem_samples {known : List Addr} {x : Int} (h : x ∈ samples known calls) :
    ∃ c ∈ calls, c.nTime - c.time = x := by
  induction calls generalizing known with
  | nil => cases h
  | cons c calls ih =>
    rw [samples] at h
    split at h
    · obtain ⟨c', hc', hx⟩ := ih h
      exact ⟨c', List.mem_cons_of_mem _ hc', hx⟩
    · rcases List.mem_cons.mp h with rfl | h
      · exact ⟨c, List.mem_cons_self, rfl⟩
      · obtain ⟨c', hc', hx⟩ := ih h
        exact ⟨c', List.mem_cons_of_mem _ hc', hx⟩

theorem run_isSome (hcalls : ∀ c ∈ calls, AbsInt64 (c.nTime - c.time)) :
    ∃ s : TimeData Addr, init.run calls = some s := by
  induction calls using List.reverseRecOn with
  | nil => exact ⟨init, rfl⟩
  | append_singleton calls c ih =>
    rw [List.forall_mem_append] at hcalls
    obtain ⟨s, hs⟩ := ih hcalls.1
    have hvalues : ∀ x ∈ s.vTimeOffsets.vValues, AbsInt64 x := by
      intro x hx
      rw [(inv_init.run hs).vValues] at hx
      rcases List.mem_append.mp ((rtake_suffix _ 200).subset hx) with hx | hx
      · rw [List.mem_singleton.mp hx]
        exact ⟨by decide, by decide⟩
      · obtain ⟨c', hc', rfl⟩ := mem_samples hx
        exact hcalls.1 c' hc'
    obtain ⟨s', hs'⟩ := addTimeData_isSome hvalues (hcalls.2 c List.mem_cons_self)
    refine ⟨s', ?_⟩
    rw [TimeData.run, List.foldlM_append, Option.bind_eq_bind]
    rw [TimeData.run] at hs
    rw [hs, Option.bind_some, List.foldlM_cons, Option.bind_eq_bind, hs', Option.bind_some]
    rfl

theorem offsetOf_append (hfull : 199 ≤ values.length) (more : List Int) :
    offsetOf (values ++ more) = offsetOf values := by
  induction more using List.reverseRecOn with
  | nil => rw [List.append_nil]
  | append_singleton more x ih =>
    have hlength : (values ++ more).length = values.length + more.length := List.length_append
    rw [← List.append_assoc, offsetOf_concat (List.ne_nil_of_length_pos (by omega)) (by omega), ih]

/-- After any calls whose differences are greater than the least `int64`, and less than `2 ^ 63`, the
offset is the median of the first values, one for each address, an odd number of them and at most
199; it is less than 70 minutes. It is zero or among the values that most of them agree on, and when
198 addresses have been heard it does not change any more. -/
theorem addTimeData_spec (hcalls : ∀ c ∈ calls, AbsInt64 (c.nTime - c.time)) :
    ∃ s, init.run calls = some s ∧ s.nTimeOffset = offsetOf (0 :: samples [] calls) ∧ |s.nTimeOffset| < 70 * 60 ∧
      (∀ a b, counted (samples [] calls).length.succ / 2 <
          ((0 :: samples [] calls).take (counted (samples [] calls).length.succ)).countP
            (fun x => a ≤ x ∧ x ≤ b) →
        s.nTimeOffset = 0 ∨ a ≤ s.nTimeOffset ∧ s.nTimeOffset ≤ b) ∧
      (198 ≤ (samples [] calls).length → ∀ later s', s.run later = some s' →
        s'.nTimeOffset = s.nTimeOffset) := by
  obtain ⟨s, h⟩ := run_isSome hcalls
  have hs : Inv (0 :: samples [] calls) s := inv_init.run h
  refine ⟨s, h, hs.nTimeOffset, ?_, fun a b hmost => ?_, fun hfull later s' hlater => ?_⟩
  · rw [hs.nTimeOffset]
    exact abs_offsetOf_lt _
  · obtain ⟨hodd, hle⟩ := counted_odd (Nat.succ_pos (samples [] calls).length)
    rw [hs.nTimeOffset, offsetOf]
    split
    · exact .inl rfl
    · split
      · rename_i nMedian hmedian
        split
        · right
          apply nth_mem_range ?_ hmost hmedian
          rw [List.length_take, List.length_cons, Nat.min_eq_left hle]
          omega
        · exact .inl rfl
      · exact .inl rfl
  · rw [(hs.run hlater).nTimeOffset, offsetOf_append (by rw [List.length_cons]; omega),
      hs.nTimeOffset]

def sampleCalls : List (TimeCall Nat) :=
  [⟨1, 130, 100⟩, ⟨2, 160, 100⟩, ⟨2, 900, 100⟩, ⟨3, 101, 100⟩, ⟨4, 150, 100⟩]

/-- Four addresses, and the zero of the start. -/
theorem addTimeData_spec_sample : ∃ s, init.run sampleCalls = some s ∧ s.nTimeOffset = 30 := by
  have hcalls : ∀ c ∈ sampleCalls, AbsInt64 (c.nTime - c.time) := by
    unfold AbsInt64
    decide
  obtain ⟨s, hs, hspec, -⟩ := addTimeData_spec hcalls
  refine ⟨s, hs, hspec.trans ?_⟩
  decide

/-- The least `int64` from three of the first four addresses: its absolute value overflows. -/
example : init.run ([1, 2, 3, 4].map fun ip : Nat => ⟨ip, 100 - 2 ^ 63, 100⟩) = none := by decide

end TimeData

end Terracoin
