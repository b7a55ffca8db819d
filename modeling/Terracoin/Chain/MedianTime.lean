import Terracoin.Chain.Retarget
import Terracoin.Lib.OrderStatistic

/-!
# The median of the last block times

A block has to be later than the median of the times before it, which may be in any order. With each
such block the median stays or becomes later (`getMedianTimePast_le`).
-/

namespace Terracoin

namespace CBlockIndex

open OrderStatistic

variable {p q a b : CBlockIndex} {h : CBlockHeader} {n : Nat}

/-- Every block is later than the median of the times before it, as `AcceptBlock` checks. -/
def TimesIncrease : CBlockIndex → Prop
  | root _ => True
  | child p h => p.getMedianTimePast < h.getBlockTime ∧ p.TimesIncrease

theorem lastTimes_sublist (n : Nat) (p : CBlockIndex) :
    (p.lastTimes n).Sublist (p.lastTimes (n + 1)) := by
  induction n generalizing p with
  | zero => exact List.nil_sublist _
  | succ n ih =>
    cases p with
    | root h => exact List.Sublist.refl _
    | child p h => exact (ih p).cons_cons _

theorem length_lastTimes_succ_le (n : Nat) (p : CBlockIndex) :
    (p.lastTimes (n + 1)).length ≤ (p.lastTimes n).length + 1 := by
  induction n generalizing p with
  | zero => cases p <;> exact Nat.le_refl 1
  | succ n ih =>
    cases p with
    | root h => exact Nat.le_succ 1
    | child p h => exact Nat.succ_le_succ (ih p)

theorem upperMedian_lastTimes (p : CBlockIndex) :
    upperMedian (p.lastTimes 11) = some p.getMedianTimePast := by
  have hpos : 0 < (p.lastTimes 11).length := List.length_pos_of_ne_nil lastTimes_ne_nil
  have hlength := List.length_insertionSort (· ≤ ·) (p.lastTimes 11)
  have hlt : (p.lastTimes 11).length / 2 < ((p.lastTimes 11).insertionSort (· ≤ ·)).length := by
    omega
  rw [upperMedian, nth, getMedianTimePast, hlength, List.getD_eq_getElem?_getD,
    List.getElem?_eq_getElem hlt, Option.getD_some]

theorem getMedianTimePast_le_child (ht : p.getMedianTimePast < h.getBlockTime) :
    p.getMedianTimePast ≤ (child p h).getMedianTimePast :=
  upperMedian_le (lastTimes_sublist 10 p) (length_lastTimes_succ_le 10 p) (upperMedian_lastTimes p)
    ht.le (upperMedian_lastTimes (child p h))

theorem TimesIncrease.of_mem (hp : p.TimesIncrease) (hq : q ∈ p.chain) : q.TimesIncrease := by
  induction p with
  | root h =>
    obtain rfl := List.mem_singleton.mp hq
    exact hp
  | child p h ih =>
    obtain rfl | hq := mem_chain_child.mp hq
    · exact hp
    · exact ih hp.2 hq

/-- The median does not become earlier along the chain. -/
theorem getMedianTimePast_le {tip : CBlockIndex} (htip : tip.TimesIncrease) (hb : b ∈ tip.chain)
    (ha : a ∈ b.chain) : a.getMedianTimePast ≤ b.getMedianTimePast := by
  have hincrease := htip.of_mem hb
  clear hb
  induction b with
  | root h =>
    obtain rfl := List.mem_singleton.mp ha
    exact le_rfl
  | child p h ih =>
    obtain rfl | ha := mem_chain_child.mp ha
    · exact le_rfl
    · exact (ih ha hincrease.2).trans (getMedianTimePast_le_child hincrease.1)

end CBlockIndex

namespace MedianSample

def header (nTime : UInt32) : CBlockHeader := ⟨1, 0, 0, nTime, 0, 0⟩

def genesis : CBlockIndex := .root (header 100)

/-- Four blocks, the last one earlier than the one before it. -/
def tip : CBlockIndex := .child (.child (.child genesis (header 300)) (header 500)) (header 301)

theorem getMedianTimePast_le_sample : genesis.getMedianTimePast ≤ tip.getMedianTimePast := by
  have htip : tip.TimesIncrease := ⟨by decide, by decide, by decide, trivial⟩
  have hmem : genesis ∈ tip.chain :=
    List.mem_cons_of_mem _ (List.mem_cons_of_mem _ (List.mem_cons_of_mem _ List.mem_cons_self))
  exact CBlockIndex.getMedianTimePast_le htip CBlockIndex.self_mem_chain hmem

end MedianSample

end Terracoin
