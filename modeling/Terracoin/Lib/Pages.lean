import Mathlib.Data.List.Basic
import Mathlib.Data.List.TakeDrop
import Mathlib.Algebra.Group.Nat.Defs

/-!
# Pages of a list

The page of `count` elements from a position on. One that is cut from a beginning of the list is the
page of the whole list exactly if it is empty or the beginning reaches to its end (`page_take_iff`),
and pages of the same size one after the other are the list (`flatMap_page`).
-/

namespace Pages

variable {α : Type} {l : List α} {m : Nat}

def page (count start : Nat) (l : List α) : List α := (l.drop start).take count

theorem length_page (count start : Nat) (l : List α) :
    (page count start l).length = min count (l.length - start) := by
  rw [page, List.length_take, List.length_drop]

theorem drop_take_min (count start : Nat) (l : List α) :
    (l.take (min (min start l.length + count) l.length)).drop (min start l.length) =
      page count start l := by
  rw [page, List.drop_take]
  rcases Nat.le_total start l.length with hle | hge
  · rw [Nat.min_eq_left hle]
    apply List.take_eq_take_iff.mpr
    rw [List.length_drop]
    omega
  · rw [Nat.min_eq_right hge, List.drop_length, List.drop_of_length_le hge]
    simp

theorem page_take (count start : Nat) (l : List α) :
    page count start (l.take m) = (page count start l).take (m - start) := by
  rw [page, page, List.drop_take, List.take_take, List.take_take, Nat.min_comm]

theorem page_take_iff {count start : Nat} (hm : m ≤ l.length) :
    page count start (l.take m) = page count start l ↔
      count = 0 ∨ l.length ≤ start ∨ min (start + count) l.length ≤ m := by
  rw [page_take, List.take_eq_self_iff, length_page]
  omega

theorem flatMap_page (count : Nat) (l : List α) (k : Nat) :
    ((List.range k).flatMap fun i => page count (i * count) l) = l.take (k * count) := by
  induction k with
  | zero => simp
  | succ k ih =>
    rw [List.range_succ, List.flatMap_append, ih, List.flatMap_singleton, page, Nat.succ_mul,
      List.take_add]

end Pages
