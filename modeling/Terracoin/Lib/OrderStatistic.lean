import Mathlib.Data.List.Sort
import Mathlib.Order.Basic

/-!
# Order statistics of a window

The element at a position of the sorted list is at least `m` exactly if no more elements are below
`m` than come before the position (`le_nth_iff`). So the upper median of a window does not become
smaller when an element above it comes in and at most one goes out (`upperMedian_le`).
-/

namespace OrderStatistic

variable {α : Type} [LinearOrder α] {l l' s : List α} {m m' t x : α} {k : Nat}

/-- The element at a position of the sorted list. -/
def nth (l : List α) (k : Nat) : Option α := (l.insertionSort (· ≤ ·))[k]?

/-- The element in the middle, and the upper one of two. -/
def upperMedian (l : List α) : Option α := nth l (l.length / 2)

theorem countP_eq_zero (h : ∀ a ∈ s, m ≤ a) : s.countP (· < m) = 0 :=
  List.countP_eq_zero.mpr fun a ha => by simpa using h a ha

theorem le_iff_of_pairwise (hs : s.Pairwise (· ≤ ·)) (hget : s[k]? = some x) :
    m ≤ x ↔ s.countP (· < m) ≤ k := by
  induction s generalizing k with
  | nil => cases hget
  | cons a s ih =>
    obtain ⟨hle, hs⟩ := List.pairwise_cons.mp hs
    rcases lt_or_ge a m with hlt | hge
    · rw [List.countP_cons_of_pos (by simpa using hlt)]
      cases k with
      | zero =>
        obtain rfl := Option.some.inj hget
        exact iff_of_false (not_le.mpr hlt) (by omega)
      | succ k =>
        rw [ih hs hget]
        omega
    · have hall : ∀ b ∈ a :: s, m ≤ b := by
        rintro b (_ | ⟨_, hb⟩)
        · exact hge
        · exact hge.trans (hle b hb)
      rw [countP_eq_zero hall]
      exact iff_of_true (hall x (List.mem_of_getElem? hget)) (Nat.zero_le k)

theorem le_nth_iff (h : nth l k = some x) : m ≤ x ↔ l.countP (· < m) ≤ k := by
  rw [le_iff_of_pairwise (List.pairwise_insertionSort (· ≤ ·) l) h,
    (List.perm_insertionSort (· ≤ ·) l).countP_eq]

theorem upperMedian_le (hsub : l'.Sublist l) (hlength : l.length ≤ l'.length + 1)
    (h : upperMedian l = some m) (ht : m ≤ t) (h' : upperMedian (t :: l') = some m') : m ≤ m' := by
  have hbelow : l.countP (· < m) ≤ l.length / 2 := (le_nth_iff h).mp le_rfl
  rw [le_nth_iff h', List.countP_cons_of_neg (by simpa using ht)]
  calc l'.countP (· < m) ≤ l.countP (· < m) := hsub.countP_le
    _ ≤ l.length / 2 := hbelow
    _ ≤ (t :: l').length / 2 := Nat.div_le_div_right hlength

end OrderStatistic
