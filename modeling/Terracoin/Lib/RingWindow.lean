import Mathlib.Data.List.Basic
import Mathlib.Data.Nat.ModEq

/-!
# A ring buffer over a list

A ring of `size` cells keeps the last elements of a list before a position, the element at position
`i` in the cell `i % size`. `store` writes elements into neighbouring cells, `Window` says what the
ring keeps, and it still does when the next elements are stored (`Window.store`). Cells that do not
go over the end of the ring hold a piece of the list (`Window.cells`).
-/

namespace RingWindow

variable {α : Type} {xs l : List α} {buf : Nat → α} {size n r k i : Nat}

/-- The cells with `l` written from `pos` on. -/
def store (buf : Nat → α) (pos : Nat) (l : List α) (i : Nat) : α :=
  if pos ≤ i then l[i - pos]?.getD (buf i) else buf i

def cells (buf : Nat → α) (pos k : Nat) : List α := (List.range k).map fun i => buf (pos + i)

/-- The ring keeps the last `size` elements before position `n`. -/
def Window (buf : Nat → α) (size : Nat) (xs : List α) (n : Nat) : Prop :=
  ∀ i < n, n ≤ i + size → xs[i]? = some (buf (i % size))

theorem window_zero (buf : Nat → α) (size : Nat) (xs : List α) : Window buf size xs 0 :=
  fun _ h => absurd h (Nat.not_lt_zero _)

theorem store_add (h : k < l.length) (pos : Nat) : store buf pos l (pos + k) = l.get ⟨k, h⟩ := by
  rw [store, if_pos (Nat.le_add_right pos k), Nat.add_sub_cancel_left, List.getElem?_eq_getElem h]
  rfl

theorem store_of_lt {pos : Nat} (h : i < pos) : store buf pos l i = buf i := by
  rw [store, if_neg (Nat.not_le.mpr h)]

theorem store_of_le {pos : Nat} (h : pos + l.length ≤ i) : store buf pos l i = buf i := by
  rw [store, if_pos (by omega), List.getElem?_eq_none (by omega)]
  rfl

theorem add_mod_of_le (h : n % size + k < size) : (n + k) % size = n % size + k := by
  rw [Nat.add_mod, Nat.mod_eq_of_lt (show k < size by omega), Nat.mod_eq_of_lt h]

/-- The next elements replace the oldest ones. -/
theorem Window.store (h : Window buf size xs n) (hl : l = (xs.drop n).take l.length)
    (hsize : n % size + l.length ≤ size) :
    Window (RingWindow.store buf (n % size) l) size xs (n + l.length) := by
  intro i hi hwindow
  by_cases hnew : n ≤ i
  · obtain ⟨k, rfl⟩ := Nat.exists_eq_add_of_le hnew
    have hk : k < l.length := by omega
    have hget : xs[n + k]? = l[k]? := by
      rw [hl, List.getElem?_take_of_lt hk, List.getElem?_drop]
    rw [add_mod_of_le (by omega), store_add hk, hget, List.getElem?_eq_getElem hk]
    rfl
  · -- an old cell is less than a turn away
    have hold := h i (Nat.not_le.mp hnew) (by omega)
    have hcell : i % size < n % size ∨ n % size + l.length ≤ i % size := by
      by_contra hin
      obtain ⟨k, hk⟩ := Nat.exists_eq_add_of_le (show n % size ≤ i % size by omega)
      have hsame : i % size = (n + k) % size := by
        rw [add_mod_of_le (by omega), hk]
      have hdvd : size ∣ n + k - i := (Nat.modEq_iff_dvd' (by omega)).mp hsame
      exact absurd (Nat.le_of_dvd (by omega) hdvd) (by omega)
    rcases hcell with hlt | hle
    · rw [store_of_lt hlt, hold]
    · rw [store_of_le hle, hold]

theorem length_cells (buf : Nat → α) (pos k : Nat) : (cells buf pos k).length = k := by
  rw [cells, List.length_map, List.length_range]

theorem Window.cells (h : Window buf size xs n) (hend : r + k ≤ n) (hwindow : n ≤ r + size)
    (hsize : r % size + k ≤ size) : cells buf (r % size) k = (xs.drop r).take k := by
  refine List.ext_getElem? fun i => ?_
  by_cases hi : i < k
  · have hcell := h (r + i) (by omega) (by omega)
    rw [add_mod_of_le (by omega)] at hcell
    rw [List.getElem?_take_of_lt hi, List.getElem?_drop, hcell, RingWindow.cells, List.getElem?_map,
      List.getElem?_range hi]
    rfl
  · rw [List.getElem?_eq_none (by rw [length_cells]; omega),
      List.getElem?_eq_none (by rw [List.length_take]; omega)]

end RingWindow
