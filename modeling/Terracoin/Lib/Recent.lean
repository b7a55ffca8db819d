import Mathlib.Data.List.DropRight

/-!
# The most recent elements

A window on a growing list keeps its last `n` elements: `push` appends an element and drops the
oldest one if the window is full (`push_rtake`). A limit of zero never drops anything (`push_zero`).
-/

namespace Recent

variable {α : Type} {l w : List α} {n m : Nat} {x y : α}

theorem length_rtake (l : List α) (n : Nat) : (l.rtake n).length = min n l.length := by
  simp only [List.rtake, List.length_drop]
  omega

theorem rtake_suffix (l : List α) (n : Nat) : l.rtake n <:+ l := List.drop_suffix _ l

theorem rtake_of_length_le (h : l.length ≤ n) : l.rtake n = l := by
  rw [List.rtake, Nat.sub_eq_zero_of_le h, List.drop_zero]

theorem eq_rtake_of_suffix (h : w <:+ l) : w = l.rtake w.length := by
  obtain ⟨rest, rfl⟩ := h
  simp [List.rtake]

/-- Append to a window that holds at most `n` elements. -/
def push (n : Nat) (w : List α) (x : α) : List α := (if w.length = n then w.tail else w) ++ [x]

theorem push_of_ne (h : w.length ≠ n) : push n w x = w ++ [x] := by
  rw [push, if_neg h]

theorem push_zero (w : List α) (x : α) : push 0 w x = w ++ [x] := by
  unfold push
  split
  · rename_i h
    rw [List.length_eq_zero_iff.mp h, List.tail_nil]
  · rfl

theorem push_suffix (n : Nat) (w : List α) (x : α) : push n w x <:+ w ++ [x] := by
  unfold push
  split
  · obtain ⟨rest, hrest⟩ := List.tail_suffix w
    exact ⟨rest, by rw [← List.append_assoc, hrest]⟩
  · exact List.suffix_rfl

theorem push_rtake (hn : 0 < n) : push n (l.rtake n) x = (l ++ [x]).rtake n := by
  obtain ⟨m, rfl⟩ := Nat.exists_eq_succ_of_ne_zero hn.ne'
  rw [List.rtake_concat_succ, push, length_rtake]
  split
  · rw [List.rtake, List.tail_drop, List.rtake]
    congr 2
    omega
  · rw [rtake_of_length_le (by omega), rtake_of_length_le (by omega)]

theorem length_push_le (hn : 0 < n) (h : w.length ≤ n) : (push n w x).length ≤ n := by
  unfold push
  split
  · rw [List.length_append, List.length_tail, List.length_singleton]
    omega
  · rw [List.length_append, List.length_singleton]
    omega

theorem push_of_notMem (hy : y ∈ w) (hout : y ∉ push n w x) :
    w.length = n ∧ w = y :: w.tail ∧ push n w x = w.tail ++ [x] := by
  have hfull : w.length = n := by
    by_contra hne
    exact hout (by rw [push_of_ne hne]; exact List.mem_append_left _ hy)
  rw [push, if_pos hfull] at hout ⊢
  cases w with
  | nil => cases hy
  | cons z w =>
    rcases List.mem_cons.mp hy with rfl | hy
    · exact ⟨hfull, rfl, rfl⟩
    · exact absurd (List.mem_append_left _ hy) hout

/-- Between two places of an element there are at least `n` elements. -/
def Spaced (n : Nat) (l : List α) : Prop :=
  ∀ before x between after, l = before ++ x :: (between ++ x :: after) → n ≤ between.length

theorem Spaced.nil (n : Nat) : Spaced n ([] : List α) := by
  intro before x between after h
  simp at h

theorem Spaced.concat (h : Spaced n l) (hx : x ∉ l.rtake n) : Spaced n (l ++ [x]) := by
  intro before y between after heq
  rcases List.eq_nil_or_concat after with rfl | ⟨after, z, rfl⟩
  · -- the second place is the new one
    have hsplit : l ++ [x] = (before ++ y :: between) ++ [y] := by rw [heq]; simp
    obtain ⟨rfl, rfl⟩ := List.append_inj' hsplit rfl |>.imp id fun h => List.singleton_inj.mp h
    by_contra hlt
    apply hx
    rw [List.rtake, List.drop_append_of_le_length (by simp; omega)]
    exact List.mem_append_right _ List.mem_cons_self
  · have hsplit : l ++ [x] = (before ++ y :: (between ++ y :: after)) ++ [z] := by rw [heq]; simp
    exact h before y between after (List.append_inj' hsplit rfl).1

end Recent
