import Mathlib.Data.List.MinMax

/-!
# One of several candidates

Candidates come one after the other, and one of them is kept. Who keeps the first good one as soon as
there is one, and the last one until then, has `firstOrLast` in the end; who changes for a better one
only has `List.argmax`. Who takes the first `n` elements of a list that are wanted may forget the
others before more are wanted (`take_filter_or`).
-/

namespace Choice

variable {α : Type}

/-- The first good candidate, or the last one if none is good. -/
def firstOrLast (good : α → Bool) (l : List α) (a : α) : α := (l.find? good).getD (l.getLastD a)

variable {good : α → Bool} {a b : α} {l : List α}

theorem firstOrLast_singleton : firstOrLast good [b] a = b := by
  cases h : good b with
  | true => simp [firstOrLast, h]
  | false => simp [firstOrLast, h]

/-- One more candidate is taken if there has been no good one. -/
theorem firstOrLast_concat (ha : good a = false) : firstOrLast good (l ++ [b]) a =
    if good (firstOrLast good l a) then firstOrLast good l a else b := by
  rw [firstOrLast, firstOrLast, List.find?_append, List.getLastD_concat]
  cases hfind : l.find? good with
  | some c => simp [List.find?_some hfind]
  | none =>
    have hlast : good (l.getLastD a) = false := by
      rw [List.getLastD_eq_getLast?]
      cases hc : l.getLast? with
      | none => exact ha
      | some c => simpa using List.find?_eq_none.mp hfind c (List.mem_of_getLast? hc)
    rw [Option.none_or, Option.getD_none, hlast]
    cases hb : good b with
    | true => simp [hb]
    | false => simp [hb]

theorem firstOrLast_mem (h : l ≠ []) : firstOrLast good l a ∈ l := by
  rw [firstOrLast]
  cases hfind : l.find? good with
  | some c => exact List.mem_of_find?_eq_some hfind
  | none =>
    rw [Option.getD_none, List.getLastD_eq_getLast?, List.getLast?_eq_some_getLast h]
    exact List.getLast_mem h

/-- Of the elements that were wanted only the first `n` need to be known. -/
theorem take_filter_or {p p' q : α → Bool} (n : Nat) (hp : ∀ a ∈ l, p' a = true → p a = true)
    (hp' : ∀ a ∈ (l.filter p).take n, p' a = true) :
    (l.filter fun a => p' a || q a).take n = (l.filter fun a => p a || q a).take n := by
  induction l generalizing n with
  | nil => rfl
  | cons b l ih =>
    cases n with
    | zero => rw [List.take_zero, List.take_zero]
    | succ n =>
      have hrest : ∀ a ∈ l, p' a = true → p a = true := fun a ha =>
        hp a (List.mem_cons_of_mem _ ha)
      cases hb : p b with
      | true =>
        rw [List.filter_cons_of_pos hb, List.take_succ_cons] at hp'
        have hb' := hp' b List.mem_cons_self
        rw [List.filter_cons_of_pos (by simp [hb']), List.filter_cons_of_pos (by simp [hb]),
          List.take_succ_cons, List.take_succ_cons,
          ih n hrest fun a ha => hp' a (List.mem_cons_of_mem _ ha)]
      | false =>
        have hb' : p' b = false := Bool.eq_false_iff.mpr fun h => by
          have := hp b List.mem_cons_self h
          rw [hb] at this
          cases this
        rw [List.filter_cons_of_neg (by simp [hb])] at hp'
        cases hq : q b with
        | true =>
          rw [List.filter_cons_of_pos (by simp [hq]), List.filter_cons_of_pos (by simp [hq]),
            List.take_succ_cons, List.take_succ_cons, ih n hrest fun a ha =>
              hp' a (List.take_subset_take_left _ (Nat.le_succ n) ha)]
        | false =>
          rw [List.filter_cons_of_neg (by simp [hb', hq]),
            List.filter_cons_of_neg (by simp [hb, hq])]
          exact ih (n + 1) hrest hp'

end Choice
