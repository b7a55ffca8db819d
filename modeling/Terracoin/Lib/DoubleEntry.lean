import Mathlib.Algebra.BigOperators.Group.List.Basic
import Mathlib.Algebra.Ring.Int.Defs
import Mathlib.Tactic.Ring

/-!
# Entries and accounts

A list of entries names accounts, each with a value. The sum over the entries is the sum over the
accounts that are named, and once more for each further time that an account is named.
-/

namespace DoubleEntry

variable {A : Type} [DecidableEq A] {value : A → Int} {accounts entries : List A}

/-- The value of the accounts that are named. -/
def named (value : A → Int) (accounts entries : List A) : Int :=
  (accounts.map fun a => if a ∈ entries then value a else 0).sum

/-- The value of the accounts that are named again, once for each further time. -/
def excess (value : A → Int) (accounts entries : List A) : Int :=
  (accounts.map fun a => value a * ((entries.count a - 1 : Nat) : Int)).sum

theorem sum_map_sub {α : Type} (f g : α → Int) (l : List α) :
    (l.map fun a => f a - g a).sum = (l.map f).sum - (l.map g).sum := by
  induction l with
  | nil => rfl
  | cons a l ih =>
    rw [List.map_cons, List.map_cons, List.map_cons, List.sum_cons, List.sum_cons, List.sum_cons, ih]
    ring

theorem sum_ite_eq (hnodup : accounts.Nodup) (a : A) (v : Int) :
    (accounts.map fun b => if b = a then v else 0).sum = if a ∈ accounts then v else 0 := by
  induction accounts with
  | nil => rfl
  | cons b accounts ih =>
    obtain ⟨hnot, hnodup⟩ := List.nodup_cons.mp hnodup
    rw [List.map_cons, List.sum_cons, ih hnodup]
    by_cases hba : b = a
    · subst hba
      rw [if_pos rfl, if_neg hnot, if_pos List.mem_cons_self, Int.add_zero]
    · rw [if_neg hba, Int.zero_add]
      simp only [List.mem_cons, Ne.symm hba, false_or]

/-- Every entry counts for its account. -/
theorem sum_entries (hnodup : accounts.Nodup) (hmem : ∀ a ∈ entries, value a ≠ 0 → a ∈ accounts) :
    (entries.map value).sum = (accounts.map fun a => value a * (entries.count a : Int)).sum := by
  induction entries with
  | nil => simp
  | cons e entries ih =>
    have hsplit : (fun a => value a * ((e :: entries).count a : Int)) =
        fun a => (if a = e then value e else 0) + value a * (entries.count a : Int) := by
      funext a
      rw [List.count_cons]
      by_cases hae : a = e
      · subst hae
        simp only [beq_self_eq_true, if_true]
        push_cast
        ring
      · rw [if_neg hae, if_neg (by simpa using Ne.symm hae)]
        simp
    rw [List.map_cons, List.sum_cons, ih fun a ha => hmem a (List.mem_cons_of_mem _ ha), hsplit,
      List.sum_map_add, sum_ite_eq hnodup]
    congr 1
    split
    · rfl
    · rename_i hnot
      by_contra hne
      exact hnot (hmem e List.mem_cons_self hne)

theorem sum_entries_eq_named_add_excess (hnodup : accounts.Nodup)
    (hmem : ∀ a ∈ entries, value a ≠ 0 → a ∈ accounts) :
    (entries.map value).sum = named value accounts entries + excess value accounts entries := by
  rw [sum_entries hnodup hmem, named, excess, ← List.sum_map_add]
  congr 2
  funext a
  by_cases ha : a ∈ entries
  · have hpos := List.count_pos_iff.mpr ha
    obtain ⟨k, hk⟩ : ∃ k, entries.count a = k + 1 := ⟨entries.count a - 1, by omega⟩
    rw [if_pos ha, hk, Nat.add_sub_cancel]
    push_cast
    ring
  · rw [if_neg ha, List.count_eq_zero_of_not_mem ha]
    simp

end DoubleEntry
