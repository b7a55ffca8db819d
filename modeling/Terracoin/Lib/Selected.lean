import Mathlib.Data.List.Perm.Subperm

/-!
# Elements chosen by flags

A list of flags beside a list of elements chooses some of the elements. Setting a flag that was not
set adds its element, and clearing it again undoes that.
-/

namespace Selected

variable {α : Type}

def selected : List α → List Bool → List α
  | a :: l, f :: flags => if f then a :: selected l flags else selected l flags
  | _, _ => []

theorem selected_sublist (l : List α) (flags : List Bool) : (selected l flags).Sublist l := by
  induction l generalizing flags with
  | nil => exact List.nil_sublist _
  | cons a l ih =>
    cases flags with
    | nil => exact List.nil_sublist _
    | cons f flags =>
      rw [selected]
      split
      · exact (ih flags).cons_cons a
      · exact (ih flags).cons a

theorem selected_replicate_true (l : List α) : selected l (List.replicate l.length true) = l := by
  induction l with
  | nil => rfl
  | cons a l ih => rw [List.length_cons, List.replicate_succ, selected, if_pos rfl, ih]

theorem selected_replicate_false (l : List α) (n : Nat) :
    selected l (List.replicate n false) = [] := by
  induction l generalizing n with
  | nil => rfl
  | cons a l ih =>
    cases n with
    | zero => rfl
    | succ n => rw [List.replicate_succ, selected, if_neg Bool.false_ne_true, ih]

theorem selected_set_true {l : List α} {flags : List Bool} {i : Nat} {a : α} (ha : l[i]? = some a)
    (hi : flags[i]? = some false) : (selected l (flags.set i true)).Perm (a :: selected l flags) := by
  induction l generalizing flags i with
  | nil => cases ha
  | cons b l ih =>
    cases flags with
    | nil => cases hi
    | cons f flags =>
      cases i with
      | zero =>
        cases ha
        cases hi
        rw [List.set_cons_zero, selected, selected, if_pos rfl, if_neg Bool.false_ne_true]
      | succ i =>
        have hperm := ih (i := i) ha hi
        rw [List.set_cons_succ, selected, selected]
        split
        · exact (hperm.cons b).trans (.swap a b _)
        · exact hperm

theorem set_set_of_getElem? {flags : List Bool} {i : Nat} {f g : Bool} (h : flags[i]? = some f) :
    (flags.set i g).set i f = flags := by
  obtain ⟨hlt, rfl⟩ := List.getElem?_eq_some_iff.mp h
  rw [List.set_set, List.set_getElem_self]

end Selected
