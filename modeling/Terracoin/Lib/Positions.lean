import Mathlib.Data.List.Basic
import Mathlib.Data.List.Nodup
import Mathlib.Logic.Function.Basic

/-!
# A vector with the positions of its elements

To take an element out of a vector in constant time its position is kept in a table: the element is
swapped with the last one, which is then popped. The table stays the inverse of the vector through
`push`, `swap` and `pop`.
-/

namespace Positions

variable {κ : Type} {v : List κ} {pos : κ → Option Nat} {k l : κ} {i j : Nat}

/-- The table holds the position of every element of the vector and of nothing else. -/
def Inverse (v : List κ) (pos : κ → Option Nat) : Prop := ∀ i k, v[i]? = some k ↔ pos k = some i

theorem inverse_nil : Inverse ([] : List κ) fun _ => none := by
  intro i k
  simp

theorem Inverse.mem_iff (h : Inverse v pos) : k ∈ v ↔ (pos k).isSome = true := by
  rw [List.mem_iff_getElem?, Option.isSome_iff_exists]
  exact exists_congr fun i => h i k

theorem Inverse.nodup (h : Inverse v pos) : v.Nodup := by
  rw [List.nodup_iff_injective_get]
  intro i j heq
  have hi := (h i.1 (v.get i)).mp (by simp)
  have hj := (h j.1 (v.get j)).mp (by simp)
  rw [heq, hj] at hi
  exact Fin.ext (Option.some.inj hi).symm

theorem Inverse.lt_length (h : Inverse v pos) (hk : pos k = some i) : i < v.length := by
  obtain ⟨hlt, -⟩ := List.getElem?_eq_some_iff.mp ((h i k).mpr hk)
  exact hlt

variable [DecidableEq κ]

theorem Inverse.push (h : Inverse v pos) (hk : pos k = none) :
    Inverse (v ++ [k]) (Function.update pos k (some v.length)) := by
  intro i l
  rw [Function.update_apply]
  split
  · next heq =>
    subst heq
    constructor
    · intro hi
      rcases Nat.lt_or_ge i v.length with hlt | hge
      · rw [List.getElem?_append_left hlt, h, hk] at hi
        cases hi
      · rw [List.getElem?_append_right hge] at hi
        have hlt := (List.getElem?_eq_some_iff.mp hi).1
        rw [List.length_singleton] at hlt
        exact congrArg some (by omega)
    · intro hi
      obtain rfl := Option.some.inj hi
      simp
  · next hne =>
    rw [← h]
    rcases Nat.lt_or_ge i v.length with hlt | hge
    · rw [List.getElem?_append_left hlt]
    · rw [List.getElem?_append_right hge, List.getElem?_eq_none hge]
      constructor
      · intro hi
        have hmem := List.mem_of_getElem? hi
        exact absurd (List.mem_singleton.mp hmem) hne
      · intro hi
        cases hi

/-- Two elements change places. -/
theorem Inverse.swap (h : Inverse v pos) (hi : v[i]? = some k) (hj : v[j]? = some l) :
    Inverse ((v.set i l).set j k)
      (Function.update (Function.update pos k (some j)) l (some i)) := by
  have hk := (h i k).mp hi
  have hl := (h j l).mp hj
  obtain ⟨hlti, -⟩ := List.getElem?_eq_some_iff.mp hi
  obtain ⟨hltj, -⟩ := List.getElem?_eq_some_iff.mp hj
  intro m x
  have hvec : ((v.set i l).set j k)[m]? =
      if m = j then some k else if m = i then some l else v[m]? := by
    rw [List.getElem?_set, List.getElem?_set, List.length_set, if_pos hltj, if_pos hlti]
    simp only [eq_comm]
  rw [hvec, Function.update_apply, Function.update_apply]
  by_cases hxl : x = l
  · subst hxl
    rw [if_pos rfl, Option.some.injEq]
    by_cases hmj : m = j
    · subst hmj
      rw [if_pos rfl, Option.some.injEq]
      constructor
      · rintro rfl
        exact Option.some.inj (hk.symm.trans hl)
      · rintro rfl
        exact Option.some.inj (hi.symm.trans hj)
    · rw [if_neg hmj]
      by_cases hmi : m = i
      · simp [hmi]
      · rw [if_neg hmi, h, hl, Option.some.injEq]
        exact ⟨fun heq => absurd heq.symm hmj, fun heq => absurd heq.symm hmi⟩
  · rw [if_neg hxl]
    by_cases hxk : x = k
    · subst hxk
      rw [if_pos rfl, Option.some.injEq]
      by_cases hmj : m = j
      · simp [hmj]
      · rw [if_neg hmj]
        by_cases hmi : m = i
        · rw [if_pos hmi, Option.some.injEq]
          exact ⟨fun heq => absurd heq.symm hxl, fun heq => absurd heq.symm hmj⟩
        · rw [if_neg hmi, h, hk, Option.some.injEq]
          exact ⟨fun heq => absurd heq.symm hmi, fun heq => absurd heq.symm hmj⟩
    · rw [if_neg hxk]
      by_cases hmj : m = j
      · rw [if_pos hmj, hmj, ← h, hj, Option.some.injEq, Option.some.injEq]
        exact ⟨fun heq => absurd heq.symm hxk, fun heq => absurd heq.symm hxl⟩
      · rw [if_neg hmj]
        by_cases hmi : m = i
        · rw [if_pos hmi, hmi, ← h, hi, Option.some.injEq, Option.some.injEq]
          exact ⟨fun heq => absurd heq.symm hxl, fun heq => absurd heq.symm hxk⟩
        · rw [if_neg hmi, h]

theorem Inverse.pop (h : Inverse v pos) (hk : v[v.length - 1]? = some k) :
    Inverse v.dropLast (Function.update pos k none) := by
  have hlast := (h _ k).mp hk
  intro i l
  rw [Function.update_apply, List.getElem?_dropLast]
  split
  · next hlt =>
    split
    · next heq =>
      subst heq
      constructor
      · intro hi
        have := (h i l).mp hi
        rw [hlast] at this
        have := Option.some.inj this
        omega
      · intro hi
        cases hi
    · exact h i l
  · next hge =>
    split
    · simp
    · next hne =>
      constructor
      · intro hi
        cases hi
      · intro hi
        have hlt := h.lt_length hi
        obtain rfl : i = v.length - 1 := by omega
        have := ((h _ l).mpr hi).symm.trans hk
        exact absurd (Option.some.inj this) hne

end Positions
