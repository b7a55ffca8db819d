import Mathlib.Data.List.NodupEquivFin

/-!
# Greedy matching

The elements of a list are to be matched in order with elements of another list that they are
related to. `greedy` takes for each element the first one that is left; this finds a match whenever
there is one (`greedy_iff`), whatever the relation is.
-/

namespace Matching

variable {α β : Type} {r : α → β → Bool}

def greedy (r : α → β → Bool) : List α → List β → Bool
  | [], _ => true
  | _ :: _, [] => false
  | a :: as, b :: bs => if r a b then greedy r as bs else greedy r (a :: as) bs

/-- The elements of `as` can be assigned elements of `bs`, at increasing positions. -/
def Assignable (r : α → β → Bool) (as : List α) (bs : List β) : Prop :=
  ∃ f : Fin as.length → Fin bs.length, StrictMono f ∧ ∀ i, r (as.get i) (bs.get (f i)) = true

/-- An assignment is a sublist that is related element by element. -/
theorem assignable_iff {as : List α} {bs : List β} : Assignable r as bs ↔
    ∃ cs, cs.Sublist bs ∧ List.Forall₂ (fun a b => r a b = true) as cs := by
  constructor
  · rintro ⟨f, hmono, hf⟩
    refine ⟨List.ofFn fun i => bs.get (f i), ?_, ?_⟩
    · refine List.sublist_iff_exists_fin_orderEmbedding_get_eq.mpr
        ⟨(OrderEmbedding.ofStrictMono _ (hmono.comp (Fin.castOrderIso
          (List.length_ofFn (f := fun i => bs.get (f i)))).strictMono)), fun i => ?_⟩
      simp only [List.get_eq_getElem, List.getElem_ofFn]
      rfl
    · refine List.forall₂_iff_get.mpr ⟨by simp, fun i hi hi' => ?_⟩
      simpa using hf ⟨i, hi⟩
  · rintro ⟨cs, hsub, hrel⟩
    obtain ⟨f, hf⟩ := List.sublist_iff_exists_fin_orderEmbedding_get_eq.mp hsub
    have hlength := hrel.length_eq
    refine ⟨fun i => f (i.cast hlength), fun i j hij => f.strictMono hij, fun i => ?_⟩
    rw [← hf]
    exact (List.forall₂_iff_get.mp hrel).2 i i.2 (hlength ▸ i.2)

/-- The greedy match exists whenever there is one. -/
theorem greedy_iff {as : List α} {bs : List β} :
    greedy r as bs = true ↔ Assignable r as bs := by
  rw [assignable_iff]
  induction bs generalizing as with
  | nil =>
    cases as with
    | nil => exact ⟨fun _ => ⟨[], .slnil, .nil⟩, fun _ => rfl⟩
    | cons a as =>
      refine ⟨fun h => (nomatch h), fun ⟨cs, hsub, hrel⟩ => ?_⟩
      obtain rfl := List.sublist_nil.mp hsub
      cases hrel
  | cons b bs ih =>
    cases as with
    | nil => exact ⟨fun _ => ⟨[], List.nil_sublist _, .nil⟩, fun _ => rfl⟩
    | cons a as =>
      rw [greedy]
      split
      · rename_i hab
        rw [ih]
        constructor
        · rintro ⟨cs, hsub, hrel⟩
          exact ⟨b :: cs, hsub.cons_cons b, .cons hab hrel⟩
        · rintro ⟨cs, hsub, hrel⟩
          cases hrel with
          | cons _ hrel => exact ⟨_, List.Sublist.of_cons_cons hsub, hrel⟩
      · rename_i hab
        rw [ih]
        constructor
        · rintro ⟨cs, hsub, hrel⟩
          exact ⟨cs, hsub.cons b, hrel⟩
        · rintro ⟨cs, hsub, hrel⟩
          cases hsub with
          | cons _ hsub => exact ⟨cs, hsub, hrel⟩
          | cons_cons _ hsub =>
            cases hrel with
            | cons hab' _ => exact absurd hab' hab

theorem Assignable.reverse {as : List α} {bs : List β} (h : Assignable r as bs) :
    Assignable r as.reverse bs.reverse := by
  rw [assignable_iff] at *
  obtain ⟨cs, hsub, hrel⟩ := h
  exact ⟨cs.reverse, hsub.reverse, List.rel_reverse hrel⟩

theorem greedy_reverse {as : List α} {bs : List β} :
    greedy r as.reverse bs.reverse = true ↔ Assignable r as bs := by
  rw [greedy_iff]
  refine ⟨fun h => ?_, fun h => h.reverse⟩
  simpa using h.reverse

theorem Assignable.exists_of_mem {as : List α} {bs : List β} (h : Assignable r as bs) {a : α}
    (ha : a ∈ as) : ∃ b ∈ bs, r a b = true := by
  obtain ⟨f, -, hf⟩ := h
  obtain ⟨i, rfl⟩ := List.mem_iff_get.mp ha
  exact ⟨bs.get (f i), List.get_mem bs _, hf i⟩

theorem greedy_of_lt {as : List α} {bs : List β} (h : bs.length < as.length) :
    greedy r as bs = false := by
  refine Bool.eq_false_iff.mpr fun hgreedy => ?_
  obtain ⟨cs, hsub, hrel⟩ := assignable_iff.mp (greedy_iff.mp hgreedy)
  have := hsub.length_le
  have := hrel.length_eq
  omega

end Matching
