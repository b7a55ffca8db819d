import Mathlib.Data.List.Basic
import Mathlib.Order.Lattice

/-!
# Insertions into a numbering

Items arrive one after another, some with a number and some without. An item without a number is put
behind all that arrived before it, and moves the numbers from there on up by one. The lists have the
old numbers of the items, the last arrival first.
-/

namespace Renumber

mutual

/-- The first number behind all the items. -/
def behind : List (Option Nat) → Nat
  | [] => 0
  | none :: l => behind l + 1
  | some p :: l => max (behind l) (p + (starts l).countP (· ≤ p) + 1)

/-- Where the items without a number are put. -/
def starts : List (Option Nat) → List Nat
  | [] => []
  | none :: l => behind l :: starts l
  | some _ :: l => starts l

end

def shift (l : List (Option Nat)) (p : Nat) : Nat := (starts l).countP (· ≤ p)

/-- The new number of an item that comes after those of the list. -/
def number : Option Nat → List (Option Nat) → Nat
  | none, l => behind l
  | some p, l => p + shift l p

variable {l l₁ l₂ : List (Option Nat)} {x y : Option Nat} {p q : Nat}

theorem behind_cons (x : Option Nat) (l : List (Option Nat)) :
    behind (x :: l) = max (behind l) (number x l + 1) := by
  cases x with
  | none =>
    rw [behind, number]
    omega
  | some p =>
    rw [behind]
    rfl

theorem number_lt_behind_cons (x : Option Nat) (l : List (Option Nat)) :
    number x l < behind (x :: l) := by
  rw [behind_cons]
  omega

theorem behind_mono (h : l₁ <:+ l) : behind l₁ ≤ behind l := by
  obtain ⟨t, rfl⟩ := h
  induction t with
  | nil => exact Nat.le_refl _
  | cons x t ih =>
    rw [List.cons_append, behind_cons]
    omega

theorem number_lt_behind (h : x :: l₁ <:+ l) : number x l₁ < behind l :=
  Nat.lt_of_lt_of_le (number_lt_behind_cons x l₁) (behind_mono h)

theorem mem_starts {s : Nat} : s ∈ starts l ↔ ∃ l₁, none :: l₁ <:+ l ∧ s = behind l₁ := by
  induction l with
  | nil => simp [starts]
  | cons x l ih =>
    have hcons : ∀ {l₁}, none :: l₁ <:+ x :: l ↔ none :: l₁ = x :: l ∨ none :: l₁ <:+ l :=
      List.suffix_cons_iff
    cases x with
    | none =>
      rw [starts, List.mem_cons, ih]
      constructor
      · rintro (rfl | ⟨l₁, hl₁, rfl⟩)
        · exact ⟨l, hcons.mpr (.inl rfl), rfl⟩
        · exact ⟨l₁, hcons.mpr (.inr hl₁), rfl⟩
      · rintro ⟨l₁, hl₁, rfl⟩
        rcases hcons.mp hl₁ with heq | hl₁
        · exact .inl (congrArg behind (List.cons.inj heq).2)
        · exact .inr ⟨l₁, hl₁, rfl⟩
    | some p =>
      rw [starts, ih]
      refine exists_congr fun l₁ => and_congr_left fun _ => ?_
      rw [hcons]
      simp

theorem shift_cons_none : shift (none :: l) p = shift l p + if behind l ≤ p then 1 else 0 := by
  rw [shift, starts, List.countP_cons]
  simp [shift]

theorem shift_cons_some : shift (some q :: l) p = shift l p := by
  rw [shift, starts, shift]

/-- What comes later is put behind an item and does not move it. -/
theorem shift_eq (h : some p :: l₁ <:+ l) : shift l p = shift l₁ p := by
  obtain ⟨t, rfl⟩ := h
  induction t with
  | nil => exact shift_cons_some
  | cons x t ih =>
    cases x with
    | none =>
      have hlt := number_lt_behind (List.suffix_append t (some p :: l₁))
      have hnot : ¬ behind (t ++ some p :: l₁) ≤ p := by
        rw [number] at hlt
        omega
      rw [List.cons_append, shift_cons_none, ih, if_neg hnot, Nat.add_zero]
    | some q => rw [List.cons_append, shift_cons_some, ih]

theorem number_some (h : some p :: l₁ <:+ l) : number (some p) l₁ = p + shift l p := by
  rw [shift_eq h, number]

theorem shift_mono (h : p ≤ q) : shift l p ≤ shift l q := by
  refine List.countP_mono_left fun s _ hs => ?_
  simp only [decide_eq_true_eq] at hs ⊢
  exact hs.trans h

theorem add_shift_lt (h : p < q) : p + shift l p < q + shift l q :=
  Nat.add_lt_add_of_lt_of_le h (shift_mono h.le)

/-- No number that is moved up lands on one that was put in. -/
def Clear (l : List (Option Nat)) : Prop := ∀ p, some p ∈ l → p + shift l p ∉ starts l

/-- A number that is not moved is still in its place among those that are. -/
structure Outside (l : List (Option Nat)) (n : Nat) : Prop where
  lt : n < behind l
  notMem : n ∉ starts l
  above : ∀ p, some p ∈ l → p < n → p + shift l p < n

theorem mem_of_suffix (h : x :: l₁ <:+ l) : x ∈ l := h.subset List.mem_cons_self

/-- Two items get different numbers, unless one is moved onto the other. -/
theorem number_ne (hclear : Clear l) (hx : x :: l₁ <:+ l) (hy : y :: l₂ <:+ l₁)
    (hdistinct : ∀ p, x = some p → y ≠ some p) : number x l₁ ≠ number y l₂ := by
  have hy' : y :: l₂ <:+ l := hy.trans ((List.suffix_cons x l₁).trans hx)
  cases x with
  | none => exact (number_lt_behind hy).ne'
  | some p =>
    rw [number_some hx]
    cases y with
    | none =>
      intro heq
      exact hclear p (mem_of_suffix hx) (mem_starts.mpr ⟨l₂, hy', heq⟩)
    | some q =>
      rw [number_some hy']
      have hpq : p ≠ q := fun h => hdistinct p rfl (h ▸ rfl)
      rcases Nat.lt_or_gt_of_ne hpq with h | h
      · exact (add_shift_lt h).ne
      · exact (add_shift_lt h).ne'

theorem Outside.number_ne {n : Nat} (h : Outside l n) (hx : x :: l₁ <:+ l) (hne : x ≠ some n) :
    number x l₁ ≠ n := by
  cases x with
  | none => exact fun heq => h.notMem (mem_starts.mpr ⟨l₁, hx, heq.symm⟩)
  | some p =>
    rw [number_some hx]
    rcases Nat.lt_trichotomy p n with hlt | rfl | hgt
    · exact (h.above p (mem_of_suffix hx) hlt).ne
    · exact absurd rfl hne
    · omega

theorem suffix_cases (hx : x :: l₁ <:+ l) (hy : y :: l₂ <:+ l) :
    l₁ = l₂ ∨ y :: l₂ <:+ l₁ ∨ x :: l₁ <:+ l₂ := by
  rcases List.suffix_or_suffix_of_suffix hx hy with h | h
  · rcases List.suffix_cons_iff.mp h with heq | h
    · exact .inl (List.cons.inj heq).2
    · exact .inr (.inr h)
  · rcases List.suffix_cons_iff.mp h with heq | h
    · exact .inl (List.cons.inj heq).2.symm
    · exact .inr (.inl h)

theorem exists_number_eq (hp : some p ∈ l) (hmem : p + shift l p ∈ starts l) :
    ∃ l₁ l₂, some p :: l₁ <:+ l ∧ none :: l₂ <:+ l ∧ number (some p) l₁ = number none l₂ := by
  obtain ⟨t, l₁, rfl⟩ := List.append_of_mem hp
  have hl₁ : some p :: l₁ <:+ t ++ some p :: l₁ := List.suffix_append t _
  obtain ⟨l₂, hl₂, heq⟩ := mem_starts.mp hmem
  exact ⟨l₁, l₂, hl₁, hl₂, (number_some hl₁).trans heq⟩

/-! ## Insertions that do not collide -/

/-- The first number behind the old numbers. -/
def top : List (Option Nat) → Nat
  | [] => 0
  | none :: l => top l
  | some p :: l => max (top l) (p + 1)

/-- The number of an item is below what the items before it were put behind, or it is so far above
that none of them can be put on it. -/
def Apart (l : List (Option Nat)) : Prop :=
  ∀ l₁ l₂ p, some p :: l₁ <:+ l → none :: l₂ <:+ l₁ → p < top l₂ ∨ top l₂ + l₂.count none ≤ p

theorem top_mono (h : l₁ <:+ l) : top l₁ ≤ top l := by
  obtain ⟨t, rfl⟩ := h
  induction t with
  | nil => exact Nat.le_refl _
  | cons x t ih =>
    cases x with
    | none => exact ih
    | some p => exact ih.trans (Nat.le_max_left _ _)

theorem exists_of_lt_top (h : p < top l) : ∃ q l₁, some q :: l₁ <:+ l ∧ p ≤ q := by
  induction l with
  | nil => exact absurd h (Nat.not_lt_zero p)
  | cons x l ih =>
    have hold : p < top l → ∃ q l₁, some q :: l₁ <:+ x :: l ∧ p ≤ q := by
      intro hlt
      obtain ⟨q, l₁, hsuffix, hle⟩ := ih hlt
      exact ⟨q, l₁, hsuffix.trans (List.suffix_cons x l), hle⟩
    cases x with
    | none => exact hold h
    | some q =>
      rcases Nat.lt_or_ge p (top l) with hlt | hge
      · exact hold hlt
      · rw [top] at h
        exact ⟨q, l, List.suffix_rfl, by omega⟩

theorem add_shift_lt_behind (h : p < top l₁) (hl : l₁ <:+ l) : p + shift l p < behind l₁ := by
  obtain ⟨q, l₂, hsuffix, hle⟩ := exists_of_lt_top h
  have hlt := number_lt_behind hsuffix
  rw [number, ← shift_eq (hsuffix.trans hl)] at hlt
  have hshift := shift_mono (l := l) hle
  omega

theorem length_starts (l : List (Option Nat)) : (starts l).length = l.count none := by
  induction l with
  | nil => rfl
  | cons x l ih => cases x <;> simp [starts, ih]

/-- Everything is put behind the old numbers, one after another. -/
theorem behind_of_apart (h : Apart l) : ∀ l₁, l₁ <:+ l → behind l₁ = top l₁ + l₁.count none := by
  induction l with
  | nil =>
    intro l₁ hl₁
    rw [List.suffix_nil.mp hl₁]
    rfl
  | cons x l ih =>
    have hsuffix := List.suffix_cons x l
    have ih := ih fun l₁ l₂ p hl₁ hl₂ => h l₁ l₂ p (hl₁.trans hsuffix) hl₂
    intro l₁ hl₁
    rcases List.suffix_cons_iff.mp hl₁ with rfl | hl₁
    · have hbehind := ih l List.suffix_rfl
      cases x with
      | none =>
        rw [behind, hbehind, top, List.count_cons_self]
        omega
      | some p =>
        have hcount : (some p :: l).count none = l.count none := by simp
        rw [behind_cons, number, top, hcount]
        rcases Nat.lt_or_ge p (top l) with hlt | hge
        · have hshift := add_shift_lt_behind hlt List.suffix_rfl
          omega
        · -- All that were put in before are below
          have hall : ∀ s ∈ starts l, decide (s ≤ p) = true := by
            intro s hs
            obtain ⟨l₂, hl₂, rfl⟩ := mem_starts.mp hs
            have hl₂' : l₂ <:+ l := (List.suffix_cons none l₂).trans hl₂
            have htop := top_mono hl₂'
            have hapart := h l l₂ p List.suffix_rfl hl₂
            rw [decide_eq_true_eq, ih l₂ hl₂']
            omega
          have hshift : shift l p = l.count none := by
            rw [shift, List.countP_eq_length.mpr hall, length_starts]
          omega
    · exact ih l₁ hl₁

theorem clear_of_apart (h : Apart l) : Clear l := by
  intro p hp hmem
  obtain ⟨l₁, l₂, hl₁, hl₂, heq⟩ := exists_number_eq hp hmem
  rw [number_some hl₁, number] at heq
  rcases suffix_cases hl₁ hl₂ with rfl | hearlier | hlater
  · have hsame := (List.suffix_of_suffix_length_le hl₁ hl₂ (Nat.le_refl _)).eq_of_length rfl
    exact absurd (List.cons.inj hsame).1 (Option.some_ne_none p)
  · have hl₂' : l₂ <:+ l := (List.suffix_cons none l₂).trans hl₂
    rcases h l₁ l₂ p hl₁ hearlier with hlt | hge
    · have hlt := add_shift_lt_behind hlt hl₂'
      omega
    · rw [← behind_of_apart h l₂ hl₂'] at hge
      have hcounted : 0 < shift l p :=
        List.countP_pos_iff.mpr ⟨behind l₂, heq ▸ hmem, decide_eq_true hge⟩
      omega
  · have hlt := number_lt_behind hlater
    rw [number_some hl₁] at hlt
    omega

/-- The first numbers behind the old numbers, at the items without one. -/
def tops : List (Option Nat) → List Nat
  | [] => []
  | none :: l => top l :: tops l
  | some _ :: l => tops l

/-- The items without a number that come after smaller old numbers only. -/
def inserted (l : List (Option Nat)) (p : Nat) : Nat := (tops l).countP (· ≤ p)

/-- A number that is not moved has a place of its own: below the end, not where an item without a
number is put, and above the smaller old numbers with what is inserted before them. -/
structure Kept (l : List (Option Nat)) (n : Nat) : Prop where
  lt : n < top l + l.count none
  ne : ∀ l₁, none :: l₁ <:+ l → n ≠ top l₁ + l₁.count none
  above : ∀ p, some p ∈ l → p < n → p + inserted l p < n

/-- An item without a number moves an old number up exactly if the old numbers before it are
smaller. -/
theorem Apart.behind_le_iff (h : Apart l) (hp : some p ∈ l) (hl : none :: l₁ <:+ l) :
    behind l₁ ≤ p ↔ top l₁ ≤ p := by
  have hsuffix : l₁ <:+ l := (List.suffix_cons none l₁).trans hl
  rw [behind_of_apart h l₁ hsuffix]
  obtain ⟨t, l₂, rfl⟩ := List.append_of_mem hp
  have hl₂ : some p :: l₂ <:+ t ++ some p :: l₂ := List.suffix_append t _
  rcases suffix_cases hl₂ hl with rfl | hearlier | hlater
  · have hsame := (List.suffix_of_suffix_length_le hl₂ hl (Nat.le_refl _)).eq_of_length rfl
    exact absurd (List.cons.inj hsame).1 (Option.some_ne_none p)
  · have hapart := h l₂ l₁ p hl₂ hearlier
    omega
  · have htop : p < top (some p :: l₂) := by
      rw [top]
      omega
    have hle := top_mono hlater
    omega

theorem countP_starts (happ : ∀ l₁, none :: l₁ <:+ l → (behind l₁ ≤ p ↔ top l₁ ≤ p)) :
    (starts l).countP (· ≤ p) = (tops l).countP (· ≤ p) := by
  induction l with
  | nil => rfl
  | cons x l ih =>
    have ih := ih fun l₁ hl₁ => happ l₁ (hl₁.trans (List.suffix_cons x l))
    cases x with
    | none =>
      rw [starts, tops, List.countP_cons, List.countP_cons, ih]
      simp only [decide_eq_true_eq, happ l List.suffix_rfl]
    | some q => exact ih

theorem shift_of_apart (h : Apart l) (hp : some p ∈ l) : shift l p = inserted l p :=
  countP_starts fun _ hl₁ => h.behind_le_iff hp hl₁

theorem outside_iff_kept (h : Apart l) {n : Nat} : Outside l n ↔ Kept l n := by
  have hbehind := behind_of_apart h
  have hall := hbehind l List.suffix_rfl
  constructor
  · intro hout
    refine ⟨hall ▸ hout.lt, fun l₁ hl₁ heq => ?_, fun p hp hlt => ?_⟩
    · refine hout.notMem (mem_starts.mpr ⟨l₁, hl₁, ?_⟩)
      rw [heq, hbehind l₁ ((List.suffix_cons none l₁).trans hl₁)]
    · rw [← shift_of_apart h hp]
      exact hout.above p hp hlt
  · intro hkept
    refine ⟨hall ▸ hkept.lt, fun hmem => ?_, fun p hp hlt => ?_⟩
    · obtain ⟨l₁, hl₁, heq⟩ := mem_starts.mp hmem
      refine hkept.ne l₁ hl₁ ?_
      rw [heq, hbehind l₁ ((List.suffix_cons none l₁).trans hl₁)]
    · rw [shift_of_apart h hp]
      exact hkept.above p hp hlt

end Renumber
