import Mathlib.Data.Option.Basic

/-!
# Remembered results

A cell remembers the result of a computation that may fail; a failure is not remembered. What is
recalled is what would be computed as long as the cell is valid. A cell that is forgotten is valid
for everything, and a cell stays valid while the computation has the same result.

A test may remember the keys that it accepted. Asking for a key gives what the test gives as long
as all known keys pass it, whatever else was forgotten.
-/

namespace Memo

variable {α : Type}

/-- The value of the cell, if it is to be used and there is one, or else what is computed; and the
cell afterwards. -/
def look (useCell : Bool) (cell computed : Option α) : Option α × Option α :=
  match useCell, cell with
  | true, some a => (some a, some a)
  | _, _ => (computed, computed.or cell)

/-- The cell has nothing but the result of the computation. -/
def Valid (cell computed : Option α) : Prop := ∀ a, cell = some a → computed = some a

variable {cell computed : Option α}

@[simp] theorem valid_none : Valid none computed := fun _ h => nomatch h

theorem valid_self : Valid computed computed := fun _ h => h

/-- Without a value in the cell there is nothing to use. -/
@[simp] theorem look_none_fst (useCell : Bool) : (look useCell none computed).1 = computed := by
  cases useCell <;> rfl

theorem Valid.look_fst (h : Valid cell computed) (useCell : Bool) :
    (look useCell cell computed).1 = computed := by
  cases useCell with
  | false => rfl
  | true =>
    cases cell with
    | none => rfl
    | some a => exact (h a rfl).symm

theorem Valid.look_snd (h : Valid cell computed) (useCell : Bool) :
    Valid (look useCell cell computed).2 computed := by
  have hor : Valid (computed.or cell) computed := by
    cases computed with
    | none => exact h
    | some a => exact valid_self
  cases useCell with
  | false => exact hor
  | true =>
    cases cell with
    | none => exact hor
    | some a => exact h

variable {κ : Type} {accepts : κ → Bool} {known known' : List κ}

def Sound (accepts : κ → Bool) (known : List κ) : Prop := ∀ k ∈ known, accepts k = true

theorem sound_nil : Sound accepts [] := fun _ h => nomatch h

theorem Sound.anti (h : Sound accepts known) (hsub : known' ⊆ known) : Sound accepts known' :=
  fun k hk => h k (hsub hk)

theorem Sound.cons {k : κ} (h : Sound accepts known) (hk : accepts k = true) :
    Sound accepts (k :: known) := by
  intro k' hk'
  cases List.mem_cons.mp hk' with
  | inl heq => exact heq ▸ hk
  | inr hmem => exact h k' hmem

theorem Sound.contains_or [BEq κ] [LawfulBEq κ] (h : Sound accepts known) (k : κ) :
    (known.contains k || accepts k) = accepts k := by
  cases hknown : known.contains k with
  | false => rfl
  | true => exact (h k (List.contains_iff_mem.mp hknown)).symm

end Memo
