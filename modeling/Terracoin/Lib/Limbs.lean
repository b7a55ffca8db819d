import Mathlib.Algebra.BigOperators.Fin
import Mathlib.Algebra.Order.BigOperators.Group.Finset
import Mathlib.Tactic.Ring

/-!
# Numbers as limbs

`value w d n` is the number whose first `n` limbs of `w` bits are `d`, the lowest first. Its bits are
the bits of the limbs (`testBit_value`), the highest limb that differs decides a comparison
(`value_succ_lt`), and a limb is replaced by one of the same place (`value_update`). Loops over the
limbs are taken turn by turn (`foldl_invariant`).
-/

namespace Limbs

variable {w n k i : Nat} {d d' : Nat → Nat}

def value (w : Nat) (d : Nat → Nat) (n : Nat) : Nat := ∑ i ∈ Finset.range n, d i * 2 ^ (w * i)

@[simp] theorem value_zero (w : Nat) (d : Nat → Nat) : value w d 0 = 0 := rfl

theorem value_succ (w : Nat) (d : Nat → Nat) (n : Nat) :
    value w d (n + 1) = value w d n + d n * 2 ^ (w * n) := Finset.sum_range_succ _ _

theorem value_congr (h : ∀ i < n, d i = d' i) : value w d n = value w d' n := by
  apply Finset.sum_congr rfl
  intro i hi
  rw [h i (Finset.mem_range.mp hi)]

theorem pow_succ_place (w n : Nat) : 2 ^ (w * (n + 1)) = 2 ^ w * 2 ^ (w * n) := by
  rw [Nat.mul_succ, Nat.pow_add, Nat.mul_comm]

theorem value_lt (h : ∀ i < n, d i < 2 ^ w) : value w d n < 2 ^ (w * n) := by
  induction n with
  | zero => simp
  | succ n ih =>
    have hlow := ih fun i hi => h i (by omega)
    have htop : d n + 1 ≤ 2 ^ w := h n (by omega)
    rw [value_succ, pow_succ_place]
    calc value w d n + d n * 2 ^ (w * n) < 2 ^ (w * n) + d n * 2 ^ (w * n) := by omega
      _ = (d n + 1) * 2 ^ (w * n) := by ring
      _ ≤ 2 ^ w * 2 ^ (w * n) := Nat.mul_le_mul_right _ htop

/-- The bits of the number are those of its limbs. -/
theorem testBit_value (hw : 0 < w) (h : ∀ i < n, d i < 2 ^ w) (k : Nat) :
    (value w d n).testBit k = (decide (k < w * n) && (d (k / w)).testBit (k % w)) := by
  induction n with
  | zero => simp
  | succ n ih =>
    have hlt : value w d n < 2 ^ (w * n) := value_lt fun i hi => h i (by omega)
    rw [value_succ, Nat.add_comm, Nat.mul_comm, Nat.testBit_two_pow_mul_add _ hlt]
    split
    · rename_i hk
      rw [ih fun i hi => h i (by omega)]
      simp [hk, show k < w * (n + 1) by rw [Nat.mul_succ]; omega]
    · rename_i hk
      by_cases hin : k < w * (n + 1)
      · have hdiv : k / w = n := by
          apply Nat.div_eq_of_lt_le
          · rw [Nat.mul_comm]
            exact Nat.not_lt.mp hk
          · rw [Nat.mul_comm]
            exact hin
        have hmod : k % w = k - w * n := by
          rw [Nat.mod_eq_sub_mul_div, hdiv]
        simp [hin, hdiv, hmod]
      · have hbit : (d n).testBit (k - w * n) = false := by
          apply Nat.testBit_lt_two_pow
          apply (h n (Nat.lt_succ_self n)).trans_le
          apply Nat.pow_le_pow_right (by decide)
          rw [Nat.mul_succ] at hin
          omega
        simp [hin, hbit]

theorem value_succ_lt (h : ∀ i < n, d i < 2 ^ w) (htop : d n < d' n) :
    value w d (n + 1) < value w d' (n + 1) := by
  have hlow := value_lt h
  rw [value_succ, value_succ]
  calc value w d n + d n * 2 ^ (w * n) < 2 ^ (w * n) + d n * 2 ^ (w * n) := by omega
    _ = (d n + 1) * 2 ^ (w * n) := by ring
    _ ≤ d' n * 2 ^ (w * n) := Nat.mul_le_mul_right _ htop
    _ ≤ value w d' n + d' n * 2 ^ (w * n) := Nat.le_add_left _ _

theorem value_update (h : ∀ j < n, j ≠ i → d' j = d j) (hi : i < n) :
    value w d' n + d i * 2 ^ (w * i) = value w d n + d' i * 2 ^ (w * i) := by
  induction n with
  | zero => exact absurd hi (Nat.not_lt_zero i)
  | succ n ih =>
    rw [value_succ, value_succ]
    by_cases hin : i = n
    · subst hin
      rw [value_congr fun j hj => h j (by omega) (by omega)]
      ring
    · have hrec := ih (fun j hj => h j (by omega)) (by omega)
      rw [h n (by omega) fun heq => hin heq.symm]
      omega

theorem value_complement (h : ∀ i < n, d i + d' i + 1 = 2 ^ w) :
    value w d n + value w d' n + 1 = 2 ^ (w * n) := by
  induction n with
  | zero => rfl
  | succ n ih =>
    have hlow := ih fun i hi => h i (by omega)
    rw [value_succ, value_succ, pow_succ_place, ← h n (by omega), ← hlow]
    ring

theorem eq_of_value_eq (h : ∀ i < n, d i < 2 ^ w) (h' : ∀ i < n, d' i < 2 ^ w)
    (heq : value w d n = value w d' n) : ∀ i < n, d i = d' i := by
  induction n with
  | zero => exact fun i hi => absurd hi (Nat.not_lt_zero i)
  | succ n ih =>
    have hlow := fun i (hi : i < n) => h i (by omega)
    have hlow' := fun i (hi : i < n) => h' i (by omega)
    have htop : d n = d' n := by
      rcases Nat.lt_trichotomy (d n) (d' n) with hlt | heq' | hgt
      · exact absurd heq (value_succ_lt hlow hlt).ne
      · exact heq'
      · exact absurd heq (value_succ_lt hlow' hgt).ne'
    rw [value_succ, value_succ, htop] at heq
    intro i hi
    rcases Nat.lt_succ_iff_lt_or_eq.mp hi with hlt | rfl
    · exact ih hlow hlow' (Nat.add_right_cancel heq) i hlt
    · exact htop

theorem foldl_invariant {α : Type} {P : Nat → α → Prop} {f : α → Fin n → α} {x : α} (h0 : P 0 x)
    (hstep : ∀ (i : Fin n) (y : α), P i y → P (i + 1) (f y i)) : P n (Fin.foldl n f x) := by
  induction n with
  | zero =>
    rw [Fin.foldl_zero]
    exact h0
  | succ n ih =>
    rw [Fin.foldl_succ_last]
    exact hstep (Fin.last n) _ (ih fun i => hstep i.castSucc)

end Limbs
