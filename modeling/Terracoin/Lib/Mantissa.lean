import Mathlib.Algebra.Order.Ring.Nat

/-!
# Numbers with a short mantissa

The numbers `m * b ^ e` with a mantissa `m` below a bound. Cutting the low digits of a number at the
least exponent at which the rest fits the mantissa gives the greatest such number below it
(`le_chop`).
-/

namespace Mantissa

variable {b M n y e : Nat}

/-- A mantissa below `M`, scaled by a power of `b`. -/
def Representable (b M n : Nat) : Prop := ∃ m e, m < M ∧ n = m * b ^ e

/-- The number without its `e` low digits. -/
def chop (b e n : Nat) : Nat := n / b ^ e * b ^ e

/-- The least exponent at which the number fits the mantissa. -/
structure IsExponent (b M n e : Nat) : Prop where
  fits : n / b ^ e < M
  least : ∀ k < e, M ≤ n / b ^ k

theorem chop_le : chop b e n ≤ n := Nat.div_mul_le_self n (b ^ e)

@[simp] theorem chop_zero : chop b 0 n = n := by simp [chop]

/-- Below the exponent there is nothing between the cut number and the number. -/
theorem IsExponent.le_chop (hb : 1 < b) (hM : b ∣ M) (h : IsExponent b M n e)
    (hy : Representable b M y) (hyn : y ≤ n) : y ≤ chop b e n := by
  obtain ⟨m, k, hm, rfl⟩ := hy
  have hpos : ∀ j, 0 < b ^ j := fun j => Nat.pow_pos (by omega)
  rcases Nat.lt_or_ge k e with hke | hek
  · -- a smaller exponent: the number is at least `M * b ^ (e - 1)`, a multiple of `b ^ e`
    obtain ⟨j, rfl⟩ : ∃ j, e = j + 1 := ⟨e - 1, by omega⟩
    obtain ⟨c, rfl⟩ := hM
    have hlow : c * b ^ (j + 1) ≤ n := by
      have := (Nat.le_div_iff_mul_le (hpos j)).mp (h.least j (by omega))
      calc c * b ^ (j + 1) = b * c * b ^ j := by rw [pow_succ]; ac_rfl
        _ ≤ n := this
    calc m * b ^ k ≤ b * c * b ^ j :=
          Nat.mul_le_mul hm.le (Nat.pow_le_pow_right (by omega) (by omega))
      _ = c * b ^ (j + 1) := by rw [pow_succ]; ac_rfl
      _ ≤ n / b ^ (j + 1) * b ^ (j + 1) :=
          Nat.mul_le_mul_right _ ((Nat.le_div_iff_mul_le (hpos _)).mpr hlow)
  · -- otherwise `b ^ e` divides it
    obtain ⟨j, rfl⟩ : ∃ j, k = e + j := ⟨k - e, by omega⟩
    have hsplit : m * b ^ (e + j) = m * b ^ j * b ^ e := by rw [pow_add]; ac_rfl
    rw [hsplit] at hyn ⊢
    exact Nat.mul_le_mul_right _ ((Nat.le_div_iff_mul_le (hpos e)).mpr hyn)

end Mantissa
