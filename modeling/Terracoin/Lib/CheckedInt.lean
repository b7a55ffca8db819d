import Terracoin.Lib.Checked

/-!
# Signed results

The result of `int` or `int64` arithmetic, unless it overflows, which C++ leaves undefined. The machine
then wraps around (`wrap64`).
-/

namespace Checked

/-- The values of a signed 32-bit integer. -/
def Int32Range (x : Int) : Prop := -2 ^ 31 ≤ x ∧ x < 2 ^ 31

instance (x : Int) : Decidable (Int32Range x) := inferInstanceAs (Decidable (_ ∧ _))

/-- An `int`, unless it overflows. -/
def int32 (x : Int) : Option Int32 := if Int32Range x then some (Int32.ofInt x) else none

/-- An `int64`, unless it overflows. -/
def int64 (x : Int) : Option Int := if Int64Range x then some x else none

/-- The `int64` that is left of a result that wraps around. -/
def wrap64 (x : Int) : Int := (x + 2 ^ 63) % 2 ^ 64 - 2 ^ 63

variable {x y : Int} {n : Int32}

theorem int32Range_toInt (n : Int32) : Int32Range n.toInt := ⟨n.le_toInt, n.toInt_lt⟩

theorem toInt_ofInt (h : Int32Range x) : (Int32.ofInt x).toInt = x :=
  Int32.toInt_ofInt_of_le h.1 h.2

theorem int32_of_range (h : Int32Range x) : int32 x = some (Int32.ofInt x) := if_pos h

theorem int32_eq_none : int32 x = none ↔ ¬ Int32Range x := by
  unfold int32
  split <;> simp_all

theorem int32_eq_some : int32 x = some n ↔ n.toInt = x := by
  unfold int32
  constructor
  · intro h
    split at h
    · rename_i hrange
      rw [← Option.some.inj h, toInt_ofInt hrange]
    · cases h
  · rintro rfl
    rw [if_pos (int32Range_toInt n), Int32.ofInt_toInt]

theorem wrap64_of_range (h : Int64Range x) : wrap64 x = x := by
  unfold Int64Range at h
  unfold wrap64
  omega

theorem wrap64_range (x : Int) : Int64Range (wrap64 x) := by
  unfold Int64Range wrap64
  omega

theorem int64_eq_some : int64 x = some y ↔ x = y ∧ Int64Range x := by
  unfold int64
  split <;> simp_all

end Checked
