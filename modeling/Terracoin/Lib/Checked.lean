import Mathlib.Algebra.Order.BigOperators.Group.List
import Mathlib.Tactic.Linarith

/-!
# Computations that can fail

A validation routine is a run of checks: the first failing one decides the result. Such a
routine is an `Except` computation here, and a proof about its success takes it apart check
by check: `bind_ok` for a sequence, `require_ok` for a single check.

Signed 64-bit sums are computed by `add64`, which fails when the exact sum does not fit.
A routine that uses it succeeds only when no sum overflowed, so its success can be read
with exact integers.
-/

namespace Checked

variable {ε α β : Type}

/-! ## Sequences of checks -/

theorem bind_ok {x : Except ε α} {f : α → Except ε β} {b : β} :
    (x >>= f) = .ok b ↔ ∃ a, x = .ok a ∧ f a = .ok b := by
  cases x with
  | error e => simp [bind, Except.bind]
  | ok a => simp [bind, Except.bind]

theorem bind_error {x : Except ε α} {f : α → Except ε β} {e : ε} :
    (x >>= f) = .error e ↔ x = .error e ∨ ∃ a, x = .ok a ∧ f a = .error e := by
  cases x with
  | error e' => simp [bind, Except.bind]
  | ok a => simp [bind, Except.bind]

theorem pure_ok {a b : α} : (pure a : Except ε α) = .ok b ↔ a = b := by
  simp [pure, Except.pure]

theorem map_ok {x : Except ε α} {f : α → β} {b : β} :
    x.map f = .ok b ↔ ∃ a, x = .ok a ∧ f a = b := by
  cases x with
  | error e => simp [Except.map]
  | ok a => simp [Except.map]

/-- One check: fail with `e` unless `c` holds. -/
def require (c : Bool) (e : ε) : Except ε Unit := if c then .ok () else .error e

theorem require_ok {c : Bool} {e : ε} {u : Unit} : require c e = .ok u ↔ c = true := by
  unfold require
  split <;> simp_all

theorem require_error {c : Bool} {e e' : ε} :
    require c e = .error e' ↔ c = false ∧ e = e' := by
  unfold require
  split <;> simp_all

def get (x : Option α) (e : ε) : Except ε α := x.elim (.error e) .ok

theorem get_ok {x : Option α} {e : ε} {a : α} : get x e = .ok a ↔ x = some a := by
  cases x <;> simp [get]

theorem get_error {x : Option α} {e e' : ε} : get x e = .error e' ↔ x = none ∧ e = e' := by
  cases x <;> simp [get]

theorem foldlM_invariant {P : β → Prop} {f : β → α → Except ε β} {l : List α} {b b' : β}
    (hstep : ∀ b a b', P b → f b a = .ok b' → P b') (hb : P b) (h : l.foldlM f b = .ok b') : P b' := by
  induction l generalizing b with
  | nil => exact Except.ok.inj h ▸ hb
  | cons a l ih =>
    rw [List.foldlM_cons, bind_ok] at h
    obtain ⟨b1, h1, h2⟩ := h
    exact ih (hstep b a b1 hb h1) h2

theorem exists_ok_of_isOk {x : Except ε α} (h : x.isOk = true) : ∃ a, x = .ok a := by
  cases x with
  | error e => cases h
  | ok a => exact ⟨a, rfl⟩

theorem toOption_eq_some {x : Except ε α} {a : α} : x.toOption = some a ↔ x = .ok a := by
  cases x <;> simp [Except.toOption]

theorem map_fst_ok {x : Except ε (α × β)} {a : α} (h : x.map Prod.fst = .ok a) :
    ∃ b, x = .ok (a, b) := by
  cases x with
  | error e => cases h
  | ok y => exact ⟨y.2, congrArg Except.ok (Prod.ext (Except.ok.inj h) rfl)⟩

theorem toOption_map_fst {x : Except ε (α × β)} {a : α} (h : x.toOption.map Prod.fst = some a) :
    ∃ b, x = .ok (a, b) := by
  obtain ⟨y, hy, rfl⟩ := Option.map_eq_some_iff.mp h
  exact ⟨y.2, toOption_eq_some.mp hy⟩

/-- The values of a signed 64-bit integer. -/
def Int64Range (x : Int) : Prop := -2 ^ 63 ≤ x ∧ x < 2 ^ 63

instance (x : Int) : Decidable (Int64Range x) := inferInstanceAs (Decidable (_ ∧ _))

/-- Signed 64-bit addition; the overflow that C++ leaves undefined fails with `e`. -/
def add64 (e : ε) (a b : Int) : Except ε Int :=
  if Int64Range (a + b) then .ok (a + b) else .error e

theorem add64_ok {e : ε} {a b c : Int} :
    add64 e a b = .ok c ↔ c = a + b ∧ Int64Range (a + b) := by
  unfold add64
  split
  · simp_all [eq_comm]
  · simp_all

theorem add64_of_range {e : ε} {a b : Int} (h : Int64Range (a + b)) :
    add64 e a b = .ok (a + b) := if_pos h

/-- Signed 64-bit multiplication; the overflow that C++ leaves undefined fails with `e`. -/
def mul64 (e : ε) (a b : Int) : Except ε Int :=
  if Int64Range (a * b) then .ok (a * b) else .error e

theorem mul64_of_range {e : ε} {a b : Int} (h : Int64Range (a * b)) :
    mul64 e a b = .ok (a * b) := if_pos h

/-! ## Failures that cannot happen -/

/-- The computation does not fail with `e`. -/
def Avoids (e : ε) (x : Except ε α) : Prop := x ≠ .error e

theorem avoids_ok {e : ε} {a : α} : Avoids e (.ok a : Except ε α) := by
  unfold Avoids
  simp

theorem avoids_pure {e : ε} {a : α} : Avoids e (pure a : Except ε α) := avoids_ok

theorem avoids_bind {e : ε} {x : Except ε α} {f : α → Except ε β} (hx : Avoids e x)
    (hf : ∀ a, x = .ok a → Avoids e (f a)) : Avoids e (x >>= f) := by
  intro h
  rcases bind_error.mp h with h | ⟨a, ha, h⟩
  · exact hx h
  · exact hf a ha h

theorem avoids_map {e : ε} {x : Except ε α} {f : α → β} (hx : Avoids e x) : Avoids e (x.map f) := by
  cases x with
  | error e' => exact fun h => hx (congrArg Except.error (Except.error.inj h))
  | ok a => exact avoids_ok

theorem avoids_require {c : Bool} {e e' : ε} (h : e' ≠ e) : Avoids e (require c e') :=
  fun he => h (require_error.mp he).2

theorem avoids_get {x : Option α} {e e' : ε} (h : e' ≠ e) : Avoids e (get x e') :=
  fun he => h (get_error.mp he).2

theorem avoids_add64 {e e' : ε} {a b : Int} (h : Int64Range (a + b)) : Avoids e' (add64 e a b) := by
  rw [add64_of_range h]
  exact avoids_ok

theorem avoids_add64_of_ne {e e' : ε} {a b : Int} (h : e' ≠ e) : Avoids e (add64 e' a b) := by
  unfold add64
  split
  · exact avoids_ok
  · exact fun he => h (Except.error.inj he)

theorem avoids_foldlM {e : ε} {f : β → α → Except ε β} {l : List α} (hf : ∀ b a, Avoids e (f b a))
    {b : β} : Avoids e (l.foldlM f b) := by
  induction l generalizing b with
  | nil => exact avoids_pure
  | cons a l ih =>
    rw [List.foldlM_cons]
    exact avoids_bind (hf b a) fun _ _ => ih

theorem avoids_ite {e : ε} {p : Prop} [Decidable p] {x y : Except ε α} (hx : p → Avoids e x)
    (hy : ¬p → Avoids e y) : Avoids e (if p then x else y) := by
  split
  · exact hx ‹_›
  · exact hy ‹_›

end Checked
