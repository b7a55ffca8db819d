import Mathlib.Data.List.Count
import Mathlib.Logic.Basic

/-!
# Computations with a trace

A computation that may fail and leaves a trace of events; the events before a failure are in it too.
A `Contract` says which events are counted, which are allowed at all, and which failures are.
`Meets` is the judgement that a computation keeps a contract with at most so many counted events and
ends with a property. It follows the program: `Meets.bind` for a sequence, `Meets.ite` for a branch.
-/

structure Traced (ω ε α : Type) where
  trace : List ω
  result : Except ε α

namespace Traced

variable {ω ε α β : Type}

@[ext] theorem ext {x y : Traced ω ε α} (htrace : x.trace = y.trace)
    (hresult : x.result = y.result) : x = y := by
  cases x
  cases y
  obtain rfl : _ = _ := htrace
  obtain rfl : _ = _ := hresult
  rfl

protected def bind (x : Traced ω ε α) (f : α → Traced ω ε β) : Traced ω ε β :=
  match x.result with
  | .ok a => ⟨x.trace ++ (f a).trace, (f a).result⟩
  | .error e => ⟨x.trace, .error e⟩

instance : Monad (Traced ω ε) where
  pure a := ⟨[], .ok a⟩
  bind := Traced.bind

def fail (e : ε) : Traced ω ε α := ⟨[], .error e⟩

def emit (o : ω) : Traced ω ε Unit := ⟨[o], .ok ()⟩

/-! ## Equations -/

theorem bind_of_ok {x : Traced ω ε α} {a : α} (f : α → Traced ω ε β) (h : x.result = .ok a) :
    x >>= f = ⟨x.trace ++ (f a).trace, (f a).result⟩ := by
  change Traced.bind x f = _
  rw [Traced.bind, h]

theorem bind_of_error {x : Traced ω ε α} {e : ε} (f : α → Traced ω ε β)
    (h : x.result = .error e) : x >>= f = ⟨x.trace, .error e⟩ := by
  change Traced.bind x f = _
  rw [Traced.bind, h]

@[simp] theorem trace_pure (a : α) : (pure a : Traced ω ε α).trace = [] := rfl

@[simp] theorem result_pure (a : α) : (pure a : Traced ω ε α).result = .ok a := rfl

@[simp] theorem trace_fail (e : ε) : (fail e : Traced ω ε α).trace = [] := rfl

@[simp] theorem result_fail (e : ε) : (fail e : Traced ω ε α).result = .error e := rfl

@[simp] theorem pure_bind (a : α) (f : α → Traced ω ε β) : (pure a >>= f) = f a :=
  bind_of_ok f rfl

@[simp] theorem fail_bind (e : ε) (f : α → Traced ω ε β) : (fail e >>= f) = fail e := rfl

theorem result_bind_pure (x : Traced ω ε α) (f : α → β) :
    (x >>= fun a => pure (f a)).result = x.result.map f := by
  cases hx : x.result with
  | error e => rw [bind_of_error _ hx, Except.map]
  | ok a => rw [bind_of_ok _ hx, Except.map, result_pure]

theorem result_bind_ok {x : Traced ω ε α} {f : α → Traced ω ε β} {b : β} :
    (x >>= f).result = .ok b ↔ ∃ a, x.result = .ok a ∧ (f a).result = .ok b := by
  cases hx : x.result with
  | error e =>
    rw [bind_of_error f hx]
    exact ⟨fun h => (nomatch h), fun ⟨a, ha, _⟩ => nomatch ha⟩
  | ok a =>
    rw [bind_of_ok f hx]
    exact ⟨fun h => ⟨a, rfl, h⟩, fun ⟨a', ha, h⟩ => Except.ok.inj ha ▸ h⟩

theorem mem_trace_bind {x : Traced ω ε α} {f : α → Traced ω ε β} {o : ω} :
    o ∈ (x >>= f).trace ↔ o ∈ x.trace ∨ ∃ a, x.result = .ok a ∧ o ∈ (f a).trace := by
  cases hx : x.result with
  | error e =>
    rw [bind_of_error f hx]
    exact ⟨Or.inl, fun h => h.resolve_right fun ⟨a, ha, _⟩ => nomatch ha⟩
  | ok a =>
    rw [bind_of_ok f hx]
    constructor
    · intro h
      exact (List.mem_append.mp h).imp_right fun h => ⟨a, rfl, h⟩
    · rintro (h | ⟨a', ha, h⟩)
      · exact List.mem_append_left _ h
      · obtain rfl := Except.ok.inj ha
        exact List.mem_append_right _ h

/-! ## Contracts -/

structure Contract (ω ε : Type) where
  counted : ω → Bool
  allowed : ω → Prop
  failure : ε → Prop

/-- The computation keeps the contract with at most `n` counted events and ends with `P`. -/
structure Meets (C : Contract ω ε) (n : Nat) (x : Traced ω ε α) (P : α → Prop) : Prop where
  count_le : x.trace.countP C.counted ≤ n
  allowed : ∀ o ∈ x.trace, C.allowed o
  failure : ∀ e, x.result = .error e → C.failure e
  ok : ∀ a, x.result = .ok a → P a

namespace Meets

variable {C : Contract ω ε} {m n : Nat} {x y : Traced ω ε α} {f : α → Traced ω ε β}
  {P Q : α → Prop} {R : β → Prop}

theorem pure {a : α} (h : P a) : Meets C n (pure a) P :=
  ⟨Nat.zero_le n, fun _ ho => absurd ho List.not_mem_nil, fun _ he => (nomatch he),
    fun _ ha => Except.ok.inj ha ▸ h⟩

theorem fail {e : ε} (h : C.failure e) : Meets C n (fail e) P :=
  ⟨Nat.zero_le n, fun _ ho => absurd ho List.not_mem_nil, fun _ he => Except.error.inj he ▸ h,
    fun _ ha => nomatch ha⟩

theorem emit {o : ω} {P : Unit → Prop} (ho : C.allowed o) (hP : P ()) : Meets C 1 (emit o) P where
  count_le := List.countP_le_length
  allowed := fun _ ho' => List.mem_singleton.mp ho' ▸ ho
  failure := fun _ he => nomatch he
  ok := fun _ _ => hP

theorem mono (h : Meets C m x P) (hmn : m ≤ n) (hPQ : ∀ a, P a → Q a) : Meets C n x Q :=
  ⟨Nat.le_trans h.count_le hmn, h.allowed, h.failure, fun a ha => hPQ a (h.ok a ha)⟩

theorem imp (h : Meets C n x P) (hPQ : ∀ a, P a → Q a) : Meets C n x Q :=
  h.mono (Nat.le_refl n) hPQ

theorem weaken {C' : Contract ω ε} (h : Meets C n x P) (hcounted : C'.counted = C.counted)
    (hallowed : ∀ o, C.allowed o → C'.allowed o) (hfailure : ∀ e, C.failure e → C'.failure e) :
    Meets C' n x P :=
  ⟨hcounted ▸ h.count_le, fun o ho => hallowed o (h.allowed o ho),
    fun e he => hfailure e (h.failure e he), h.ok⟩

theorem exists_ok (h : Meets C n x P) (hfailure : ∀ e, ¬ C.failure e) :
    ∃ a, x.result = .ok a ∧ P a := by
  cases hresult : x.result with
  | error e => exact absurd (h.failure e hresult) (hfailure e)
  | ok a => exact ⟨a, rfl, h.ok a hresult⟩

theorem result (h : Meets C n x P) : Meets C n x fun a => P a ∧ x.result = .ok a :=
  ⟨h.count_le, h.allowed, h.failure, fun a ha => ⟨h.ok a ha, ha⟩⟩

theorem bind (hx : Meets C m x P) (hf : ∀ a, P a → Meets C n (f a) R) :
    Meets C (m + n) (x >>= f) R := by
  cases hresult : x.result with
  | error e =>
    rw [bind_of_error f hresult]
    exact ⟨Nat.le_trans hx.count_le (Nat.le_add_right m n), hx.allowed,
      fun e' he => hx.failure e' (hresult.trans (congrArg _ (Except.error.inj he))),
      fun _ hb => (nomatch hb)⟩
  | ok a =>
    have hfa := hf a (hx.ok a hresult)
    rw [bind_of_ok f hresult]
    refine ⟨?_, fun o ho => ?_, hfa.failure, hfa.ok⟩
    · rw [List.countP_append]
      exact Nat.add_le_add hx.count_le hfa.count_le
    · exact (List.mem_append.mp ho).elim (hx.allowed o) (hfa.allowed o)

theorem bind_zero (hx : Meets C 0 x P) (hf : ∀ a, P a → Meets C n (f a) R) :
    Meets C n (x >>= f) R := by
  have h := hx.bind hf
  rwa [Nat.zero_add] at h

theorem ite {c : Prop} [Decidable c] (hx : c → Meets C n x P) (hy : ¬ c → Meets C n y P) :
    Meets C n (if c then x else y) P := by
  split
  · exact hx ‹_›
  · exact hy ‹_›

end Meets

end Traced
