import Mathlib.Logic.Basic

/-!
# Runs

A run applies operations one after the other to a state. An operation may be impossible in a
state, and then so is the run. `run_invariant` and `run_sim` lift what one step preserves to whole
runs.
-/

namespace Run

variable {S T O : Type}

def run (step : S → O → Option S) : S → List O → Option S
  | s, [] => some s
  | s, o :: os => (step s o).bind fun s => run step s os

variable {step : S → O → Option S} {step' : T → O → Option T}

theorem run_cons {s s' : S} {o : O} {os : List O} :
    run step s (o :: os) = some s' ↔ ∃ s1, step s o = some s1 ∧ run step s1 os = some s' := by
  rw [run, Option.bind_eq_some_iff]

theorem run_append {s : S} {os os' : List O} :
    run step s (os ++ os') = (run step s os).bind fun s' => run step s' os' := by
  induction os generalizing s with
  | nil => rfl
  | cons o os ih =>
    rw [List.cons_append, run, run, Option.bind_assoc]
    exact Option.bind_congr fun s1 _ => ih

theorem run_invariant {P : S → Prop} {s s' : S} {os : List O}
    (hstep : ∀ s, ∀ o ∈ os, ∀ s', P s → step s o = some s' → P s') (hs : P s)
    (h : run step s os = some s') : P s' := by
  induction os generalizing s with
  | nil => exact Option.some.inj h ▸ hs
  | cons o os ih =>
    obtain ⟨s1, h1, h2⟩ := run_cons.mp h
    exact ih (fun s o ho => hstep s o (List.mem_cons_of_mem _ ho))
      (hstep s o List.mem_cons_self s1 hs h1) h2

theorem run_total {P : S → Prop} {s : S} {os : List O}
    (hstep : ∀ s, ∀ o ∈ os, P s → ∃ s', step s o = some s' ∧ P s') (hs : P s) :
    ∃ s', run step s os = some s' ∧ P s' := by
  induction os generalizing s with
  | nil => exact ⟨s, rfl, hs⟩
  | cons o os ih =>
    obtain ⟨s1, h1, hs1⟩ := hstep s o List.mem_cons_self hs
    obtain ⟨s', h', hs'⟩ := ih (fun s o ho => hstep s o (List.mem_cons_of_mem _ ho)) hs1
    exact ⟨s', run_cons.mpr ⟨s1, h1, h'⟩, hs'⟩

theorem foldlM_eq_run (step : S → O → Option S) (s : S) (os : List O) :
    os.foldlM step s = run step s os := by
  induction os generalizing s with
  | nil => rfl
  | cons o os ih =>
    rw [List.foldlM_cons, run]
    exact Option.bind_congr fun s1 _ => ih s1

/-- Every operation of the run meets a condition in the state it is applied to. -/
def Meets (C : S → O → Prop) (step : S → O → Option S) : S → List O → Prop
  | _, [] => True
  | s, o :: os => C s o ∧ ∀ s', step s o = some s' → Meets C step s' os

def decidableMeets {C : S → O → Prop} [∀ s o, Decidable (C s o)] (step : S → O → Option S) :
    ∀ (s : S) (os : List O), Decidable (Meets C step s os)
  | _, [] => .isTrue trivial
  | s, o :: os =>
    match h : step s o with
    | none => decidable_of_iff (C s o) (by simp [Meets, h])
    | some s1 =>
      have : Decidable (Meets C step s1 os) := decidableMeets step s1 os
      decidable_of_iff (C s o ∧ Meets C step s1 os) (by simp [Meets, h])

instance {C : S → O → Prop} [∀ s o, Decidable (C s o)] (s : S) (os : List O) :
    Decidable (Meets C step s os) := decidableMeets step s os

theorem run_invariant_of_meets {C : S → O → Prop} {P : S → Prop} {s s' : S} {os : List O}
    (hstep : ∀ s o s', C s o → P s → step s o = some s' → P s') (hmeets : Meets C step s os)
    (hs : P s) (h : run step s os = some s') : P s' := by
  induction os generalizing s with
  | nil => exact Option.some.inj h ▸ hs
  | cons o os ih =>
    obtain ⟨s1, h1, h2⟩ := run_cons.mp h
    exact ih (hmeets.2 s1 h1) (hstep s o s1 hmeets.1 hs h1) h2

/-- If every operation that meets the condition is possible in a state with the invariant and keeps it,
so is the run. -/
theorem run_total_of_meets {C : S → O → Prop} {P : S → Prop} {s : S} {os : List O}
    (hstep : ∀ s, ∀ o ∈ os, C s o → P s → ∃ s', step s o = some s' ∧ P s')
    (hmeets : Meets C step s os) (hs : P s) : ∃ s', run step s os = some s' ∧ P s' := by
  induction os generalizing s with
  | nil => exact ⟨s, rfl, hs⟩
  | cons o os ih =>
    obtain ⟨s1, h1, hs1⟩ := hstep s o List.mem_cons_self hmeets.1 hs
    obtain ⟨s', h', hs'⟩ :=
      ih (fun s o ho => hstep s o (List.mem_cons_of_mem _ ho)) (hmeets.2 s1 h1) hs1
    exact ⟨s', run_cons.mpr ⟨s1, h1, h'⟩, hs'⟩

theorem meets_of_run {C : S → O → Prop} {s s' : S} {os : List O}
    (hstep : ∀ s o s', step s o = some s' → C s o) (h : run step s os = some s') :
    Meets C step s os := by
  induction os generalizing s with
  | nil => trivial
  | cons o os ih =>
    obtain ⟨s1, h1, h2⟩ := run_cons.mp h
    refine ⟨hstep s o s1 h1, fun s1' h1' => ?_⟩
    obtain rfl := Option.some.inj (h1.symm.trans h1')
    exact ih h2

/-- Every state the run goes through has a property. -/
def Throughout (P : S → Prop) (step : S → O → Option S) : S → List O → Prop
  | s, [] => P s
  | s, o :: os => P s ∧ ∀ s', step s o = some s' → Throughout P step s' os

theorem throughout_of_invariant {I P : S → Prop} {s : S} {os : List O}
    (hI : ∀ s o s', I s → step s o = some s' → I s') (hP : ∀ s, I s → P s) (hs : I s) :
    Throughout P step s os := by
  induction os generalizing s with
  | nil => exact hP s hs
  | cons o os ih => exact ⟨hP s hs, fun s' h => ih (hI s o s' hs h)⟩

/-- A property that a step keeps exactly under a condition holds throughout a run exactly if every
step meets the condition. -/
theorem throughout_iff_meets {I P : S → Prop} {C : S → O → Prop} {s s' : S} {os : List O}
    (hI : ∀ s o s', I s → step s o = some s' → I s')
    (hP : ∀ s o s', I s → P s → step s o = some s' → (P s' ↔ C s o)) (hsI : I s) (hsP : P s)
    (h : run step s os = some s') : Throughout P step s os ↔ Meets C step s os := by
  induction os generalizing s with
  | nil => exact ⟨fun _ => trivial, fun _ => hsP⟩
  | cons o os ih =>
    obtain ⟨s1, h1, h2⟩ := run_cons.mp h
    have hnext := fun hsP1 => ih (hI s o s1 hsI h1) hsP1 h2
    constructor
    · rintro ⟨-, hall⟩
      have hrest := hall s1 h1
      have hs1 : P s1 := by
        cases os with
        | nil => exact hrest
        | cons o' os => exact hrest.1
      refine ⟨(hP s o s1 hsI hsP h1).mp hs1, fun s1' h1' => ?_⟩
      obtain rfl := Option.some.inj (h1.symm.trans h1')
      exact (hnext hs1).mp hrest
    · rintro ⟨hC, hall⟩
      refine ⟨hsP, fun s1' h1' => ?_⟩
      obtain rfl := Option.some.inj (h1.symm.trans h1')
      exact (hnext ((hP s o s1 hsI hsP h1).mpr hC)).mpr (hall s1 h1)

/-- A property holds throughout a run exactly if every step meets a condition, when the steps that
meet it keep an invariant and the first one that does not loses the property. -/
theorem throughout_iff_meets_of_breaks {J P : S → Prop} {C : S → O → Prop} {s s' : S} {os : List O}
    (hJP : ∀ s, J s → P s) (hkeep : ∀ s o s', J s → step s o = some s' → C s o → J s')
    (hbreak : ∀ s o s', J s → step s o = some s' → P s' → C s o) (hs : J s)
    (h : run step s os = some s') : Throughout P step s os ↔ Meets C step s os := by
  induction os generalizing s with
  | nil => exact ⟨fun _ => trivial, fun _ => hJP s hs⟩
  | cons o os ih =>
    obtain ⟨s1, h1, h2⟩ := run_cons.mp h
    constructor
    · rintro ⟨-, hall⟩
      have hrest := hall s1 h1
      have hs1 : P s1 := by
        cases os with
        | nil => exact hrest
        | cons o' os => exact hrest.1
      have hC := hbreak s o s1 hs h1 hs1
      refine ⟨hC, fun s1' h1' => ?_⟩
      obtain rfl := Option.some.inj (h1.symm.trans h1')
      exact (ih (hkeep s o s1 hs h1 hC) h2).mp hrest
    · rintro ⟨hC, hall⟩
      refine ⟨hJP s hs, fun s1' h1' => ?_⟩
      obtain rfl := Option.some.inj (h1.symm.trans h1')
      exact (ih (hkeep s o s1 hs h1 hC) h2).mpr (hall s1 h1)

theorem run_sim {R : S → T → Prop} {s s' : S} {t t' : T} {os : List O}
    (hstep : ∀ s t, ∀ o ∈ os, ∀ s' t', R s t → step s o = some s' → step' t o = some t' → R s' t')
    (hR : R s t) (h : run step s os = some s') (h' : run step' t os = some t') : R s' t' := by
  induction os generalizing s t with
  | nil => exact Option.some.inj h ▸ Option.some.inj h' ▸ hR
  | cons o os ih =>
    obtain ⟨s1, h1, h2⟩ := run_cons.mp h
    obtain ⟨t1, h1', h2'⟩ := run_cons.mp h'
    exact ih (fun s t o ho => hstep s t o (List.mem_cons_of_mem _ ho))
      (hstep s t o List.mem_cons_self s1 t1 hR h1 h1') h2 h2'

end Run
