import Terracoin.Lib.Checked

/-!
# Undo logs

A list of actions is applied to a state one after the other, every action leaving an undo
record. Reverting takes the records back in the opposite order and reports whether it met
anything unexpected.

`revertAll_clean` lifts "one action is undone by its record" to whole lists, for states that
need only be related by some `R` and under an invariant of the forward run. `revertAll_rel` is
the version for a reversal that is known to have returned, whether or not it was clean, and that
uses records which are only `Q`-related to the ones of the run it undoes.
-/

namespace UndoLog

open Checked

variable {ε S A U : Type}

/-- Apply the actions in order and collect their undo records. -/
def applyAll (apply : S → A → Except ε (S × U)) : S → List A → Except ε (S × List U)
  | s, [] => .ok (s, [])
  | s, a :: as => do
    let (s, u) ← apply s a
    let (s, us) ← applyAll apply s as
    pure (s, u :: us)

/-- Revert the actions, the last one first. The flag tells whether every step was clean. Actions
and records are paired; surplus ones on either side are ignored. -/
def revertAll (revert : S → A → U → Except ε (S × Bool)) :
    S → List A → List U → Except ε (S × Bool)
  | s, a :: as, u :: us => do
    let (s, fClean) ← revertAll revert s as us
    let (s, fClean') ← revert s a u
    pure (s, fClean && fClean')
  | s, _, _ => .ok (s, true)

variable {apply : S → A → Except ε (S × U)} {revert : S → A → U → Except ε (S × Bool)}

theorem applyAll_nil {s : S} {r : S × List U} :
    applyAll apply s [] = .ok r ↔ r = (s, []) := by
  simp [applyAll, eq_comm]

theorem applyAll_cons {s s' : S} {a : A} {as : List A} {us : List U} :
    applyAll apply s (a :: as) = .ok (s', us) ↔
      ∃ s1 u us', apply s a = .ok (s1, u) ∧ applyAll apply s1 as = .ok (s', us') ∧ us = u :: us' := by
  simp only [applyAll, bind_ok, pure_ok, Prod.exists, Prod.mk.injEq]
  constructor
  · rintro ⟨s1, u, h1, s2, us', h2, rfl, rfl⟩
    exact ⟨s1, u, us', h1, h2, rfl⟩
  · rintro ⟨s1, u, us', h1, h2, rfl⟩
    exact ⟨s1, u, h1, s', us', h2, rfl, rfl⟩

theorem revertAll_nil {s s' : S} {us : List U} {b : Bool} :
    revertAll revert s [] us = .ok (s', b) ↔ s = s' ∧ b = true := by
  rw [revertAll, Except.ok.injEq, Prod.mk.injEq, eq_comm (a := true)]
  simp

theorem revertAll_no_records {s s' : S} {as : List A} {b : Bool} :
    revertAll revert s as [] = .ok (s', b) ↔ s = s' ∧ b = true := by
  rw [revertAll, Except.ok.injEq, Prod.mk.injEq, eq_comm (a := true)]
  simp

theorem revertAll_cons {s s' : S} {a : A} {as : List A} {u : U} {us : List U} {b : Bool} :
    revertAll revert s (a :: as) (u :: us) = .ok (s', b) ↔
      ∃ s1 b1 b2, revertAll revert s as us = .ok (s1, b1) ∧ revert s1 a u = .ok (s', b2) ∧
        b = (b1 && b2) := by
  simp only [revertAll, bind_ok, pure_ok, Prod.exists, Prod.mk.injEq]
  constructor
  · rintro ⟨s1, b1, h1, s2, b2, h2, rfl, rfl⟩
    exact ⟨s1, b1, b2, h1, h2, rfl⟩
  · rintro ⟨s1, b1, b2, h1, h2, rfl⟩
    exact ⟨s1, b1, h1, s', b2, h2, rfl, rfl⟩

theorem applyAll_concat {s s1 s' : S} {as : List A} {a : A} {us : List U} {u : U}
    (h : applyAll apply s as = .ok (s1, us)) (ha : apply s1 a = .ok (s', u)) :
    applyAll apply s (as ++ [a]) = .ok (s', us ++ [u]) := by
  induction as generalizing s us with
  | nil =>
    obtain ⟨rfl, rfl⟩ := Prod.mk.inj (applyAll_nil.mp h)
    exact applyAll_cons.mpr ⟨s', u, [], ha, rfl, rfl⟩
  | cons b as ih =>
    obtain ⟨s2, v, us', h1, h2, rfl⟩ := applyAll_cons.mp h
    exact applyAll_cons.mpr ⟨s2, v, us' ++ [u], h1, ih h2, rfl⟩

theorem applyAll_length {s s' : S} {as : List A} {us : List U}
    (h : applyAll apply s as = .ok (s', us)) : us.length = as.length := by
  induction as generalizing s us with
  | nil =>
    obtain ⟨-, rfl⟩ := Prod.mk.inj (applyAll_nil.mp h)
    rfl
  | cons a as ih =>
    obtain ⟨s1, u, us', -, h2, rfl⟩ := applyAll_cons.mp h
    rw [List.length_cons, List.length_cons, ih h2]

theorem applyAll_invariant {P : S → Prop}
    (hstep : ∀ s a s' u, P s → apply s a = .ok (s', u) → P s') {s s' : S} {as : List A}
    {us : List U} (hs : P s) (h : applyAll apply s as = .ok (s', us)) : P s' := by
  induction as generalizing s us with
  | nil =>
    obtain ⟨rfl, -⟩ := Prod.mk.inj (applyAll_nil.mp h)
    exact hs
  | cons a as ih =>
    obtain ⟨s1, u, us', h1, h2, rfl⟩ := applyAll_cons.mp h
    exact ih (hstep _ _ _ _ hs h1) h2

theorem applyAll_records {P : S → Prop} {Q : U → Prop} {s s' : S} {as : List A} {us : List U}
    (hstep : ∀ s, ∀ a ∈ as, ∀ s' u, P s → apply s a = .ok (s', u) → P s' ∧ Q u) (hs : P s)
    (h : applyAll apply s as = .ok (s', us)) : P s' ∧ ∀ u ∈ us, Q u := by
  induction as generalizing s us with
  | nil =>
    obtain ⟨rfl, rfl⟩ := Prod.mk.inj (applyAll_nil.mp h)
    exact ⟨hs, fun u hu => by cases hu⟩
  | cons a as ih =>
    obtain ⟨s1, u, us', h1, h2, rfl⟩ := applyAll_cons.mp h
    obtain ⟨hs1, hu⟩ := hstep s a List.mem_cons_self s1 u hs h1
    obtain ⟨hs', hus⟩ := ih (fun s a ha => hstep s a (List.mem_cons_of_mem _ ha)) hs1 h2
    exact ⟨hs', List.forall_mem_cons.mpr ⟨hu, hus⟩⟩

/-- `P` holds of every action and the state in which it is applied. -/
def Along (apply : S → A → Except ε (S × U)) (P : S → A → Prop) : S → List A → Prop
  | _, [] => True
  | s, a :: as => P s a ∧ ∀ s' u, apply s a = .ok (s', u) → Along apply P s' as

/-- A property of the actions in their states that can be read off the records. -/
theorem along_iff {I : S → Prop} {P : S → A → Prop} {Q : U → Prop} {s s' : S} {as : List A}
    {us : List U}
    (hstep : ∀ s, ∀ a ∈ as, ∀ s' u, I s → apply s a = .ok (s', u) → I s' ∧ (P s a ↔ Q u))
    (hs : I s) (h : applyAll apply s as = .ok (s', us)) :
    Along apply P s as ↔ ∀ u ∈ us, Q u := by
  induction as generalizing s us with
  | nil =>
    obtain ⟨-, rfl⟩ := Prod.mk.inj (applyAll_nil.mp h)
    exact ⟨fun _ u hu => (by cases hu), fun _ => trivial⟩
  | cons a as ih =>
    obtain ⟨s1, u, us', h1, h2, rfl⟩ := applyAll_cons.mp h
    obtain ⟨hs1, hiff⟩ := hstep s a List.mem_cons_self s1 u hs h1
    have hrest := ih (fun s a ha => hstep s a (List.mem_cons_of_mem _ ha)) hs1 h2
    rw [List.forall_mem_cons, ← hiff, ← hrest]
    constructor
    · rintro ⟨hp, hall⟩
      exact ⟨hp, hall s1 u h1⟩
    · rintro ⟨hp, hall⟩
      refine ⟨hp, fun s' u' h1' => ?_⟩
      obtain ⟨rfl, -⟩ := Prod.mk.inj (Except.ok.inj (h1.symm.trans h1'))
      exact hall

theorem revertAll_invariant {P : S → Prop} {Q : U → Prop}
    (hstep : ∀ s a u s' b, Q u → P s → revert s a u = .ok (s', b) → P s') {s s' : S}
    {as : List A} {us : List U} {b : Bool} (hus : ∀ u ∈ us, Q u) (hs : P s)
    (h : revertAll revert s as us = .ok (s', b)) : P s' := by
  induction as generalizing s' us b with
  | nil =>
    exact (revertAll_nil.mp h).1 ▸ hs
  | cons a as ih =>
    cases us with
    | nil =>
      exact (revertAll_no_records.mp h).1 ▸ hs
    | cons u us =>
      obtain ⟨s1, b1, b2, h1, h2, rfl⟩ := revertAll_cons.mp h
      have hs1 := ih (fun u' hu' => hus u' (List.mem_cons_of_mem _ hu')) h1
      exact hstep _ _ _ _ _ (hus u List.mem_cons_self) hs1 h2

/-- A clean reversal is clean at every step, so it preserves what clean steps preserve. -/
theorem revertAll_clean_invariant {P : S → Prop} {s s' : S} {as : List A} {us : List U}
    (hstep : ∀ s, ∀ a ∈ as, ∀ u s', P s → revert s a u = .ok (s', true) → P s') (hs : P s)
    (h : revertAll revert s as us = .ok (s', true)) : P s' := by
  induction as generalizing s' us with
  | nil =>
    exact (revertAll_nil.mp h).1 ▸ hs
  | cons a as ih =>
    cases us with
    | nil =>
      exact (revertAll_no_records.mp h).1 ▸ hs
    | cons u us =>
      obtain ⟨s1, b1, b2, h1, h2, hclean⟩ := revertAll_cons.mp h
      obtain ⟨rfl, rfl⟩ := Bool.and_eq_true_iff.mp hclean.symm
      have hs1 := ih (fun s a ha => hstep s a (List.mem_cons_of_mem _ ha)) h1
      exact hstep s1 a List.mem_cons_self u s' hs1 h2

/-- A run from `w` can be followed from any state `R`-related to `w`, with `Q`-related
records. -/
theorem applyAll_sim {R : S → S → Prop} {Q : U → U → Prop}
    (hstep : ∀ w v a w' u, R w v → apply w a = .ok (w', u) →
      ∃ v' u', apply v a = .ok (v', u') ∧ R w' v' ∧ Q u u')
    {w v w' : S} {as : List A} {us : List U} (hR : R w v)
    (h : applyAll apply w as = .ok (w', us)) :
    ∃ v' us', applyAll apply v as = .ok (v', us') ∧ R w' v' ∧ List.Forall₂ Q us us' := by
  induction as generalizing w v us with
  | nil =>
    obtain ⟨rfl, rfl⟩ := Prod.mk.inj (applyAll_nil.mp h)
    exact ⟨v, [], rfl, hR, .nil⟩
  | cons a as ih =>
    obtain ⟨w1, u, us1, h1, h2, rfl⟩ := applyAll_cons.mp h
    obtain ⟨v1, u', hv1, hR1, hQ1⟩ := hstep _ _ _ _ _ hR h1
    obtain ⟨v', us', hv', hR', hQ'⟩ := ih hR1 h2
    exact ⟨v', u' :: us', applyAll_cons.mpr ⟨v1, u', us', hv1, hv', rfl⟩, hR', .cons hQ1 hQ'⟩

/-- If every action is undone cleanly by its record, up to `R` and as long as the forward run
meets `P`, then so is every list of actions. -/
theorem revertAll_clean {P : S → List A → Prop} {R : S → S → Prop}
    (hnext : ∀ s a as s' u, P s (a :: as) → apply s a = .ok (s', u) → P s' as)
    (hundo : ∀ s a as s' u w, P s (a :: as) → apply s a = .ok (s', u) → R w s' →
      ∃ w', revert w a u = .ok (w', true) ∧ R w' s)
    {s s' w : S} {as : List A} {us : List U} (hP : P s as)
    (h : applyAll apply s as = .ok (s', us)) (hw : R w s') :
    ∃ w', revertAll revert w as us = .ok (w', true) ∧ R w' s := by
  induction as generalizing s us with
  | nil =>
    obtain ⟨rfl, rfl⟩ := Prod.mk.inj (applyAll_nil.mp h)
    exact ⟨w, rfl, hw⟩
  | cons a as ih =>
    obtain ⟨s1, u, us', h1, h2, rfl⟩ := applyAll_cons.mp h
    -- the later actions are reverted first
    obtain ⟨w1, hw1, hR1⟩ := ih (hnext _ _ _ _ _ hP h1) h2
    obtain ⟨w2, hw2, hR2⟩ := hundo _ _ _ _ _ _ hP h1 hR1
    exact ⟨w2, revertAll_cons.mpr ⟨w1, true, true, hw1, hw2, rfl⟩, hR2⟩

/-- A reversal that returned leaves an `R`-related state, for records `Q`-related to the ones of
the run. -/
theorem revertAll_rel {R : S → S → Prop} {Q : U → U → Prop}
    (hundo : ∀ s a s' u u' w w' b, apply s a = .ok (s', u) → Q u' u → R w s' →
      revert w a u' = .ok (w', b) → R w' s)
    {s s' w w' : S} {as : List A} {us us' : List U} {b : Bool}
    (h : applyAll apply s as = .ok (s', us)) (hQ : List.Forall₂ Q us' us) (hw : R w s')
    (hrev : revertAll revert w as us' = .ok (w', b)) : R w' s := by
  induction as generalizing s us us' w' b with
  | nil =>
    obtain ⟨rfl, rfl⟩ := Prod.mk.inj (applyAll_nil.mp h)
    simp only [revertAll, Except.ok.injEq, Prod.mk.injEq] at hrev
    exact hrev.1 ▸ hw
  | cons a as ih =>
    obtain ⟨s1, u, us1, h1, h2, rfl⟩ := applyAll_cons.mp h
    cases hQ with
    | cons hq hQ =>
      obtain ⟨w1, b1, b2, hrev1, hrev2, -⟩ := revertAll_cons.mp hrev
      exact hundo _ _ _ _ _ _ _ _ h1 hq (ih h2 hQ hrev1) hrev2

end UndoLog
