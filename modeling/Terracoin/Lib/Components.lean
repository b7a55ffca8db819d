import Mathlib.Data.Finset.Basic
import Mathlib.Logic.Relation

/-!
# Groups that overlap

Two elements are connected if they are in one group, or in groups that overlap, directly or through
others. A family of sets has the components of some groups. With one group more, the components that
it hits are merged with it, and the others stay (`Components.merge`).
-/

namespace Overlap

open Relation

variable {α : Type} {groups : List (Finset α)} {a b c : α}

def Shares (groups : List (Finset α)) (a b : α) : Prop := ∃ g ∈ groups, a ∈ g ∧ b ∈ g

def Linked (groups : List (Finset α)) : α → α → Prop := ReflTransGen (Shares groups)

theorem Shares.symm (h : Shares groups a b) : Shares groups b a := by
  obtain ⟨g, hg, ha, hb⟩ := h
  exact ⟨g, hg, hb, ha⟩

theorem Linked.symm (h : Linked groups a b) : Linked groups b a := by
  induction h with
  | refl => exact .refl
  | tail _ hstep ih => exact .trans (.single hstep.symm) ih

theorem Linked.mono {groups' : List (Finset α)} (hsub : ∀ g ∈ groups, g ∈ groups')
    (h : Linked groups a b) : Linked groups' a b :=
  ReflTransGen.mono (fun _ _ ⟨g, hg, hab⟩ => ⟨g, hsub g hg, hab⟩) _ _ h

/-- The sets are the classes of connected elements of the groups. -/
structure Components (groups : List (Finset α)) (sets : Finset α → Prop) : Prop where
  cover : ∀ a, (∃ g ∈ groups, a ∈ g) ↔ ∃ s, sets s ∧ a ∈ s
  connected : ∀ s, sets s → ∀ a ∈ s, ∀ b, b ∈ s ↔ Linked groups a b
  nonempty : ∀ s, sets s → s.Nonempty

variable {sets : Finset α → Prop}

theorem components_nil : Components ([] : List (Finset α)) fun _ => False where
  cover a := by simp
  connected s h := h.elim
  nonempty s h := h.elim

theorem Components.eq_of_mem (h : Components groups sets) {s s' : Finset α} (hs : sets s)
    (hs' : sets s') (ha : a ∈ s) (ha' : a ∈ s') : s = s' := by
  ext b
  rw [h.connected s hs a ha b, h.connected s' hs' a ha' b]

theorem Components.connected_of_not_hit (h : Components groups sets) {g s : Finset α} (hs : sets s)
    (hnot : ∀ x ∈ s, x ∉ g) (ha : a ∈ s) : b ∈ s ↔ Linked (g :: groups) a b := by
  constructor
  · intro hb
    exact ((h.connected s hs a ha b).mp hb).mono fun _ => List.mem_cons_of_mem g
  · intro hconnected
    induction hconnected with
    | refl => exact ha
    | @tail b c _ hstep ih =>
      obtain ⟨g', hg', hb, hc⟩ := hstep
      rcases List.mem_cons.mp hg' with rfl | hg'
      · exact absurd hb (hnot b ih)
      · exact (h.connected s hs b ih c).mpr (.single ⟨g', hg', hb, hc⟩)

/-- The group with the sets that it hits is a class. -/
theorem Components.connected_merged (h : Components groups sets) {g m : Finset α}
    (hm : ∀ x, x ∈ m ↔ x ∈ g ∨ ∃ s, sets s ∧ (∃ y ∈ s, y ∈ g) ∧ x ∈ s) (ha : a ∈ m) :
    b ∈ m ↔ Linked (g :: groups) a b := by
  have hold : ∀ {x y}, Linked groups x y → Linked (g :: groups) x y :=
    fun hxy => hxy.mono fun _ => List.mem_cons_of_mem g
  have hnew : ∀ {x y}, x ∈ g → y ∈ g → Linked (g :: groups) x y :=
    fun hx hy => .single ⟨g, List.mem_cons_self, hx, hy⟩
  -- Everything that is merged is connected to something in the group
  have hreach : ∀ x ∈ m, ∃ y ∈ g, Linked (g :: groups) x y := by
    intro x hx
    rcases (hm x).mp hx with hx | ⟨s, hs, ⟨y, hy, hyg⟩, hx⟩
    · exact ⟨x, hx, .refl⟩
    · exact ⟨y, hyg, hold ((h.connected s hs x hx y).mp hy)⟩
  constructor
  · intro hb
    obtain ⟨x, hx, hax⟩ := hreach a ha
    obtain ⟨y, hy, hby⟩ := hreach b hb
    exact (hax.trans (hnew hx hy)).trans hby.symm
  · intro hconnected
    induction hconnected with
    | refl => exact ha
    | @tail b c _ hstep ih =>
      obtain ⟨g', hg', hb, hc⟩ := hstep
      rcases List.mem_cons.mp hg' with rfl | hg'
      · exact (hm c).mpr (.inl hc)
      · obtain ⟨s, hs, hbs⟩ := (h.cover b).mp ⟨g', hg', hb⟩
        have hcs := (h.connected s hs b hbs c).mpr (.single ⟨g', hg', hb, hc⟩)
        rcases (hm b).mp ih with hbg | ⟨s', hs', hhit, hbs'⟩
        · exact (hm c).mpr (.inr ⟨s, hs, ⟨b, hbs, hbg⟩, hcs⟩)
        · rw [h.eq_of_mem hs hs' hbs hbs'] at hcs
          exact (hm c).mpr (.inr ⟨s', hs', hhit, hcs⟩)

/-- One group more: the sets that it hits are merged with it. -/
theorem Components.merge (h : Components groups sets) {g m : Finset α} (hg : g.Nonempty)
    (hm : ∀ x, x ∈ m ↔ x ∈ g ∨ ∃ s, sets s ∧ (∃ y ∈ s, y ∈ g) ∧ x ∈ s) :
    Components (g :: groups) fun s => s = m ∨ sets s ∧ ∀ x ∈ s, x ∉ g where
  cover a := by
    constructor
    · rintro ⟨g', hg', ha⟩
      rcases List.mem_cons.mp hg' with rfl | hg'
      · exact ⟨m, .inl rfl, (hm a).mpr (.inl ha)⟩
      · obtain ⟨s, hs, has⟩ := (h.cover a).mp ⟨g', hg', ha⟩
        by_cases hhit : ∃ y ∈ s, y ∈ g
        · exact ⟨m, .inl rfl, (hm a).mpr (.inr ⟨s, hs, hhit, has⟩)⟩
        · exact ⟨s, .inr ⟨hs, fun x hx hxg => hhit ⟨x, hx, hxg⟩⟩, has⟩
    · have hcover : (∃ s, sets s ∧ a ∈ s) → ∃ g' ∈ g :: groups, a ∈ g' := by
        intro hs
        obtain ⟨g', hg', ha⟩ := (h.cover a).mpr hs
        exact ⟨g', List.mem_cons_of_mem g hg', ha⟩
      rintro ⟨s, rfl | ⟨hs, -⟩, ha⟩
      · rcases (hm a).mp ha with ha | ⟨s', hs', -, ha⟩
        · exact ⟨g, List.mem_cons_self, ha⟩
        · exact hcover ⟨s', hs', ha⟩
      · exact hcover ⟨s, hs, ha⟩
  connected s hs a ha b := by
    rcases hs with rfl | ⟨hs, hnot⟩
    · exact h.connected_merged hm ha
    · exact h.connected_of_not_hit hs hnot ha
  nonempty s hs := by
    rcases hs with rfl | ⟨hs, -⟩
    · obtain ⟨x, hx⟩ := hg
      exact ⟨x, (hm x).mpr (.inl hx)⟩
    · exact h.nonempty s hs

end Overlap
