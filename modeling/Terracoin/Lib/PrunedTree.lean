import Mathlib.Data.List.Basic
import Mathlib.Tactic.Ring

/-!
# Pruned binary trees

A binary tree of values that are combined pairwise, of which only the branches down to some
marked leaves are kept. A node without a right half stands for its left half combined with itself.

A tree is written down in preorder as one flag for each node and the values of its ends. Which
nodes have a right half is not written down: it follows from the number of nodes at each height
(`Shaped`), and with that number the flags alone tell where the marked leaves are
(`readPositions_flags`).
-/

inductive PrunedTree (α : Type) where
  /-- A node below which nothing is marked. -/
  | stub (value : α)
  /-- A marked leaf. -/
  | leaf (value : α)
  /-- A node without a right half. -/
  | copied (left : PrunedTree α)
  | node (left right : PrunedTree α)
deriving DecidableEq, Repr

namespace PrunedTree

variable {α : Type}

def root (combine : α → α → α) : PrunedTree α → α
  | stub a => a
  | leaf a => a
  | copied l => combine (l.root combine) (l.root combine)
  | node l r => combine (l.root combine) (r.root combine)

def pairs (combine : α → α → α) : PrunedTree α → List (α × α)
  | stub _ => []
  | leaf _ => []
  | copied l => (l.root combine, l.root combine) :: l.pairs combine
  | node l r => (l.root combine, r.root combine) :: (l.pairs combine ++ r.pairs combine)

/-- The values of the marked leaves, from left to right. -/
def marked : PrunedTree α → List α
  | stub _ => []
  | leaf a => [a]
  | copied l => l.marked
  | node l r => l.marked ++ r.marked

/-- The positions of the marked leaves below the node at `pos`. -/
def positions : Nat → PrunedTree α → List Nat
  | _, stub _ => []
  | pos, leaf _ => [pos]
  | pos, copied l => l.positions (pos * 2)
  | pos, node l r => l.positions (pos * 2) ++ r.positions (pos * 2 + 1)

/-- Whether something is marked below, for each node in preorder. -/
def flags : PrunedTree α → List Bool
  | stub _ => [false]
  | leaf _ => [true]
  | copied l => true :: l.flags
  | node l r => true :: (l.flags ++ r.flags)

def values : PrunedTree α → List α
  | stub a => [a]
  | leaf a => [a]
  | copied l => l.values
  | node l r => l.values ++ r.values

/-- The number of nodes without a right half. -/
def singles : PrunedTree α → Nat
  | stub _ => 0
  | leaf _ => 0
  | copied l => l.singles + 1
  | node l r => l.singles + r.singles

/-- Only branches down to a marked leaf are kept. -/
def Pruned : PrunedTree α → Prop
  | stub _ => True
  | leaf _ => True
  | copied l => 0 < l.marked.length ∧ l.Pruned
  | node l r => 0 < l.marked.length + r.marked.length ∧ l.Pruned ∧ r.Pruned

theorem values_pos (t : PrunedTree α) : 0 < t.values.length := by
  induction t with
  | stub a => exact Nat.one_pos
  | leaf a => exact Nat.one_pos
  | copied l ih => exact ih
  | node l r ihl ihr =>
    rw [values, List.length_append]
    omega

theorem values_le_flags (t : PrunedTree α) : t.values.length ≤ t.flags.length := by
  induction t with
  | stub a => exact le_refl 1
  | leaf a => exact le_refl 1
  | copied l ih =>
    rw [values, flags, List.length_cons]
    omega
  | node l r ihl ihr =>
    rw [values, flags, List.length_cons, List.length_append, List.length_append]
    omega

theorem length_positions (t : PrunedTree α) (pos : Nat) :
    (t.positions pos).length = t.marked.length := by
  induction t generalizing pos with
  | stub a => rfl
  | leaf a => rfl
  | copied l ih => exact ih _
  | node l r ihl ihr =>
    rw [positions, marked, List.length_append, List.length_append, ihl, ihr]

theorem length_flags (t : PrunedTree α) :
    t.flags.length + 1 = 2 * t.values.length + t.singles := by
  induction t with
  | stub a => rfl
  | leaf a => rfl
  | copied l ih =>
    rw [flags, values, singles, List.length_cons]
    omega
  | node l r ihl ihr =>
    rw [flags, values, singles, List.length_cons, List.length_append, List.length_append]
    omega

/-- The tree below the node at `pos` of height `height`, when there are `width h` nodes at each
height `h`. -/
inductive Shaped (width : Nat → Nat) : Nat → Nat → PrunedTree α → Prop
  | stub {height pos : Nat} (a : α) : Shaped width height pos (.stub a)
  | leaf {pos : Nat} (a : α) : Shaped width 0 pos (.leaf a)
  | copied {height pos : Nat} {l : PrunedTree α} : width height ≤ pos * 2 + 1 →
      Shaped width height (pos * 2) l → Shaped width (height + 1) pos (.copied l)
  | node {height pos : Nat} {l r : PrunedTree α} : pos * 2 + 1 < width height →
      Shaped width height (pos * 2) l → Shaped width height (pos * 2 + 1) r →
      Shaped width (height + 1) pos (.node l r)

section

variable {width : Nat → Nat} {height pos : Nat} {t : PrunedTree α}

/-- Every end has a branch to itself, no longer than the tree is high. -/
theorem Shaped.flags_le (h : Shaped width height pos t) :
    t.flags.length ≤ t.values.length * (height + 1) := by
  induction h with
  | stub a => simp [flags, values]
  | leaf a => simp [flags, values]
  | @copied height pos l hw hl ih =>
    have hpos := l.values_pos
    rw [flags, values, List.length_cons, Nat.mul_succ]
    omega
  | @node height pos l r hw hl hr ihl ihr =>
    have hpos := l.values_pos
    rw [flags, values, List.length_cons, List.length_append, List.length_append,
      Nat.mul_succ, Nat.add_mul]
    omega

theorem Shaped.position_div (h : Shaped width height pos t) {p : Nat} (hp : p ∈ t.positions pos) :
    p / 2 ^ height = pos := by
  induction h with
  | stub a => cases hp
  | leaf a => rw [List.mem_singleton.mp hp, pow_zero, Nat.div_one]
  | copied hw hl ih =>
    rw [pow_succ, ← Nat.div_div_eq_div_mul, ih hp]
    omega
  | node hw hl hr ihl ihr =>
    rw [pow_succ, ← Nat.div_div_eq_div_mul]
    rcases List.mem_append.mp hp with hp | hp
    · rw [ihl hp]
      omega
    · rw [ihr hp]
      omega

/-- There are no more ends than leaves below the node. -/
theorem Shaped.values_le {n : Nat} (h : Shaped width height pos t)
    (hwidth : ∀ j ≤ height, ∀ p, p < width j ↔ p * 2 ^ j < n) (hpos : pos < width height) :
    t.values.length + pos * 2 ^ height ≤ n ∧ t.values.length ≤ 2 ^ height := by
  induction h with
  | @stub height pos a =>
    have hn := (hwidth height (le_refl _) pos).mp hpos
    refine ⟨?_, Nat.one_le_two_pow⟩
    change 1 + pos * 2 ^ height ≤ n
    omega
  | @leaf pos a =>
    have hn := (hwidth 0 (le_refl _) pos).mp hpos
    refine ⟨?_, le_refl 1⟩
    change 1 + pos * 2 ^ 0 ≤ n
    omega
  | @copied height pos l hw hl ih =>
    have hpow : pos * 2 ^ (height + 1) = pos * 2 * 2 ^ height := by ring
    have hleft : pos * 2 < width height := by
      rw [hwidth height (Nat.le_succ _), ← hpow]
      exact (hwidth _ (le_refl _) _).mp hpos
    obtain ⟨h1, h2⟩ := ih (fun j hj => hwidth j (Nat.le_succ_of_le hj)) hleft
    rw [values, hpow]
    refine ⟨h1, h2.trans ?_⟩
    exact Nat.pow_le_pow_right (by omega) (by omega)
  | @node height pos l r hw hl hr ihl ihr =>
    have hpow : pos * 2 ^ (height + 1) = pos * 2 * 2 ^ height := by ring
    have hnext : (pos * 2 + 1) * 2 ^ height = pos * 2 * 2 ^ height + 2 ^ height := by ring
    obtain ⟨-, h2⟩ := ihl (fun j hj => hwidth j (Nat.le_succ_of_le hj)) (by omega)
    obtain ⟨h3, h4⟩ := ihr (fun j hj => hwidth j (Nat.le_succ_of_le hj)) hw
    rw [values, List.length_append, hpow]
    rw [hnext] at h3
    refine ⟨by omega, ?_⟩
    rw [pow_succ]
    omega

/-- Every marked leaf leaves at most one end at each height behind. -/
theorem Shaped.values_le_marked (h : Shaped width height pos t) (hp : t.Pruned) :
    t.values.length ≤ 1 + t.marked.length * height := by
  induction h with
  | stub a => simp [values, marked]
  | leaf a => simp [values, marked]
  | copied hw hl ih =>
    have hle := ih hp.2
    rw [values, marked, Nat.mul_succ]
    omega
  | node hw hl hr ihl ihr =>
    have hlel := ihl hp.2.1
    have hler := ihr hp.2.2
    have hpos := hp.1
    rw [values, marked, List.length_append, List.length_append, Nat.mul_succ, Nat.add_mul]
    omega

/-- Every kept node has a right half exactly if the branches to the marked leaves do not meet a
last node that has none. -/
theorem Shaped.singles_eq_zero_iff (h : Shaped width height pos t) (hp : t.Pruned) :
    t.singles = 0 ↔
      ∀ p ∈ t.positions pos, ∀ j < height, p / 2 ^ (j + 1) * 2 + 1 < width j := by
  induction h with
  | stub a => simp [singles, positions]
  | leaf a => simp [singles]
  | @copied height pos l hw hl ih =>
    refine ⟨fun hs => absurd hs (Nat.succ_ne_zero _), fun hall => ?_⟩
    -- the marked leaf below the node that has no right half
    obtain ⟨p, hmem⟩ := List.exists_mem_of_length_pos ((l.length_positions (pos * 2)).symm ▸ hp.1)
    have hlt := hall p hmem height (Nat.lt_succ_self height)
    rw [Shaped.position_div (.copied hw hl) hmem] at hlt
    omega
  | @node height pos l r hw hl hr ihl ihr =>
    rw [singles, Nat.add_eq_zero_iff, ihl hp.2.1, ihr hp.2.2, positions, List.forall_mem_append]
    have hdiv : ∀ p ∈ l.positions (pos * 2) ++ r.positions (pos * 2 + 1),
        p / 2 ^ (height + 1) = pos := fun p hmem => Shaped.position_div (.node hw hl hr) hmem
    have hstep : ∀ ps ⊆ l.positions (pos * 2) ++ r.positions (pos * 2 + 1),
        (∀ p ∈ ps, ∀ j < height, p / 2 ^ (j + 1) * 2 + 1 < width j) ↔
          ∀ p ∈ ps, ∀ j < height + 1, p / 2 ^ (j + 1) * 2 + 1 < width j := by
      intro ps hps
      refine ⟨fun hall p hmem j hj => ?_, fun hall p hmem j hj => hall p hmem j (by omega)⟩
      rcases Nat.lt_succ_iff_lt_or_eq.mp hj with hj | rfl
      · exact hall p hmem j hj
      · rw [hdiv p (hps hmem)]
        exact hw
    rw [hstep _ (List.subset_append_left _ _), hstep _ (List.subset_append_right _ _)]

end

/-- The positions of the marked leaves, read off the flags alone. The second part is what is left
of the flags. -/
def readPositions (width : Nat → Nat) : Nat → Nat → List Bool → List Nat × List Bool
  | _, _, [] => ([], [])
  | 0, pos, flag :: rest => (if flag then [pos] else [], rest)
  | _ + 1, _, false :: rest => ([], rest)
  | height + 1, pos, true :: rest =>
    let (ls, rest) := readPositions width height (pos * 2) rest
    if pos * 2 + 1 < width height then
      let (rs, rest) := readPositions width height (pos * 2 + 1) rest
      (ls ++ rs, rest)
    else (ls, rest)

theorem readPositions_flags {width : Nat → Nat} {height pos : Nat} {t : PrunedTree α}
    (h : Shaped width height pos t) (rest : List Bool) :
    readPositions width height pos (t.flags ++ rest) = (t.positions pos, rest) := by
  induction h generalizing rest with
  | @stub height pos a =>
    cases height <;> rfl
  | leaf a => rfl
  | @copied height pos l hw hl ih =>
    rw [flags, List.cons_append, readPositions, ih]
    dsimp only
    rw [if_neg (by omega)]
    rfl
  | @node height pos l r hw hl hr ihl ihr =>
    rw [flags, List.cons_append, List.append_assoc, readPositions, ihl]
    dsimp only
    rw [if_pos hw, ihr]
    rfl

end PrunedTree
