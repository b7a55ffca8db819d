import Terracoin.Primitives.Block

/-!
# Chains in the block tree

`chain` lists an entry and its ancestors, and `a ∈ p.chain` says that `a` is `p` or an ancestor of
`p`. Such an `a` is determined by its height, so two chains agree from their last common entry
down. That entry is what the fork search of `SetBestChain` looks for (`findFork_spec`), and
`pathTo` is what its two `for` loops collect on the way down to it.
-/

namespace Terracoin

namespace CBlockIndex

/-- The entry, its predecessor, and so on down to the root. -/
def chain : CBlockIndex → List CBlockIndex
  | root h => [root h]
  | child p h => child p h :: p.chain

def base : CBlockIndex → CBlockIndex
  | root h => root h
  | child p _ => p.base

/-- The chain of a pointer that may be `NULL`. -/
def chainOf (tip : Option CBlockIndex) : List CBlockIndex := tip.elim [] chain

variable {a b c p q : CBlockIndex}

/-! ## Ancestors -/

@[simp] theorem self_mem_chain : p ∈ p.chain := by
  cases p <;> simp [chain]

theorem mem_chain_child {h : CBlockHeader} : a ∈ (child p h).chain ↔ a = child p h ∨ a ∈ p.chain :=
  List.mem_cons

theorem mem_chain_iff : a ∈ p.chain ↔ a = p ∨ ∃ q, p.pprev = some q ∧ a ∈ q.chain := by
  cases p with
  | root h => simp [chain, pprev]
  | child p h => simp [chain, pprev]

theorem mem_chain_of_pprev (h : p.pprev = some q) : q ∈ p.chain :=
  mem_chain_iff.mpr (.inr ⟨q, h, self_mem_chain⟩)

theorem mem_chain_trans (hab : a ∈ b.chain) (hbc : b ∈ c.chain) : a ∈ c.chain := by
  induction c with
  | root h =>
    obtain rfl : b = root h := by simpa [chain] using hbc
    exact hab
  | child p h ih =>
    rcases mem_chain_child.mp hbc with rfl | hb
    · exact hab
    · exact mem_chain_child.mpr (.inr (ih hb))

theorem nHeight_le_of_mem_chain (h : a ∈ p.chain) : a.nHeight ≤ p.nHeight := by
  induction p with
  | root h' =>
    obtain rfl : a = root h' := by simpa [chain] using h
    exact le_refl _
  | child p h' ih =>
    rcases mem_chain_child.mp h with rfl | h
    · exact le_refl _
    · have := ih h
      simp only [nHeight]
      omega

theorem bnChainWork_le_of_mem_chain (h : a ∈ p.chain) : a.bnChainWork ≤ p.bnChainWork := by
  induction p with
  | root h' =>
    obtain rfl : a = root h' := by simpa [chain] using h
    exact le_refl _
  | child p h' ih =>
    rcases mem_chain_child.mp h with rfl | h
    · exact le_refl _
    · exact (ih h).trans (bnChainWork_le_of_pprev rfl)

/-- On a chain the height determines the entry, and a lower entry is an ancestor of a higher one. -/
theorem mem_chain_of_nHeight_le (ha : a ∈ p.chain) (hb : b ∈ p.chain) (h : a.nHeight ≤ b.nHeight) :
    a ∈ b.chain := by
  induction p with
  | root h' =>
    obtain rfl : b = root h' := by simpa [chain] using hb
    exact ha
  | child p h' ih =>
    rcases mem_chain_child.mp hb with rfl | hb
    · exact ha
    · rcases mem_chain_child.mp ha with rfl | ha
      · have := nHeight_le_of_mem_chain hb
        simp only [nHeight] at h
        omega
      · exact ih ha hb

theorem eq_of_mem_chain (h : a ∈ p.chain) (hh : p.nHeight ≤ a.nHeight) : a = p := by
  cases p with
  | root h' => simpa [chain] using h
  | child p h' =>
    rcases mem_chain_child.mp h with rfl | h
    · rfl
    · have := nHeight_le_of_mem_chain h
      simp only [nHeight] at hh
      omega

theorem eq_of_nHeight_eq (ha : a ∈ p.chain) (hb : b ∈ p.chain) (h : a.nHeight = b.nHeight) :
    a = b :=
  eq_of_mem_chain (mem_chain_of_nHeight_le ha hb (le_of_eq h)) (le_of_eq h.symm)

theorem exists_mem_chain {n : Nat} (h : n ≤ p.nHeight) : ∃ a ∈ p.chain, a.nHeight = n := by
  induction p with
  | root h' => exact ⟨root h', self_mem_chain, by simp only [nHeight] at h ⊢; omega⟩
  | child p h' ih =>
    rcases Nat.lt_or_eq_of_le h with hlt | rfl
    · obtain ⟨a, ha, hn⟩ := ih (by simp only [nHeight] at hlt; omega)
      exact ⟨a, mem_chain_child.mpr (.inr ha), hn⟩
    · exact ⟨_, self_mem_chain, rfl⟩

theorem exists_next (h : a ∈ p.chain) (hne : a ≠ p) : ∃ b ∈ p.chain, b.pprev = some a := by
  have hle := nHeight_le_of_mem_chain h
  have hlt : a.nHeight < p.nHeight :=
    lt_of_le_of_ne hle fun heq => hne (eq_of_mem_chain h (le_of_eq heq.symm))
  obtain ⟨b, hb, hn⟩ := exists_mem_chain (p := p) (n := a.nHeight + 1) hlt
  cases b with
  | root h' => simp [nHeight] at hn
  | child q h' =>
    have hq : q ∈ p.chain := mem_chain_trans (mem_chain_of_pprev rfl) hb
    have hqa : q.nHeight = a.nHeight := by simpa [nHeight] using hn
    exact ⟨_, hb, by rw [pprev, eq_of_nHeight_eq hq h hqa]⟩

theorem next_unique (hb : b ∈ p.chain) (hc : c ∈ p.chain) (h : b.pprev = some a)
    (h' : c.pprev = some a) : b = c :=
  eq_of_nHeight_eq hb hc (by rw [nHeight_of_pprev h, nHeight_of_pprev h'])

@[simp] theorem chainOf_none : chainOf none = [] := rfl

@[simp] theorem chainOf_some : chainOf (some p) = p.chain := rfl

theorem mem_chainOf {tip : Option CBlockIndex} : a ∈ chainOf tip ↔ ∃ p, tip = some p ∧ a ∈ p.chain := by
  cases tip <;> simp

theorem base_mem_chain : p.base ∈ p.chain := by
  induction p with
  | root h => exact self_mem_chain
  | child p h ih => exact mem_chain_child.mpr (.inr ih)

theorem base_pprev : p.base.pprev = none := by
  induction p with
  | root h => rfl
  | child p h ih => exact ih

theorem base_nHeight : p.base.nHeight = 0 := pprev_eq_none.mp base_pprev

theorem base_of_mem_chain (h : a ∈ p.chain) : a.base = p.base := by
  have ha : a.base ∈ p.chain := mem_chain_trans base_mem_chain h
  exact eq_of_nHeight_eq ha base_mem_chain (by rw [base_nHeight, base_nHeight])

/-! ## The fork search -/

/-- `while (p->nHeight > nHeight) p = p->pprev;` with `none` for a use of `NULL`. -/
def lowerTo (nHeight : Int) : CBlockIndex → Option CBlockIndex
  | root h => if nHeight < 0 then none else some (root h)
  | child p h => if nHeight < (child p h).nHeight then lowerTo nHeight p else some (child p h)

/-- The loop that looks for the fork of the old best block `pfork` and the new one `plonger`;
`none` is a failed `assert`. -/
def findFork (pfork plonger : CBlockIndex) : Option CBlockIndex :=
  if pfork = plonger then some pfork
  else
    (plonger.lowerTo pfork.nHeight).bind fun plonger =>
      if pfork = plonger then some pfork
      else
        match pfork with
        | root _ => none
        | child p _ => findFork p plonger

/-- `for (p = ...; p != pfork; p = p->pprev)`: the entries the loop goes through. It ends at
`pfork`, an ancestor of the first entry, or at `NULL` when there is no `pfork`. -/
def pathTo (pfork : Option CBlockIndex) : CBlockIndex → List CBlockIndex
  | root h => if pfork = some (root h) then [] else [root h]
  | child p h => if pfork = some (child p h) then [] else child p h :: pathTo pfork p

theorem lowerTo_spec {n : Nat} : ∃ a, p.lowerTo n = some a ∧ a ∈ p.chain ∧ a.nHeight ≤ n ∧
    ∀ b ∈ p.chain, b.nHeight ≤ n → b ∈ a.chain := by
  induction p with
  | root h => exact ⟨root h, if_neg (by omega), self_mem_chain, Nat.zero_le n, fun b hb _ => hb⟩
  | child p h ih =>
    by_cases hn : (n : Int) < (child p h).nHeight
    · obtain ⟨a, ha, hmem, hle, hall⟩ := ih
      refine ⟨a, by rw [lowerTo, if_pos hn, ha], mem_chain_child.mpr (.inr hmem), hle, ?_⟩
      intro b hb hbn
      rcases mem_chain_child.mp hb with rfl | hb
      · omega
      · exact hall b hb hbn
    · exact ⟨_, if_neg hn, self_mem_chain, by omega, fun b hb _ => hb⟩

theorem lowerTo_eq (h : a ∈ p.chain) : p.lowerTo a.nHeight = some a := by
  obtain ⟨b, hb, hmem, hle, hall⟩ := lowerTo_spec (p := p) (n := a.nHeight)
  rw [hb, eq_of_mem_chain (hall a h (le_refl _)) hle]

/-- The fork search finds the last common ancestor, if there is any. -/
theorem findFork_spec {f : CBlockIndex} (h : findFork p q = some f) :
    f ∈ p.chain ∧ f ∈ q.chain ∧ ∀ a ∈ p.chain, a ∈ q.chain → a ∈ f.chain := by
  induction p generalizing q with
  | root h' =>
    rw [findFork] at h
    split at h
    · cases h
      subst ‹root h' = q›
      exact ⟨self_mem_chain, self_mem_chain, fun a ha _ => ha⟩
    · obtain ⟨q1, hq1, h⟩ := Option.bind_eq_some_iff.mp h
      obtain ⟨q2, hq2, hmem, -, -⟩ := lowerTo_spec (p := q) (n := (root h').nHeight)
      obtain rfl : q2 = q1 := Option.some.inj (hq2.symm.trans hq1)
      split at h
      · cases h
        subst ‹root h' = q2›
        exact ⟨self_mem_chain, hmem, fun a ha _ => ha⟩
      · cases h
  | child p h' ih =>
    rw [findFork] at h
    split at h
    · cases h
      subst ‹child p h' = q›
      exact ⟨self_mem_chain, self_mem_chain, fun a ha _ => ha⟩
    · obtain ⟨q1, hq1, h⟩ := Option.bind_eq_some_iff.mp h
      obtain ⟨q2, hq2, hmem, hle, hall⟩ := lowerTo_spec (p := q) (n := (child p h').nHeight)
      obtain rfl : q2 = q1 := Option.some.inj (hq2.symm.trans hq1)
      split at h
      · cases h
        subst ‹child p h' = q2›
        exact ⟨self_mem_chain, hmem, fun a ha _ => ha⟩
      · obtain ⟨hfp, hfq, hlast⟩ := ih h
        refine ⟨mem_chain_child.mpr (.inr hfp), mem_chain_trans hfq hmem, ?_⟩
        intro a ha haq
        have haq2 : a ∈ q2.chain := hall a haq (nHeight_le_of_mem_chain ha)
        rcases mem_chain_child.mp ha with rfl | ha
        · exact absurd (eq_of_mem_chain haq2 hle) ‹_›
        · exact hlast a ha haq2

theorem exists_findFork (h : p.base = q.base) : ∃ f, findFork p q = some f := by
  induction p generalizing q with
  | root h' =>
    rw [findFork]
    split
    · exact ⟨_, rfl⟩
    · have hmem : root h' ∈ q.chain := by
        have := base_mem_chain (p := q)
        rwa [← h] at this
      rw [lowerTo_eq hmem]
      simp
  | child p h' ih =>
    rw [findFork]
    split
    · exact ⟨_, rfl⟩
    · obtain ⟨q1, hq1, hmem, -, -⟩ := lowerTo_spec (p := q) (n := (child p h').nHeight)
      rw [hq1, Option.bind_some]
      split
      · exact ⟨_, rfl⟩
      · exact ih (h.trans (base_of_mem_chain hmem).symm)

/-! ## The path to the fork -/

theorem mem_pathTo_none : a ∈ pathTo none p ↔ a ∈ p.chain := by
  induction p with
  | root h => simp [pathTo, chain]
  | child p h ih => simp [pathTo, chain, ih]

theorem mem_pathTo {f : CBlockIndex} (hf : f ∈ p.chain) :
    a ∈ pathTo (some f) p ↔ a ∈ p.chain ∧ a ∉ f.chain := by
  induction p with
  | root h =>
    obtain rfl : f = root h := by simpa [chain] using hf
    simp [pathTo]
  | child p h ih =>
    rw [pathTo]
    split
    · rename_i heq
      obtain rfl := Option.some.inj heq
      simp
    · rename_i hne
      have hfp : f ∈ p.chain := (mem_chain_child.mp hf).resolve_left fun heq => hne (by rw [heq])
      rw [List.mem_cons, ih hfp, mem_chain_child]
      constructor
      · rintro (rfl | ⟨ha, haf⟩)
        · refine ⟨.inl rfl, fun hmem => ?_⟩
          have h1 := nHeight_le_of_mem_chain hmem
          have h2 := nHeight_le_of_mem_chain hfp
          simp only [nHeight] at h1
          omega
        · exact ⟨.inr ha, haf⟩
      · rintro ⟨rfl | ha, haf⟩
        · exact .inl rfl
        · exact .inr ⟨ha, haf⟩

theorem pathTo_eq_nil : pathTo (some p) p = [] := by
  cases p <;> simp [pathTo]

theorem pathTo_eq_cons {o : Option CBlockIndex} (h : o ≠ some p) :
    pathTo o p = p :: (p.pprev.elim [] (pathTo o)) := by
  cases p <;> simp [pathTo, h, pprev]

end CBlockIndex

end Terracoin
