import Terracoin.Chain.BlockStorage
import Mathlib.Data.List.Induction
import Mathlib.Order.Bounds.Defs

/-!
# The statistics of a block file

`AddBlock` keeps the number of blocks in a file, their least and greatest heights and their least
and greatest times. It compares a new height with the least one to see whether it is the greatest:
`nHeightLast` is the last height that was greater than an earlier one, and `0` as long as there is
none. So it is the greatest only in some orders of arrival (`addBlocks_statistics_iff`).
-/

namespace Terracoin

namespace CBlockFileInfo

/-- A call of `AddBlock` for each height and time. -/
def addBlocks (info : CBlockFileInfo) (calls : List (UInt32 × UInt64)) : CBlockFileInfo :=
  calls.foldl (fun info call => info.addBlock call.1 call.2) info

/-- The fields are what their comments say. -/
structure Statistics (calls : List (UInt32 × UInt64)) (info : CBlockFileInfo) : Prop where
  nBlocks : info.nBlocks.toNat = calls.length
  nHeightFirst : IsLeast {h | h ∈ calls.map Prod.fst} info.nHeightFirst
  nHeightLast : IsGreatest {h | h ∈ calls.map Prod.fst} info.nHeightLast
  nTimeFirst : IsLeast {t | t ∈ calls.map Prod.snd} info.nTimeFirst
  nTimeLast : IsGreatest {t | t ∈ calls.map Prod.snd} info.nTimeLast

/-! ## Least and greatest values -/

section

variable {α : Type} [LE α] [LT α] [Std.LawfulOrderLT α] [Std.IsLinearOrder α] [DecidableLT α]

theorem isLeast_append {l : List α} {a : α} (h : IsLeast {x | x ∈ l} a) (b : α) :
    IsLeast {x | x ∈ l ++ [b]} (if b < a then b else a) := by
  obtain ⟨hmem, hle⟩ := h
  have hle' : ∀ x ∈ l, a ≤ x := fun x hx => hle hx
  constructor
  · show _ ∈ l ++ [b]
    have hmem' : a ∈ l := hmem
    split
    · exact List.mem_append_right l List.mem_cons_self
    · exact List.mem_append_left [b] hmem'
  · intro x hx
    have hx' : x ∈ l ++ [b] := hx
    grind

theorem isGreatest_append {l : List α} {a : α} (h : IsGreatest {x | x ∈ l} a) (b : α) :
    IsGreatest {x | x ∈ l ++ [b]} (if a < b then b else a) := by
  obtain ⟨hmem, hle⟩ := h
  have hle' : ∀ x ∈ l, x ≤ a := fun x hx => hle hx
  constructor
  · show _ ∈ l ++ [b]
    have hmem' : a ∈ l := hmem
    split
    · exact List.mem_append_right l List.mem_cons_self
    · exact List.mem_append_left [b] hmem'
  · intro x hx
    have hx' : x ∈ l ++ [b] := hx
    grind

/-- No value of the list is greater than an earlier one. -/
def NoRise (l : List α) : Prop := l.Pairwise fun x y => y ≤ x

/-- `last` is the last value of the list that is greater than an earlier one. -/
def LastRise (l : List α) (last : α) : Prop :=
  ∃ before after, l = before ++ last :: after ∧ (∃ x ∈ before, x < last) ∧ NoRise after ∧
    ∀ y ∈ after, ∀ x ∈ before, y ≤ x

variable {l before after later rest : List α} {a b last : α}

omit [DecidableLT α] [LT α] [Std.LawfulOrderLT α] [Std.IsLinearOrder α] in
theorem NoRise.append (h : NoRise l) (hb : ∀ x ∈ l, b ≤ x) : NoRise (l ++ [b]) := by
  refine List.pairwise_append.mpr ⟨h, List.pairwise_singleton _ _, ?_⟩
  intro x hx y hy
  rw [List.mem_singleton.mp hy]
  exact hb x hx

omit [DecidableLT α] [Std.LawfulOrderLT α] [Std.IsLinearOrder α] in
theorem LastRise.append (h : LastRise l last) (hb : ∀ x ∈ l, b ≤ x) : LastRise (l ++ [b]) last := by
  obtain ⟨before, after, rfl, hrise, hafter, hle⟩ := h
  refine ⟨before, after ++ [b], by simp, hrise, hafter.append fun x hx => hb x (by simp [hx]), ?_⟩
  intro y hy x hx
  rcases List.mem_append.mp hy with hy | hy
  · exact hle y hy x hx
  · rw [List.mem_singleton.mp hy]
    exact hb x (by simp [hx])

omit [DecidableLT α] [Std.LawfulOrderLT α] [Std.IsLinearOrder α] in
theorem lastRise_append (ha : a ∈ l) (hb : a < b) : LastRise (l ++ [b]) b :=
  ⟨l, [], rfl, ⟨a, ha, hb⟩, .nil, nofun⟩

omit [DecidableLT α] in
theorem LastRise.not_noRise (h : LastRise l last) : ¬ NoRise l := by
  obtain ⟨before, after, rfl, ⟨x, hx, hlt⟩, -, -⟩ := h
  intro hno
  have hle : last ≤ x := (List.pairwise_append.mp hno).2.2 x hx last List.mem_cons_self
  grind

omit [DecidableLT α] [Std.LawfulOrderLT α] [Std.IsLinearOrder α] in
theorem LastRise.mem (h : LastRise l last) : last ∈ l := by
  obtain ⟨before, after, rfl, -⟩ := h
  exact List.mem_append_right before List.mem_cons_self

omit [DecidableLT α] in
theorem le_of_after (hrise : ∃ x ∈ before, x < a) (hno : NoRise (later ++ b :: rest))
    (hle : ∀ y ∈ later ++ b :: rest, ∀ x ∈ before, y ≤ x) : ∀ x ∈ before ++ a :: later, b ≤ x := by
  have hb : b ∈ later ++ b :: rest := List.mem_append_right later List.mem_cons_self
  intro x hx
  rcases List.mem_append.mp hx with hx | hx
  · exact hle b hb x hx
  · rcases List.mem_cons.mp hx with rfl | hx
    · obtain ⟨y, hy, hlt⟩ := hrise
      have hby := hle b hb y hy
      grind
    · exact (List.pairwise_append.mp hno).2.2 x hx b List.mem_cons_self

omit [DecidableLT α] in
theorem LastRise.unique (h : LastRise l a) (h' : LastRise l b) : a = b := by
  obtain ⟨before, after, rfl, hrise, hno, hle⟩ := h
  obtain ⟨before', after', heq, hrise', hno', hle'⟩ := h'
  have hlater : ∀ {x y : α}, x < y → ¬ y ≤ x := by grind
  rcases List.append_eq_append_iff.mp heq with ⟨mid, rfl, htail⟩ | ⟨mid, rfl, htail⟩
  · rcases List.cons_eq_append_iff.mp htail with ⟨rfl, hcons⟩ | ⟨later, rfl, rfl⟩
    · exact (List.cons.inj hcons).1.symm
    · obtain ⟨x, hx, hlt⟩ := hrise'
      exact absurd (le_of_after hrise hno hle x hx) (hlater hlt)
  · rcases List.cons_eq_append_iff.mp htail with ⟨rfl, hcons⟩ | ⟨later, rfl, rfl⟩
    · exact (List.cons.inj hcons).1
    · obtain ⟨x, hx, hlt⟩ := hrise
      exact absurd (le_of_after hrise' hno' hle' x hx) (hlater hlt)

end

/-! ## What is recorded -/

/-- What `AddBlock` has recorded, whatever the order of the calls. -/
structure Recorded (calls : List (UInt32 × UInt64)) (info : CBlockFileInfo) : Prop where
  nBlocks : info.nBlocks.toNat = calls.length
  nHeightFirst : IsLeast {h | h ∈ calls.map Prod.fst} info.nHeightFirst
  nHeightLast : NoRise (calls.map Prod.fst) ∧ info.nHeightLast = 0 ∨
    LastRise (calls.map Prod.fst) info.nHeightLast
  nTimeFirst : IsLeast {t | t ∈ calls.map Prod.snd} info.nTimeFirst
  nTimeLast : IsGreatest {t | t ∈ calls.map Prod.snd} info.nTimeLast

/-- The first call. -/
theorem recorded_singleton (call : UInt32 × UInt64) : Recorded [call] (null.addBlock call.1 call.2) := by
  have hgreatest : (null.addBlock call.1 call.2).nTimeLast = call.2 := by
    show (if 0 < call.2 then call.2 else 0) = call.2
    split
    · rfl
    · rename_i h
      exact (UInt64.le_antisymm (UInt64.not_lt.mp h) UInt64.zero_le).symm
  refine ⟨rfl, ⟨List.mem_cons_self, ?_⟩, .inl ⟨List.pairwise_singleton _ _, ?_⟩,
    ⟨List.mem_cons_self, ?_⟩, ⟨?_, ?_⟩⟩
  · intro h hh
    rw [List.mem_singleton.mp hh]
    exact UInt32.le_refl _
  · exact if_neg (UInt32.lt_irrefl call.1)
  · intro t ht
    rw [List.mem_singleton.mp ht]
    exact UInt64.le_refl _
  · rw [hgreatest]
    exact List.mem_cons_self
  · intro t ht
    rw [List.mem_singleton.mp ht, hgreatest]
    exact UInt64.le_refl _

theorem Recorded.addBlock {calls : List (UInt32 × UInt64)} {info : CBlockFileInfo}
    (h : Recorded calls info) (hne : calls ≠ []) (hlen : calls.length + 1 < 2 ^ 32)
    (call : UInt32 × UInt64) : Recorded (calls ++ [call]) (info.addBlock call.1 call.2) := by
  have hpos : info.nBlocks ≠ 0 := by
    intro h0
    have hlen0 := h.nBlocks
    rw [h0] at hlen0
    exact hne (List.eq_nil_of_length_eq_zero hlen0.symm)
  have hfirst : (info.addBlock call.1 call.2).nHeightFirst =
      if call.1 < info.nHeightFirst then call.1 else info.nHeightFirst := by
    simp only [CBlockFileInfo.addBlock, hpos, false_or]
  have htime : (info.addBlock call.1 call.2).nTimeFirst =
      if call.2 < info.nTimeFirst then call.2 else info.nTimeFirst := by
    simp only [CBlockFileInfo.addBlock, hpos, false_or]
  constructor
  case nBlocks =>
    show (info.nBlocks + 1).toNat = _
    rw [UInt32.toNat_add, h.nBlocks, List.length_append, List.length_singleton]
    exact Nat.mod_eq_of_lt hlen
  case nHeightFirst =>
    rw [hfirst, List.map_append]
    exact isLeast_append h.nHeightFirst call.1
  case nTimeFirst =>
    rw [htime, List.map_append]
    exact isLeast_append h.nTimeFirst call.2
  case nTimeLast =>
    rw [List.map_append]
    exact isGreatest_append h.nTimeLast call.2
  case nHeightLast =>
    have hlast : (info.addBlock call.1 call.2).nHeightLast =
        if info.nHeightFirst < call.1 then call.1 else info.nHeightLast := by
      show (if (info.addBlock call.1 call.2).nHeightFirst < call.1 then _ else _) = _
      rw [hfirst]
      by_cases hlt : call.1 < info.nHeightFirst
      · rw [if_pos hlt, if_neg (UInt32.lt_irrefl call.1), if_neg (UInt32.lt_asymm hlt)]
      · rw [if_neg hlt]
    rw [hlast, List.map_append]
    split
    · rename_i hlt
      exact .inr (lastRise_append h.nHeightFirst.1 hlt)
    · rename_i hlt
      have hle : ∀ x ∈ calls.map Prod.fst, call.1 ≤ x := by
        intro x hx
        have hx' : info.nHeightFirst ≤ x := h.nHeightFirst.2 hx
        grind
      rcases h.nHeightLast with ⟨hno, h0⟩ | hrise
      · exact .inl ⟨hno.append hle, h0⟩
      · exact .inr (hrise.append hle)

theorem addBlocks_concat (info : CBlockFileInfo) (calls : List (UInt32 × UInt64))
    (call : UInt32 × UInt64) :
    info.addBlocks (calls ++ [call]) = (info.addBlocks calls).addBlock call.1 call.2 := by
  rw [addBlocks, List.foldl_append]
  rfl

theorem recorded_addBlocks {calls : List (UInt32 × UInt64)} (hne : calls ≠ [])
    (hlen : calls.length < 2 ^ 32) : Recorded calls (null.addBlocks calls) := by
  induction calls using List.reverseRecOn with
  | nil => exact absurd rfl hne
  | append_singleton calls call ih =>
    rw [addBlocks_concat]
    rw [List.length_append, List.length_singleton] at hlen
    by_cases hcalls : calls = []
    · subst hcalls
      exact recorded_singleton call
    · exact (ih hcalls (by omega)).addBlock hcalls hlen call

/-- The statistics of a block file are right exactly if there are fewer than `2 ^ 32` blocks and
the last one that was higher than an earlier one is the highest, or all heights are 0. -/
theorem addBlocks_statistics_iff {calls : List (UInt32 × UInt64)} (hne : calls ≠ []) :
    Statistics calls (null.addBlocks calls) ↔ calls.length < 2 ^ 32 ∧
      ((∀ h ∈ calls.map Prod.fst, h = 0) ∨
        ∃ h, LastRise (calls.map Prod.fst) h ∧ ∀ h' ∈ calls.map Prod.fst, h' ≤ h) := by
  constructor
  · intro hstat
    have hlen : calls.length < 2 ^ 32 := by
      rw [← hstat.nBlocks]
      exact UInt32.toNat_lt _
    refine ⟨hlen, ?_⟩
    rcases (recorded_addBlocks hne hlen).nHeightLast with ⟨-, h0⟩ | hrise
    · left
      intro h hh
      have hle : h ≤ 0 := h0 ▸ hstat.nHeightLast.2 hh
      exact UInt32.le_antisymm hle UInt32.zero_le
    · exact .inr ⟨_, hrise, fun h' hh' => hstat.nHeightLast.2 hh'⟩
  · rintro ⟨hlen, hlast⟩
    have hrec := recorded_addBlocks hne hlen
    refine ⟨hrec.nBlocks, hrec.nHeightFirst, ?_, hrec.nTimeFirst, hrec.nTimeLast⟩
    rcases hrec.nHeightLast with ⟨hno, h0⟩ | hrise
    · have hzero : ∀ h ∈ calls.map Prod.fst, h = 0 := by
        rcases hlast with hzero | ⟨h, hrise, -⟩
        · exact hzero
        · exact absurd hno hrise.not_noRise
      obtain ⟨call, hcall⟩ := List.exists_mem_of_ne_nil calls hne
      have hmem := List.mem_map_of_mem (f := Prod.fst) hcall
      have hgreatest : IsGreatest {h | h ∈ calls.map Prod.fst} 0 := by
        refine ⟨hzero _ hmem ▸ hmem, fun h hh => ?_⟩
        rw [hzero h hh]
        exact UInt32.le_refl 0
      exact h0.symm ▸ hgreatest
    · rcases hlast with hzero | ⟨h, hrise', hle⟩
      · have hno : NoRise (calls.map Prod.fst) := by
          refine List.pairwise_of_forall_mem_list fun x hx y hy => ?_
          rw [hzero x hx, hzero y hy]
          exact UInt32.le_refl 0
        exact absurd hno hrise.not_noRise
      · rw [hrise.unique hrise']
        exact ⟨hrise'.mem, fun h' hh' => hle h' hh'⟩

/-- Blocks at heights in order. -/
theorem addBlocks_statistics_sample :
    Statistics [(0, 10), (1, 20), (2, 15)] (null.addBlocks [(0, 10), (1, 20), (2, 15)]) := by
  have hmax : ∀ h ∈ [0, 1, 2], h ≤ (2 : UInt32) :=
    List.forall_mem_cons.mpr ⟨by decide, List.forall_mem_cons.mpr ⟨by decide,
      List.forall_mem_singleton.mpr (UInt32.le_refl 2)⟩⟩
  refine (addBlocks_statistics_iff (List.cons_ne_nil _ _)).mpr ⟨by decide, .inr ⟨2, ?_, hmax⟩⟩
  exact ⟨[0, 1], [], rfl, ⟨0, by decide⟩, .nil, nofun⟩

/-- A block on a fork arrives late. -/
theorem not_addBlocks_statistics :
    ¬ Statistics [(0, 10), (2, 20), (1, 15)] (null.addBlocks [(0, 10), (2, 20), (1, 15)]) := by
  intro h
  have hle : (2 : UInt32) ≤ (null.addBlocks [(0, 10), (2, 20), (1, 15)]).nHeightLast :=
    h.nHeightLast.2 (by decide : (2 : UInt32) ∈ [(0 : UInt32), 2, 1])
  revert hle
  decide

end CBlockFileInfo

end Terracoin
