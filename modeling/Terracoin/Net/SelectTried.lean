import Mathlib.Data.List.GetD
import Terracoin.Net.AddrMan

/-!
# The entry that `SelectTried` returns

`SelectTried` moves each entry it draws to the front of the bucket, but remembers the place it drew
the oldest one from. So it returns the position of the oldest entry only when that entry was drawn
from the place it went to (`selectTried_oldest_iff`).
-/

namespace Terracoin

namespace CAddrMan

/-! ## The draws -/

/-- How many entries `SelectTried` looks at. -/
def nInspected (vTried : List Int) : Nat := min ADDRMAN_TRIED_ENTRIES_INSPECT_ON_EVICT vTried.length

/-- `nPos` in the round `i`. -/
def drawnPos (rnd : Nat → Nat) (vTried : List Int) (i : Nat) : Nat :=
  getRandInt (rnd i) (vTried.length - i) + i

/-- The bucket before the round `i`. -/
def shuffled (rnd : Nat → Nat) (vTried : List Int) : Nat → List Int
  | 0 => vTried
  | i + 1 =>
    let bucket := shuffled rnd vTried i
    let nPos := drawnPos rnd vTried i
    (bucket.set nPos (bucket.getD i 0)).set i (bucket.getD nPos 0)

/-- `nTemp` in the round `i`. -/
def drawn (rnd : Nat → Nat) (vTried : List Int) (i : Nat) : Int :=
  (shuffled rnd vTried i).getD (drawnPos rnd vTried i) 0

/-- `mapInfo[nId].nLastSuccess`; an entry that `mapInfo[nId]` makes has never been reached. -/
def lastSuccess (s : CAddrMan) (nId : Int) : Int64 :=
  match s.mapInfo[nId]? with
  | some info => info.nLastSuccess
  | none => 0

/-- `SelectTried`, of an empty bucket too: the bucket afterwards and `nOldestPos`, which is -1 when
there was nothing to look at. -/
def selectTriedPos (s : CAddrMan) (rnd : Nat → Nat) (vTried : List Int) :
    Option (List Int × Int) := do
  let st ← (List.range (nInspected vTried)).foldlM (s.inspectTried rnd) (vTried, none)
  pure (st.1, st.2.elim (-1) fun oldest => oldest.2)

variable {s : CAddrMan} {rnd : Nat → Nat} {vTried : List Int} {i j : Nat}

theorem length_shuffled (rnd : Nat → Nat) (vTried : List Int) (i : Nat) :
    (shuffled rnd vTried i).length = vTried.length := by
  induction i with
  | zero => rfl
  | succ i ih => rw [shuffled, List.length_set, List.length_set, ih]

theorem drawnPos_lt (hi : i < vTried.length) : drawnPos rnd vTried i < vTried.length := by
  have hrand : getRandInt (rnd i) (vTried.length - i) < vTried.length - i := by
    rw [getRandInt, if_neg (by omega)]
    exact Nat.mod_lt _ (by omega)
  unfold drawnPos
  omega

theorem drawnPos_lt_length (hi : i < vTried.length) :
    drawnPos rnd vTried i < (shuffled rnd vTried i).length := by
  rw [length_shuffled]
  exact drawnPos_lt hi

theorem le_drawnPos (rnd : Nat → Nat) (vTried : List Int) (i : Nat) : i ≤ drawnPos rnd vTried i :=
  Nat.le_add_left _ _

theorem shuffled_perm (hi : i ≤ vTried.length) : (shuffled rnd vTried i).Perm vTried := by
  induction i with
  | zero => exact .refl _
  | succ i ih =>
    have hlen := length_shuffled rnd vTried i
    have hpos : drawnPos rnd vTried i < (shuffled rnd vTried i).length := drawnPos_lt_length hi
    have hi' : i < (shuffled rnd vTried i).length := by omega
    rw [shuffled]
    rw [List.getD_eq_getElem _ _ hpos, List.getD_eq_getElem _ _ hi']
    exact (List.set_set_perm hpos hi').trans (ih (by omega))

theorem shuffled_getElem? (rnd : Nat → Nat) (hi : i ≤ vTried.length) (hj : j < i) :
    (shuffled rnd vTried i)[j]? = some (drawn rnd vTried j) := by
  induction i with
  | zero => exact absurd hj (Nat.not_lt_zero j)
  | succ i ih =>
    have hlen := length_shuffled rnd vTried i
    have hle := le_drawnPos rnd vTried i
    rw [shuffled]
    rcases Nat.lt_succ_iff_lt_or_eq.mp hj with hlt | rfl
    · rw [List.getElem?_set_ne (by omega), List.getElem?_set_ne (by omega)]
      exact ih (by omega) hlt
    · rw [List.getElem?_set_self (by rw [List.length_set]; omega)]
      rfl

/-! ## The loop -/

/-- The first of the entries drawn in the first `k` rounds that were reached the longest ago. -/
structure IsFirstOldest (s : CAddrMan) (rnd : Nat → Nat) (vTried : List Int) (k j : Nat) : Prop where
  lt : j < k
  before : ∀ l < j, s.lastSuccess (drawn rnd vTried j) < s.lastSuccess (drawn rnd vTried l)
  le : ∀ l < k, s.lastSuccess (drawn rnd vTried j) ≤ s.lastSuccess (drawn rnd vTried l)

theorem IsFirstOldest.unique {k l : Nat} (h : IsFirstOldest s rnd vTried k j)
    (h' : IsFirstOldest s rnd vTried k l) : j = l := by
  rcases Nat.lt_trichotomy j l with hlt | heq | hgt
  · exact absurd (h.le l h'.lt) (Int64.not_le.mpr (h'.before j hlt))
  · exact heq
  · exact absurd (h'.le j h.lt) (Int64.not_le.mpr (h.before l hgt))

/-- What the loop has found before the round `k`. -/
def Found (s : CAddrMan) (rnd : Nat → Nat) (vTried : List Int) (k : Nat) :
    Option (Int × Nat) → Prop
  | none => k = 0
  | some oldest => ∃ j, IsFirstOldest s rnd vTried k j ∧
    oldest = (drawn rnd vTried j, drawnPos rnd vTried j)

theorem drawn_mem (rnd : Nat → Nat) (hi : i < vTried.length) : drawn rnd vTried i ∈ vTried := by
  have hget := shuffled_getElem? rnd (Nat.succ_le_of_lt hi) (Nat.lt_succ_self i)
  exact (shuffled_perm (Nat.succ_le_of_lt hi)).mem_iff.mp (List.mem_of_getElem? hget)

theorem lastSuccess_of_some {n : Int} {info : CAddrInfo} (h : s.mapInfo[n]? = some info) :
    s.lastSuccess n = info.nLastSuccess := by
  rw [lastSuccess, h]

theorem inspectTried_shuffled (h : ∀ n ∈ vTried, ∃ info, s.mapInfo[n]? = some info)
    {nOldest : Option (Int × Nat)} (hfound : Found s rnd vTried i nOldest)
    (hi : i < vTried.length) :
    ∃ nOldest', s.inspectTried rnd (shuffled rnd vTried i, nOldest) i =
        some (shuffled rnd vTried (i + 1), nOldest') ∧
      Found s rnd vTried (i + 1) nOldest' ∧ nOldest'.isSome = true := by
  have hlen := length_shuffled rnd vTried i
  have hpos : drawnPos rnd vTried i < (shuffled rnd vTried i).length := drawnPos_lt_length hi
  have hi' : i < (shuffled rnd vTried i).length := by omega
  have hdrawn : (shuffled rnd vTried i)[drawnPos rnd vTried i]? = some (drawn rnd vTried i) := by
    rw [drawn, List.getD_eq_getElem _ _ hpos, List.getElem?_eq_getElem hpos]
  have hfirst : (shuffled rnd vTried i)[i]? = some ((shuffled rnd vTried i).getD i 0) := by
    rw [List.getD_eq_getElem _ _ hi', List.getElem?_eq_getElem hi']
  have hnext : ((shuffled rnd vTried i).set (drawnPos rnd vTried i)
      ((shuffled rnd vTried i).getD i 0)).set i (drawn rnd vTried i) =
        shuffled rnd vTried (i + 1) := rfl
  have hround : getRandInt (rnd i) ((shuffled rnd vTried i).length - i) + i =
      drawnPos rnd vTried i := by
    rw [hlen]
    rfl
  obtain ⟨info, hinfo⟩ := h _ (drawn_mem rnd hi)
  rw [inspectTried]
  dsimp only
  rw [hround, hdrawn, hfirst]
  simp only [Option.bind_eq_bind, Option.bind_some, hnext]
  cases nOldest with
  | none =>
    obtain rfl : i = 0 := hfound
    refine ⟨_, rfl, ⟨0, ⟨Nat.zero_lt_one, fun l hl => absurd hl (Nat.not_lt_zero l), ?_⟩, rfl⟩, rfl⟩
    intro l hl
    obtain rfl : l = 0 := by omega
    exact Int64.le_refl _
  | some oldest =>
    obtain ⟨j, hj, rfl⟩ := hfound
    obtain ⟨infoOldest, hinfoOldest⟩ := h _ (drawn_mem rnd (hj.lt.trans hi))
    have hlast := lastSuccess_of_some hinfo
    have hlastOldest := lastSuccess_of_some hinfoOldest
    dsimp only
    rw [hinfo, hinfoOldest]
    simp only [Option.bind_some]
    rw [← hlast, ← hlastOldest]
    split
    · rename_i hlt
      -- the entry drawn now is older than all before it
      refine ⟨_, rfl, ⟨i, ⟨Nat.lt_succ_self i, fun l hl => ?_, fun l hl => ?_⟩, rfl⟩, rfl⟩
      · exact Int64.lt_of_lt_of_le hlt (hj.le l hl)
      · rcases Nat.lt_succ_iff_lt_or_eq.mp hl with hl | rfl
        · exact Int64.le_of_lt (Int64.lt_of_lt_of_le hlt (hj.le l hl))
        · exact Int64.le_refl _
    · rename_i hnot
      refine ⟨_, rfl, ⟨j, ⟨hj.lt.trans (Nat.lt_succ_self i), hj.before, fun l hl => ?_⟩, rfl⟩, rfl⟩
      rcases Nat.lt_succ_iff_lt_or_eq.mp hl with hl | rfl
      · exact hj.le l hl
      · exact Int64.not_lt.mp hnot

theorem foldlM_inspectTried (rnd : Nat → Nat) (h : ∀ n ∈ vTried, ∃ info, s.mapInfo[n]? = some info) {k : Nat}
    (hk : k ≤ vTried.length) :
    ∃ nOldest, (List.range k).foldlM (s.inspectTried rnd) (vTried, none) =
        some (shuffled rnd vTried k, nOldest) ∧ Found s rnd vTried k nOldest ∧
      (0 < k → nOldest.isSome = true) := by
  induction k with
  | zero => exact ⟨none, rfl, rfl, fun h0 => absurd h0 (Nat.lt_irrefl 0)⟩
  | succ k ih =>
    obtain ⟨nOldest, hrun, hfound, -⟩ := ih (by omega)
    obtain ⟨nOldest', hround, hfound', hsome⟩ := inspectTried_shuffled h hfound hk
    refine ⟨nOldest', ?_, hfound', fun _ => hsome⟩
    rw [List.range_succ, List.foldlM_append, hrun]
    simp only [Option.bind_eq_bind, Option.bind_some, List.foldlM_cons, List.foldlM_nil, hround,
      Option.pure_def]

/-! ## What `SelectTried` returns -/

/-- The entries that `SelectTried` looked at; they are at the front of the bucket afterwards. -/
def sampled (rnd : Nat → Nat) (vTried : List Int) : List Int :=
  (List.range (nInspected vTried)).map (drawn rnd vTried)

theorem take_shuffled (rnd : Nat → Nat) (vTried : List Int) :
    (shuffled rnd vTried (nInspected vTried)).take (nInspected vTried) = sampled rnd vTried := by
  have hk : nInspected vTried ≤ vTried.length := Nat.min_le_right _ _
  apply List.ext_getElem?
  intro j
  rw [sampled, List.getElem?_take, List.getElem?_map]
  split
  · rename_i hj
    rw [shuffled_getElem? rnd hk hj, List.getElem?_range hj]
    rfl
  · rename_i hj
    rw [List.getElem?_eq_none (by rw [List.length_range]; omega)]
    rfl

/-- `SelectTried` puts the bucket in another order and, unless it is empty, returns the position of
one of the entries it looked at, reached no later than any other of them. -/
def SelectsOldest (s : CAddrMan) (rnd : Nat → Nat) (vTried : List Int) : Prop :=
  ∃ bucket nPos, s.selectTriedPos rnd vTried = some (bucket, nPos) ∧ bucket.Perm vTried ∧
    bucket.take (nInspected vTried) = sampled rnd vTried ∧
    (vTried ≠ [] → ∃ p nId, nPos = (p : Nat) ∧ p < nInspected vTried ∧ bucket[p]? = some nId ∧
      ∀ m ∈ sampled rnd vTried, s.lastSuccess nId ≤ s.lastSuccess m)

/-- The position is right exactly when the first of the oldest entries was drawn from the place it
goes to, or from one that an entry just as old goes to later. -/
theorem selectTried_oldest_iff (h : ∀ n ∈ vTried, ∃ info, s.mapInfo[n]? = some info) :
    SelectsOldest s rnd vTried ↔
      ∀ j, IsFirstOldest s rnd vTried (nInspected vTried) j →
        drawnPos rnd vTried j = j ∨
        drawnPos rnd vTried j < nInspected vTried ∧
          s.lastSuccess (drawn rnd vTried (drawnPos rnd vTried j)) =
            s.lastSuccess (drawn rnd vTried j) := by
  have hk : nInspected vTried ≤ vTried.length := Nat.min_le_right _ _
  obtain ⟨nOldest, hrun, hfound, hsome⟩ := foldlM_inspectTried rnd h hk
  have hcall : s.selectTriedPos rnd vTried = some (shuffled rnd vTried (nInspected vTried),
      nOldest.elim (-1 : Int) fun oldest => oldest.2) := by
    rw [selectTriedPos, hrun]
    rfl
  have hsampled : ∀ l < nInspected vTried, drawn rnd vTried l ∈ sampled rnd vTried := fun l hl =>
    List.mem_map_of_mem (List.mem_range.mpr hl)
  constructor
  · rintro ⟨bucket, nPos, hcall', -, -, hpos⟩ j hj
    rw [hcall, Option.some.injEq, Prod.mk.injEq] at hcall'
    obtain ⟨rfl, rfl⟩ := hcall'
    have hne : vTried ≠ [] := by
      rintro rfl
      exact absurd hj.lt (Nat.not_lt_zero j)
    obtain ⟨oldest, rfl⟩ := Option.isSome_iff_exists.mp (hsome (Nat.zero_lt_of_lt hj.lt))
    obtain ⟨l, hl, rfl⟩ := hfound
    obtain rfl := hj.unique hl
    obtain ⟨p, nId, hp, hlt, hget, hle⟩ := hpos hne
    obtain rfl : drawnPos rnd vTried j = p := Int.ofNat_inj.mp hp
    rw [shuffled_getElem? rnd hk hlt, Option.some.injEq] at hget
    exact .inr ⟨hlt, Int64.le_antisymm (hget ▸ hle _ (hsampled j hj.lt)) (hj.le _ hlt)⟩
  · intro hdraw
    refine ⟨_, _, hcall, shuffled_perm hk, take_shuffled rnd vTried, fun hne => ?_⟩
    have hpos : 0 < nInspected vTried :=
      lt_min (by decide) (List.length_pos_iff.mpr hne)
    obtain ⟨oldest, rfl⟩ := Option.isSome_iff_exists.mp (hsome hpos)
    obtain ⟨j, hj, rfl⟩ := hfound
    have hlast : drawnPos rnd vTried j < nInspected vTried ∧
        s.lastSuccess (drawn rnd vTried (drawnPos rnd vTried j)) =
          s.lastSuccess (drawn rnd vTried j) := by
      rcases hdraw j hj with hplace | hlater
      · rw [hplace]
        exact ⟨hj.lt, rfl⟩
      · exact hlater
    refine ⟨drawnPos rnd vTried j, _, rfl, hlast.1, shuffled_getElem? rnd hk hlast.1, fun m hm => ?_⟩
    obtain ⟨l, hl, rfl⟩ := List.mem_map.mp hm
    rw [hlast.2]
    exact hj.le l (List.mem_range.mp hl)

end CAddrMan

namespace SelectTriedSample

open CAddrMan

def addr : CAddress :=
  ⟨⟨⟨⟨List.replicate 15 0 ++ [1], by decide⟩⟩, 8333⟩, 1, 0, 0⟩

/-- The entry 63 has never been reached, the others have. -/
def entry (n : Int) : CAddrInfo :=
  { CAddrInfo.new addr addr.toCNetAddr with nLastSuccess := if n = 63 then 0 else 1 }

def bucket : List Int := (List.range ADDRMAN_TRIED_BUCKET_SIZE).map Int.ofNat

def addrman : CAddrMan :=
  { CAddrMan.init ⟨List.replicate 32 0, by decide⟩ with
    mapInfo := bucket.foldl (fun m n => m.insert n (entry n)) ∅ }

/-- The first draw takes the last place, the others take the place they fill. -/
def lastThenSame (i : Nat) : Nat := if i = 0 then 63 else 0

theorem bucket_known : ∀ n ∈ bucket, ∃ info, addrman.mapInfo[n]? = some info := by
  intro n hn
  have hall : ∀ n ∈ bucket, (addrman.mapInfo[n]?).isSome = true := by decide +kernel
  exact Option.isSome_iff_exists.mp (hall n hn)

def allSame (_ : Nat) : Nat := 0

/-- No entry moves, so the position is right. -/
theorem selectTried_oldest_iff_sample : SelectsOldest addrman allSame bucket := by
  refine (selectTried_oldest_iff bucket_known).mpr fun j hj => .inl ?_
  unfold drawnPos getRandInt
  split
  · exact Nat.zero_add j
  · exact (congrArg (· + j) (Nat.zero_mod _)).trans (Nat.zero_add j)

/-- The entry 63 is the oldest and is drawn first, from the place 63. `SelectTried` moves it to the
front and returns 63, where the entry 0 is now. -/
theorem selectTried_not_oldest : ¬ ∀ (s : CAddrMan) (rnd : Nat → Nat) (vTried : List Int),
    (∀ n ∈ vTried, ∃ info, s.mapInfo[n]? = some info) → SelectsOldest s rnd vTried := by
  intro h
  obtain ⟨bucket', nPos, hcall, -, -, hpos⟩ := h addrman lastThenSame bucket bucket_known
  have hret : (addrman.selectTriedPos lastThenSame bucket).map (fun r => (r.2, r.1[63]?)) =
      some (63, some 0) := by decide +kernel
  obtain ⟨p, nId, rfl, hlt, -⟩ := hpos (by decide)
  rw [hcall, Option.map_some, Option.some.injEq, Prod.mk.injEq] at hret
  have hinspected : nInspected bucket = 4 := by decide
  omega

end SelectTriedSample

end Terracoin
