import Mathlib.Data.List.Basic
import Mathlib.Data.List.Count
import Mathlib.Logic.Function.Basic
import Terracoin.Lib.Run

/-!
# Holders of keys

Holders come and go, and each of them holds the keys of a list. A state that takes a key from one
level to the next when it gets a holder, and back when it loses one, shows how many hold each key
after any calls that only drop live holders (`shows_of_live`).
-/

namespace Holders

variable {S K V H : Type} [DecidableEq K]

def count (keys : H → List K) (live : List H) (k : K) : Nat := live.countP fun h => k ∈ keys h

inductive Call (H : Type) where
  | hold (h : H)
  | drop (h : H)
deriving DecidableEq

/-- The holders after calls that only drop live ones and bring no key above `limit` holders. -/
inductive Live [BEq H] (keys : H → List K) (limit : Nat) : List (Call H) → List H → Prop
  | nil : Live keys limit [] []
  | hold {calls live} (h : H) (hlive : Live keys limit calls live)
      (hlimit : ∀ k ∈ keys h, count keys live k < limit) :
      Live keys limit (calls ++ [.hold h]) (h :: live)
  | drop {calls live} (h : H) (hlive : Live keys limit calls live) (hmem : h ∈ live) :
      Live keys limit (calls ++ [.drop h]) (live.erase h)

/-- Steps on one key that move it by one level. -/
structure Ladder (view : S → K → V) (level : Nat → V) (limit : Nat)
    (acquire release : S → K → Option S) : Prop where
  acquire : ∀ s k n, n < limit → view s k = level n →
    ∃ s', acquire s k = some s' ∧ view s' = Function.update (view s) k (level (n + 1))
  release : ∀ s k n, view s k = level (n + 1) →
    ∃ s', release s k = some s' ∧ view s' = Function.update (view s) k (level n)

variable {view : S → K → V} {level : Nat → V} {limit : Nat} {acquire release : S → K → Option S}
  {keys : H → List K} {live : List H} {s : S}

theorem count_cons (h : H) (live : List H) (k : K) :
    count keys (h :: live) k = count keys live k + if k ∈ keys h then 1 else 0 := by
  simp [count, List.countP_cons]

theorem count_erase [BEq H] [LawfulBEq H] {h : H} (hmem : h ∈ live) (k : K) :
    count keys live k = count keys (live.erase h) k + if k ∈ keys h then 1 else 0 := by
  rw [← count_cons]
  exact (List.perm_cons_erase hmem).countP_eq _

theorem count_pos_iff (k : K) : 0 < count keys live k ↔ ∃ h ∈ live, k ∈ keys h := by
  simp [count, List.countP_pos_iff]

/-! ## One call -/

/-- A fold over different keys that moves each of them. -/
theorem foldlM_levels {step : S → K → Option S} {n n' : K → Nat} {ks : List K}
    (hstep : ∀ s, ∀ k ∈ ks, view s k = level (n k) →
      ∃ s', step s k = some s' ∧ view s' = Function.update (view s) k (level (n' k)))
    (hnodup : ks.Nodup) (hs : ∀ k ∈ ks, view s k = level (n k)) :
    ∃ s', ks.foldlM step s = some s' ∧
      ∀ k, view s' k = if k ∈ ks then level (n' k) else view s k := by
  induction ks generalizing s with
  | nil => exact ⟨s, rfl, fun k => by simp⟩
  | cons k ks ih =>
    obtain ⟨hk, hks⟩ := List.nodup_cons.mp hnodup
    obtain ⟨s1, h1, hview1⟩ := hstep s k List.mem_cons_self (hs k List.mem_cons_self)
    have hs1 : ∀ j ∈ ks, view s1 j = level (n j) := by
      intro j hj
      have hne : j ≠ k := fun he => hk (he ▸ hj)
      rw [hview1, Function.update_of_ne hne]
      exact hs j (List.mem_cons_of_mem _ hj)
    obtain ⟨s', h', hview'⟩ := ih (fun s j hj => hstep s j (List.mem_cons_of_mem _ hj)) hks hs1
    refine ⟨s', by rw [List.foldlM_cons, h1]; exact h', fun j => ?_⟩
    rw [hview' j, hview1]
    by_cases hjk : j = k
    · simp [hjk, hk]
    · simp [hjk]

/-- What the state shows of a key is the number of its holders. -/
def Shows (view : S → K → V) (level : Nat → V) (keys : H → List K) (s : S) (live : List H) : Prop :=
  ∀ k, view s k = level (count keys live k)

theorem hold_shows (hladder : Ladder view level limit acquire release) {h : H}
    (hnodup : (keys h).Nodup) (hs : Shows view level keys s live)
    (hlimit : ∀ k ∈ keys h, count keys live k < limit) :
    ∃ s', (keys h).foldlM acquire s = some s' ∧ Shows view level keys s' (h :: live) := by
  obtain ⟨s', h', hview⟩ := foldlM_levels
    (fun s k hk hsk => hladder.acquire s k (count keys live k) (hlimit k hk) hsk) hnodup
    (fun k _ => hs k)
  refine ⟨s', h', fun k => ?_⟩
  rw [hview k, count_cons]
  split
  · rfl
  · exact hs k

theorem drop_shows [BEq H] [LawfulBEq H] (hladder : Ladder view level limit acquire release) {h : H}
    (hnodup : (keys h).Nodup) (hs : Shows view level keys s live) (hmem : h ∈ live) :
    ∃ s', (keys h).foldlM release s = some s' ∧ Shows view level keys s' (live.erase h) := by
  have hlevel : ∀ k ∈ keys h, view s k = level (count keys (live.erase h) k + 1) := by
    intro k hk
    rw [hs k, count_erase hmem, if_pos hk]
  obtain ⟨s', h', hview⟩ := foldlM_levels
    (fun s k _ hsk => hladder.release s k (count keys (live.erase h) k) hsk) hnodup hlevel
  refine ⟨s', h', fun k => ?_⟩
  rw [hview k]
  split
  · rfl
  · next hk => rw [hs k, count_erase hmem, if_neg hk, Nat.add_zero]

def step (keys : H → List K) (acquire release : S → K → Option S) (s : S) : Call H → Option S
  | .hold h => (keys h).foldlM acquire s
  | .drop h => (keys h).foldlM release s

/-- The run of a system whose calls go over the keys of their holder. -/
theorem shows_of_live [BEq H] [LawfulBEq H] (hladder : Ladder view level limit acquire release)
    (hnodup : ∀ h, (keys h).Nodup) {apply : S → Call H → Option S}
    (happly : ∀ s live c, Shows view level keys s live →
      apply s c = step keys acquire release s c)
    (hs : ∀ k, view s k = level 0) {calls : List (Call H)} (hlive : Live keys limit calls live) :
    ∃ s', Run.run apply s calls = some s' ∧ Shows view level keys s' live := by
  induction hlive with
  | nil => exact ⟨s, rfl, hs⟩
  | @hold calls live h _ hlimit ih =>
    obtain ⟨s1, h1, hs1⟩ := ih
    obtain ⟨s', h', hs'⟩ := hold_shows hladder (hnodup h) hs1 hlimit
    exact ⟨s', by simp [Run.run_append, h1, Run.run, happly s1 live _ hs1, step, h'], hs'⟩
  | @drop calls live h _ hmem ih =>
    obtain ⟨s1, h1, hs1⟩ := ih
    obtain ⟨s', h', hs'⟩ := drop_shows hladder (hnodup h) hs1 hmem
    exact ⟨s', by simp [Run.run_append, h1, Run.run, happly s1 live _ hs1, step, h'], hs'⟩

end Holders
