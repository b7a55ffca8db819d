import Mathlib.Data.List.Basic
import Mathlib.Order.Basic

/-!
# Parsing a stream that arrives in pieces

A parser that is called again and again on the bytes it has not used up yet. One turn waits for
more, skips something or hands over a message. `StreamParser` collects what makes the pieces
irrelevant: a decision stays the same when more arrives, and what waits can stand for the bytes it
was left from. `parse_append` is the result: parsing what is there and later the rest hands over
what parsing everything at once does.
-/

/-- What one turn of a parser does with its buffer. -/
inductive Turn (β μ : Type) where
  | wait (rest : β)
  | skip (rest : β)
  | emit (m : μ) (rest : β)
deriving DecidableEq, Repr

namespace Turn

variable {α β γ μ : Type}

def rest : Turn β μ → β
  | wait r => r
  | skip r => r
  | emit _ r => r

def map (f : β → γ) : Turn β μ → Turn γ μ
  | wait r => wait (f r)
  | skip r => skip (f r)
  | emit m r => emit m (f r)

/-- Turns until the parser waits. There is no result if a turn fails or the fuel is used up. -/
def loop (turn : β → Option (Turn β μ)) : Nat → β → Option (List μ × β)
  | 0, _ => none
  | fuel + 1, s =>
    match turn s with
    | none => none
    | some (wait r) => some ([], r)
    | some (skip r) => loop turn fuel r
    | some (emit m r) => (loop turn fuel r).map fun p => (m :: p.1, p.2)

/-- Two parsers whose turns correspond hand over the same messages. -/
theorem loop_sim {turn : β → Option (Turn β μ)} {turn' : γ → Option (Turn γ μ)} {f : β → γ}
    (h : ∀ s, turn' (f s) = (turn s).map (map f)) (fuel : Nat) (s : β) :
    loop turn' fuel (f s) = (loop turn fuel s).map fun p => (p.1, f p.2) := by
  induction fuel generalizing s with
  | zero => rfl
  | succ fuel ih =>
    rw [loop, loop, h s]
    cases turn s with
    | none => rfl
    | some t =>
      cases t with
      | wait r => rfl
      | skip r => exact ih r
      | emit m r =>
        show (loop turn' fuel (f r)).map _ = ((loop turn fuel r).map _).map _
        rw [ih r, Option.map_map, Option.map_map]
        rfl

end Turn

open Turn

/-- A parser of which every decision stands when more arrives. -/
structure StreamParser (α μ : Type) where
  next : List α → Turn (List α) μ
  skip_lt : ∀ {s r}, next s = .skip r → r.length < s.length
  emit_lt : ∀ {s m r}, next s = .emit m r → r.length < s.length
  skip_append : ∀ {s r} b, next s = .skip r → next (s ++ b) = .skip (r ++ b)
  emit_append : ∀ {s m r} b, next s = .emit m r → next (s ++ b) = .emit m (r ++ b)
  /-- What waits can stand for what it was left from. -/
  wait_append : ∀ {s r} b, next s = .wait r → next (s ++ b) = next (r ++ b)

namespace StreamParser

variable {α μ : Type} (p : StreamParser α μ)

/-- What the parser hands over from the bytes it has, and what it keeps. -/
def parse (s : List α) : List μ × List α :=
  match h : p.next s with
  | .wait r => ([], r)
  | .skip r =>
    have := p.skip_lt h
    parse r
  | .emit m r =>
    have := p.emit_lt h
    (m :: (parse r).1, (parse r).2)
termination_by s.length

variable {p} {s r : List α} {m : μ}

theorem parse_wait (h : p.next s = .wait r) : p.parse s = ([], r) := by
  rw [parse]
  split <;> simp_all

theorem parse_skip (h : p.next s = .skip r) : p.parse s = p.parse r := by
  rw [parse]
  split <;> simp_all

theorem parse_emit (h : p.next s = .emit m r) :
    p.parse s = (m :: (p.parse r).1, (p.parse r).2) := by
  rw [parse]
  split <;> simp_all

theorem parse_congr {s' : List α} (h : p.next s' = p.next s) : p.parse s' = p.parse s := by
  cases hn : p.next s with
  | wait r => rw [parse_wait hn, parse_wait (h.trans hn)]
  | skip r => rw [parse_skip hn, parse_skip (h.trans hn)]
  | emit m r => rw [parse_emit hn, parse_emit (h.trans hn)]

theorem loop_eq_parse {fuel : Nat} (h : s.length < fuel) :
    loop (fun s => some (p.next s)) fuel s = some (p.parse s) := by
  induction fuel generalizing s with
  | zero => omega
  | succ fuel ih =>
    rw [loop]
    cases hn : p.next s with
    | wait r => rw [parse_wait hn]
    | skip r =>
      have := p.skip_lt hn
      rw [parse_skip hn]
      exact ih (by omega)
    | emit m r =>
      have := p.emit_lt hn
      rw [parse_emit hn]
      show (loop _ fuel r).map _ = _
      rw [ih (by omega)]
      rfl

/-- Parsing what is there and then what was kept with the rest hands over the same as parsing
everything at once. -/
theorem parse_append (s b : List α) : p.parse (s ++ b) =
    ((p.parse s).1 ++ (p.parse ((p.parse s).2 ++ b)).1, (p.parse ((p.parse s).2 ++ b)).2) := by
  induction hlen : s.length using Nat.strongRecOn generalizing s with
  | ind n ih =>
    subst hlen
    cases hn : p.next s with
    | wait r =>
      rw [parse_wait hn, parse_congr (p.wait_append b hn)]
      rfl
    | skip r =>
      rw [parse_skip hn, parse_skip (p.skip_append b hn)]
      exact ih _ (p.skip_lt hn) r rfl
    | emit m r =>
      rw [parse_emit hn, parse_emit (p.emit_append b hn), ih _ (p.emit_lt hn) r rfl]
      rfl

theorem parse_flatMap {frame : μ → List α} {ms : List μ} (hnil : p.next [] = .wait [])
    (h : ∀ m ∈ ms, ∀ rest, p.next (frame m ++ rest) = .emit m rest) :
    p.parse (ms.flatMap frame) = (ms, []) := by
  induction ms with
  | nil => exact parse_wait hnil
  | cons m ms ih =>
    rw [List.flatMap_cons, parse_emit (h m List.mem_cons_self _),
      ih fun m hm => h m (List.mem_cons_of_mem _ hm)]

end StreamParser

/-! ## Looking for a pattern -/

namespace StreamParser

variable {α : Type} [DecidableEq α] {pat s : List α}

/-- The position at which the pattern first occurs, or the end. -/
def search (pat : List α) : List α → Nat
  | [] => 0
  | a :: s => if pat.isPrefixOf (a :: s) then 0 else search pat s + 1

theorem search_le (pat s : List α) : search pat s ≤ s.length := by
  induction s with
  | nil => exact Nat.le_refl 0
  | cons a s ih =>
    rw [search]
    split
    · exact Nat.zero_le _
    · exact Nat.succ_le_succ ih

theorem search_of_prefix (h : pat <+: s) : search pat s = 0 := by
  cases s with
  | nil => rfl
  | cons a s => rw [search, if_pos (List.isPrefixOf_iff_prefix.mpr h)]

theorem prefix_drop_search (h : search pat s < s.length) : pat <+: s.drop (search pat s) := by
  induction s with
  | nil => cases h
  | cons a s ih =>
    rw [search] at h ⊢
    split
    · rename_i hp
      exact List.isPrefixOf_iff_prefix.mp hp
    · rename_i hp
      rw [if_neg hp] at h
      exact ih (by simpa using h)

theorem not_prefix_of_lt_search {i : Nat} (h : i < search pat s) : ¬ pat <+: s.drop i := by
  induction s generalizing i with
  | nil => cases h
  | cons a s ih =>
    rw [search] at h
    split at h
    · cases h
    · rename_i hp
      cases i with
      | zero => exact fun h' => hp (List.isPrefixOf_iff_prefix.mpr h')
      | succ i => exact ih (by omega)

theorem search_drop {k : Nat} (hk : k ≤ s.length) (h : ∀ i < k, ¬ pat <+: s.drop i) :
    search pat s = k + search pat (s.drop k) := by
  induction k generalizing s with
  | zero => rw [Nat.zero_add, List.drop_zero]
  | succ k ih =>
    cases s with
    | nil => cases hk
    | cons a s =>
      have h0 : ¬ pat <+: a :: s := h 0 (Nat.succ_pos k)
      have hrest := ih (s := s) (by simpa using hk) fun i hi => h (i + 1) (by omega)
      rw [search, if_neg (fun h' => h0 (List.isPrefixOf_iff_prefix.mp h')), hrest, List.drop_succ_cons]
      omega

omit [DecidableEq α] in
theorem prefix_drop_append {i : Nat} (b : List α) (h : i + pat.length ≤ s.length) :
    pat <+: (s ++ b).drop i ↔ pat <+: s.drop i := by
  rw [List.drop_append_of_le_length (by omega)]
  constructor
  · intro hp
    exact List.prefix_of_prefix_length_le hp (List.prefix_append _ _)
      (by rw [List.length_drop]; omega)
  · intro hp
    exact hp.trans (List.prefix_append _ _)

theorem search_append (b : List α) (h : search pat s < s.length) :
    search pat (s ++ b) = search pat s := by
  have hfound := prefix_drop_search h
  have hend := hfound.length_le
  rw [List.length_drop] at hend
  rw [search_drop (k := search pat s) (by rw [List.length_append]; omega) ?_,
    search_of_prefix ((prefix_drop_append b (by omega)).mpr hfound)]
  · rfl
  · intro i hi hp
    exact not_prefix_of_lt_search hi ((prefix_drop_append b (by omega)).mp hp)

/-- Of bytes in which the pattern does not end early, a tail of its length or longer is enough to
look for it later. -/
theorem search_append_drop {k : Nat} (b : List α) (hk : k + pat.length ≤ s.length)
    (h : k ≤ search pat s) : search pat (s ++ b) = k + search pat (s.drop k ++ b) := by
  rw [← List.drop_append_of_le_length (by omega)]
  refine search_drop (by rw [List.length_append]; omega) fun i hi hp => ?_
  exact not_prefix_of_lt_search (Nat.lt_of_lt_of_le hi h) ((prefix_drop_append b (by omega)).mp hp)

end StreamParser
