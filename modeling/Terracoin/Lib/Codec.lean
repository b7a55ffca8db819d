import Mathlib.Algebra.GroupWithZero.Nat
import Mathlib.Data.List.Basic

/-!
# Reading what was written

A reader takes a value off the front of a list of bytes or fails. `Decodes r bytes a` says that
`r` takes exactly `bytes` off, whatever follows them, and yields `a`. A format is shown to round
trip by composing such facts along the reader (`Decodes.bind`, `Decodes.many`).
-/

namespace Codec

abbrev Reader (α : Type) := StateT (List UInt8) Option α

variable {α β : Type}

def readByte : Reader UInt8
  | [] => none
  | b :: s => some (b, s)

def readBytes (n : Nat) : Reader (List UInt8) := fun s =>
  if s.length < n then none else some (s.take n, s.drop n)

/-- Read `n` values one after the other. -/
def readMany (read : Reader α) : Nat → Reader (List α)
  | 0 => pure []
  | n + 1 => do
    let a ← read
    let as ← readMany read n
    pure (a :: as)

def readLoop {σ : Type} (body : σ → Reader σ) : Nat → σ → Reader σ
  | 0, s => pure s
  | n + 1, s => do
    let s1 ← body s
    readLoop body n s1

/-- The reader takes exactly these bytes off any input that starts with them. -/
def Decodes (read : Reader α) (bytes : List UInt8) (a : α) : Prop :=
  ∀ rest, read (bytes ++ rest) = some (a, rest)

theorem Decodes.pure (a : α) : Decodes (pure a) [] a := fun _ => rfl

theorem Decodes.bind {read : Reader α} {next : α → Reader β} {bytes bytes' : List UInt8} {a : α}
    {b : β} (ha : Decodes read bytes a) (hb : Decodes (next a) bytes' b) :
    Decodes (read >>= next) (bytes ++ bytes') b := by
  intro rest
  change (read (bytes ++ bytes' ++ rest)).bind (fun p => next p.1 p.2) = _
  rw [List.append_assoc, ha]
  exact hb rest

theorem Decodes.map {read : Reader α} {bytes : List UInt8} {a : α} (f : α → β)
    (h : Decodes read bytes a) : Decodes (f <$> read) bytes (f a) := by
  intro rest
  change (read (bytes ++ rest)).bind (fun p => some (f p.1, p.2)) = _
  rw [h]
  rfl

theorem Decodes.byte (b : UInt8) : Decodes readByte [b] b := fun _ => rfl

theorem Decodes.bytes (s : List UInt8) : Decodes (readBytes s.length) s s := by
  intro rest
  rw [readBytes, if_neg (by rw [List.length_append]; omega), List.take_left, List.drop_left]

theorem Decodes.many {read : Reader β} {write : α → List UInt8} {value : α → β} {as : List α}
    (h : ∀ a ∈ as, Decodes read (write a) (value a)) :
    Decodes (readMany read as.length) (as.flatMap write) (as.map value) := by
  induction as with
  | nil => exact Decodes.pure []
  | cons a as ih =>
    rw [List.flatMap_cons]
    refine Decodes.bind (h a List.mem_cons_self) ?_
    have hrest := ih fun b hb => h b (List.mem_cons_of_mem _ hb)
    rw [← List.append_nil (as.flatMap write)]
    exact Decodes.bind hrest (Decodes.pure _)

theorem Decodes.loop {σ : Type} {body : σ → Reader σ} {write : α → List UInt8} {next : σ → α → σ}
    {as : List α} (h : ∀ a ∈ as, ∀ s, Decodes (body s) (write a) (next s a)) (s : σ) :
    Decodes (readLoop body as.length s) (as.flatMap write) (as.foldl next s) := by
  induction as generalizing s with
  | nil => exact Decodes.pure s
  | cons a as ih =>
    rw [List.flatMap_cons]
    exact Decodes.bind (h a List.mem_cons_self s) (ih (fun b hb => h b (List.mem_cons_of_mem _ hb)) _)

theorem bind_eq_some {read : Reader α} {next : α → Reader β} {s s' : List UInt8} {b : β} :
    (read >>= next) s = some (b, s') ↔
      ∃ a s1, read s = some (a, s1) ∧ next a s1 = some (b, s') := by
  change (read s).bind (fun p => next p.1 p.2) = _ ↔ _
  rw [Option.bind_eq_some_iff]
  constructor
  · rintro ⟨⟨a, s1⟩, h1, h2⟩
    exact ⟨a, s1, h1, h2⟩
  · rintro ⟨a, s1, h1, h2⟩
    exact ⟨(a, s1), h1, h2⟩

/-! ## What a reader takes off -/

/-- Whatever it is given, the reader fails or takes some bytes off the front, and `P` holds of the
value and their number. -/
def Takes (read : Reader α) (P : α → Nat → Prop) : Prop :=
  ∀ s a rest, read s = some (a, rest) → ∃ used, s = used ++ rest ∧ P a used.length

theorem Takes.mono {read : Reader α} {P Q : α → Nat → Prop} (h : Takes read P)
    (hPQ : ∀ a n, P a n → Q a n) : Takes read Q := by
  intro s a rest hread
  obtain ⟨used, hs, hP⟩ := h s a rest hread
  exact ⟨used, hs, hPQ a _ hP⟩

theorem Takes.bind {read : Reader α} {next : α → Reader β} {P : α → Nat → Prop}
    {Q : β → Nat → Prop} (ha : Takes read P)
    (hb : ∀ a n, P a n → Takes (next a) fun b m => Q b (n + m)) : Takes (read >>= next) Q := by
  intro s b rest h
  obtain ⟨a, s1, hread, hnext⟩ := bind_eq_some.mp h
  obtain ⟨used, rfl, hP⟩ := ha s a s1 hread
  obtain ⟨used', rfl, hQ⟩ := hb a _ hP s1 b rest hnext
  refine ⟨used ++ used', (List.append_assoc ..).symm, ?_⟩
  rwa [List.length_append]

theorem Takes.pure {P : α → Nat → Prop} {a : α} (h : P a 0) : Takes (pure a) P := by
  intro s b rest hread
  cases hread
  exact ⟨[], rfl, h⟩

theorem Takes.map {read : Reader α} {P : β → Nat → Prop} (f : α → β)
    (h : Takes read fun a n => P (f a) n) : Takes (f <$> read) P := by
  intro s b rest hread
  change (read s).bind (fun p => some (f p.1, p.2)) = _ at hread
  obtain ⟨⟨a, s1⟩, h1, h2⟩ := Option.bind_eq_some_iff.mp hread
  cases h2
  exact h s a s1 h1

theorem Takes.byte : Takes readByte fun _ n => n = 1 := by
  intro s b rest h
  cases s with
  | nil => cases h
  | cons c s =>
    cases h
    exact ⟨[b], rfl, rfl⟩

theorem Takes.many {read : Reader α} {size : α → Nat} (h : Takes read fun a n => size a ≤ n)
    (k : Nat) : Takes (readMany read k) fun as n => as.length = k ∧ (as.map size).sum ≤ n := by
  induction k with
  | zero => exact .pure ⟨rfl, Nat.le_refl 0⟩
  | succ k ih =>
    refine .bind h fun a n ha => .bind ih ?_
    rintro as m ⟨hlen, hsum⟩
    refine .pure ⟨by rw [List.length_cons, hlen], ?_⟩
    rw [List.map_cons, List.sum_cons]
    omega

/-- A format: the reader takes back the values that fit, `size` counts the bytes that are written,
and whatever is read takes no more bytes than that. -/
structure Format (fits : α → Prop) (write : α → List UInt8) (read : Reader α) (size : α → Nat) :
    Prop where
  decodes : ∀ a, fits a → Decodes read (write a) a
  length : ∀ a, (write a).length = size a
  takes : Takes read fun a n => size a ≤ n

/-! ## Reading in chunks -/

/-- Read `n` values, at most `step` of them in a round. No more rounds than values, so their
number is enough fuel. -/
def readChunks (read : Reader α) (step : Nat) : Nat → Nat → Reader (List α)
  | 0, _ => pure []
  | _, 0 => pure []
  | fuel + 1, n => do
    let as ← readMany read (min step n)
    let bs ← readChunks read step fuel (n - min step n)
    pure (as ++ bs)

theorem readMany_add (read : Reader α) (n m : Nat) : readMany read (n + m) = (do
    let as ← readMany read n
    let bs ← readMany read m
    pure (as ++ bs)) := by
  induction n with
  | zero => simp [readMany]
  | succ n ih => simp [readMany, ih, Nat.succ_add]

theorem readChunks_eq {read : Reader α} {step fuel n : Nat} (hstep : 0 < step) (hfuel : n ≤ fuel) :
    readChunks read step fuel n = readMany read n := by
  induction fuel generalizing n with
  | zero =>
    obtain rfl : n = 0 := by omega
    rfl
  | succ fuel ih =>
    cases n with
    | zero => rfl
    | succ n =>
      rw [readChunks, ih (by omega), ← readMany_add, Nat.add_sub_cancel' (Nat.min_le_right _ _)]
      exact nofun

theorem Decodes.eq {read : Reader α} {bytes : List UInt8} {a b : α} {s : List UInt8}
    (h : Decodes read bytes a) {rest : List UInt8} (hread : read (bytes ++ rest) = some (b, s)) :
    a = b ∧ rest = s := by
  rw [h rest, Option.some.injEq, Prod.mk.injEq] at hread
  exact hread

end Codec
