import Terracoin.Lib.Codec

/-!
# Programs that read

A `Program` reads numbers of bytes one after the other, and what it reads next depends on the bytes
so far. `eval` runs it on a list of bytes, as a `Reader`; `attempt` runs it in a file that refuses
some reads, where the sizes of the single reads matter too. Programs compose like readers do
(`eval_bind`, `attempt_bind`).
-/

namespace ReadProgram

open Codec

inductive Program (α : Type) where
  | done (a : α)
  | fail
  | read (n : Nat) (next : List UInt8 → Program α)

variable {α β : Type}

namespace Program

def bind : Program α → (α → Program β) → Program β
  | done a, next => next a
  | fail, _ => fail
  | read n k, next => read n fun bytes => (k bytes).bind next

instance : Monad Program where
  pure := done
  bind := bind

def eval : Program α → Reader α
  | done a => fun s => some (a, s)
  | fail => fun _ => none
  | read n next => fun s => if s.length < n then none else (next (s.take n)).eval (s.drop n)

theorem eval_read (n : Nat) (next : List UInt8 → Program α) (s : List UInt8) :
    (read n next).eval s = if s.length < n then none else (next (s.take n)).eval (s.drop n) := rfl

@[simp] theorem eval_pure (a : α) : (pure a : Program α).eval = pure a := rfl

@[simp] theorem eval_bind (p : Program α) (next : α → Program β) :
    (p >>= next).eval = p.eval >>= fun a => (next a).eval := by
  change (p.bind next).eval = _
  induction p with
  | done a => rfl
  | fail => rfl
  | read n k ih =>
    funext s
    change _ = ((read n k).eval s).bind _
    rw [bind, eval_read, eval_read]
    split
    · rfl
    · rw [ih]
      rfl

theorem length_le_of_eval {p : Program α} {s t : List UInt8} {a : α}
    (h : p.eval s = some (a, t)) : t.length ≤ s.length := by
  induction p generalizing s with
  | done b =>
    cases h
    exact Nat.le_refl _
  | fail => cases h
  | read n next ih =>
    rw [eval_read] at h
    split at h
    · cases h
    · have hle := ih _ h
      rw [List.length_drop] at hle
      omega

/-- `n` bytes at once. -/
def bytes (n : Nat) : Program (List UInt8) := read n done

theorem eval_bytes (n : Nat) : (bytes n).eval = readBytes n := rfl

/-! ## In a file -/

/-- How a program ends that reads a file from some position. -/
inductive Attempt (α : Type) where
  | ok (a : α) (nEnd : Nat)
  /-- The program fails, or a read is refused. -/
  | refused (nEnd : Nat)
  /-- The file ends. -/
  | cut

/-- From position `pos` of a file, if reads beyond `limit` and of more than `room` bytes are refused. -/
def attempt (src : List UInt8) (limit room : Nat) : Program α → Nat → Attempt α
  | done a, pos => .ok a pos
  | fail, pos => .refused pos
  | read n next, pos =>
    if limit < n + pos ∨ room < n then .refused pos
    else if src.length < pos + n then .cut
    else (next ((src.drop pos).take n)).attempt src limit room (pos + n)

section

variable {src : List UInt8} {limit room : Nat}

theorem attempt_bind (p : Program α) (next : α → Program β) (pos : Nat) :
    (p >>= next).attempt src limit room pos = match p.attempt src limit room pos with
      | .ok a nEnd => (next a).attempt src limit room nEnd
      | .refused nEnd => .refused nEnd
      | .cut => .cut := by
  change (p.bind next).attempt src limit room pos = _
  induction p generalizing pos with
  | done a => rfl
  | fail => rfl
  | read n k ih =>
    rw [bind, attempt, attempt]
    split
    · rfl
    · split
      · rfl
      · exact ih _ _

theorem le_of_attempt {p : Program α} {a : α} {pos nEnd : Nat}
    (h : p.attempt src limit room pos = .ok a nEnd) : pos ≤ nEnd := by
  induction p generalizing pos with
  | done b =>
    cases h
    exact Nat.le_refl _
  | fail => cases h
  | read n next ih =>
    rw [attempt] at h
    split at h
    · cases h
    · split at h
      · cases h
      · exact Nat.le_trans (Nat.le_add_right _ _) (ih _ h)

/-- What a program reads from the bytes up to `nEnd` it reads in the file, if `nEnd` is within the
limit and the room is enough for these bytes at once. -/
theorem attempt_of_eval {p : Program α} {a : α} {pos nEnd : Nat} (hle : pos ≤ nEnd)
    (hend : nEnd ≤ src.length) (hlimit : nEnd ≤ limit) (hroom : nEnd - pos ≤ room)
    (h : p.eval (src.drop pos) = some (a, src.drop nEnd)) :
    p.attempt src limit room pos = .ok a nEnd := by
  induction p generalizing pos with
  | done b =>
    change some (b, _) = some (a, _) at h
    obtain ⟨rfl, hdrop⟩ := Prod.mk.inj (Option.some.inj h)
    have hlength := congrArg List.length hdrop
    rw [List.length_drop, List.length_drop] at hlength
    rw [attempt, show pos = nEnd by omega]
  | fail => cases h
  | read n next ih =>
    rw [eval_read] at h
    split at h
    · cases h
    · next hlong =>
      have hrest := length_le_of_eval h
      rw [List.length_drop] at hlong
      rw [List.length_drop, List.length_drop, List.length_drop] at hrest
      rw [List.drop_drop] at h
      rw [attempt, if_neg (by omega), if_neg (by omega)]
      exact ih _ (by omega) (by omega) h

end

/-! ## Loops -/

/-- Run the program `n` times. -/
def many (p : Program α) : Nat → Program (List α)
  | 0 => pure []
  | n + 1 => do
    let a ← p
    let as ← many p n
    pure (a :: as)

theorem eval_many (p : Program α) (n : Nat) : (many p n).eval = readMany p.eval n := by
  induction n with
  | zero => rfl
  | succ n ih => simp only [many, eval_bind, eval_pure, readMany, ih]

/-- `n` elements, at most `step` of them in a round, of a program that reads a number of elements. -/
def chunks (p : Nat → Program (List α)) (step : Nat) : Nat → Nat → Program (List α)
  | 0, _ => pure []
  | _, 0 => pure []
  | fuel + 1, n => do
    let as ← p (min step n)
    let bs ← chunks p step fuel (n - min step n)
    pure (as ++ bs)

theorem eval_chunks {p : Nat → Program (List α)} {read : Reader α}
    (h : ∀ n, (p n).eval = readMany read n) (step fuel n : Nat) :
    (chunks p step fuel n).eval = readChunks read step fuel n := by
  induction fuel generalizing n with
  | zero => rfl
  | succ fuel ih =>
    cases n with
    | zero => rfl
    | succ n =>
      rw [chunks, readChunks, eval_bind, h]
      · simp only [eval_bind, eval_pure, ih]
      · exact Nat.succ_ne_zero n
      · exact Nat.succ_ne_zero n

theorem readMany_readByte (n : Nat) : readMany readByte n = readBytes n := by
  funext s
  induction n generalizing s with
  | zero => rfl
  | succ n ih =>
    cases s with
    | nil => rfl
    | cons b s =>
      change (readMany readByte n s).bind _ = _
      rw [ih, readBytes, readBytes, List.length_cons]
      split_ifs with h h'
      · rfl
      · omega
      · omega
      · rfl

end Program

end ReadProgram
