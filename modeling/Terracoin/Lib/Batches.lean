import Mathlib.Data.List.Basic
import Mathlib.Tactic.Common

/-!
# Batches

A list that is sent in messages of at most `n` elements: `add` puts an element at the end and closes
the message when it is full, and `messages` are those that are closed and the rest. Nothing is lost
and the order is kept (`flatten_messages`); no message is empty or longer than `n` (`Within.messages`).
-/

universe u

structure Batches (α : Type u) where
  closed : List (List α)
  rest : List α

namespace Batches

variable {α : Type u} {n : Nat} {b : Batches α}

def empty : Batches α := ⟨[], []⟩

def add (n : Nat) (b : Batches α) (a : α) : Batches α :=
  if n ≤ (b.rest ++ [a]).length then ⟨b.closed ++ [b.rest ++ [a]], []⟩
  else { b with rest := b.rest ++ [a] }

def contents (b : Batches α) : List α := b.closed.flatten ++ b.rest

/-- The messages, the last one of which may not be full. -/
def messages (b : Batches α) : List (List α) :=
  if b.rest.isEmpty then b.closed else b.closed ++ [b.rest]

@[simp] theorem contents_empty : (empty : Batches α).contents = [] := rfl

@[simp] theorem contents_add (n : Nat) (b : Batches α) (a : α) :
    (b.add n a).contents = b.contents ++ [a] := by
  unfold add contents
  split
  · simp
  · simp

theorem flatten_messages (b : Batches α) : b.messages.flatten = b.contents := by
  unfold messages contents
  split
  · rename_i hrest
    rw [List.isEmpty_iff.mp hrest, List.append_nil]
  · simp

/-- No closed message is empty or too long, and there is room for one more element. -/
structure Within (n : Nat) (b : Batches α) : Prop where
  closed : ∀ message ∈ b.closed, message ≠ [] ∧ message.length ≤ n
  rest : b.rest.length < n

theorem Within.empty (hn : 0 < n) : (empty : Batches α).Within n where
  closed _ hmem := absurd hmem List.not_mem_nil
  rest := hn

theorem Within.add (h : b.Within n) (a : α) : (b.add n a).Within n := by
  have hlength : (b.rest ++ [a]).length = b.rest.length + 1 := by simp
  have hrest := h.rest
  unfold Batches.add
  split
  · refine ⟨fun message hmem => ?_, by simp; omega⟩
    rcases List.mem_append.mp hmem with hmem | hmem
    · exact h.closed message hmem
    · rw [List.mem_singleton.mp hmem]
      exact ⟨by simp, by omega⟩
  · rename_i hroom
    exact ⟨h.closed, Nat.lt_of_not_le hroom⟩

theorem Within.messages (h : b.Within n) :
    ∀ message ∈ b.messages, message ≠ [] ∧ message.length ≤ n := by
  unfold Batches.messages
  split
  · exact h.closed
  · rename_i hrest
    intro message hmem
    rcases List.mem_append.mp hmem with hmem | hmem
    · exact h.closed message hmem
    · rw [List.mem_singleton.mp hmem]
      exact ⟨fun hnil => hrest (by rw [hnil]; rfl), Nat.le_of_lt h.rest⟩

end Batches
