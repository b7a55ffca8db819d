import Terracoin.Script.Interpreter

/-!
# Reading instructions

`GetOp2` reads no byte outside of the script, and it reads what the parser `CScript.getOp` reads
from the rest of the script.
-/

namespace Terracoin

namespace CScript

/-! ## What the parser consumes -/

theorem operandSize_append {opcode : UInt8} {pc pc' : CScript} {nSize : Nat}
    (h : operandSize opcode pc = some (nSize, pc')) : ∃ used, pc = used ++ pc' := by
  unfold operandSize at h
  split at h
  · obtain ⟨-, rfl⟩ : _ ∧ pc = pc' := by simpa using h
    exact ⟨[], rfl⟩
  · split at h
    · split at h
      · rename_i a rest
        obtain ⟨-, rfl⟩ : _ ∧ rest = pc' := by simpa using h
        exact ⟨[a], rfl⟩
      · cases h
    · split at h
      · split at h
        · rename_i a b rest
          obtain ⟨-, rfl⟩ : _ ∧ rest = pc' := by simpa using h
          exact ⟨[a, b], rfl⟩
        · cases h
      · split at h
        · split at h
          · rename_i a b c d rest
            obtain ⟨-, rfl⟩ : _ ∧ rest = pc' := by simpa using h
            exact ⟨[a, b, c, d], rfl⟩
          · cases h
        · obtain ⟨-, rfl⟩ : _ ∧ pc = pc' := by simpa using h
          exact ⟨[], rfl⟩

theorem getOp_append {pc next : CScript} {opcode : UInt8} {vch : valtype}
    (h : getOp pc = some (opcode, vch, next)) : ∃ used, pc = opcode :: used ++ next := by
  cases pc with
  | nil => cases h
  | cons b pc =>
    rw [getOp] at h
    cases hsize : operandSize b pc with
    | none =>
      rw [hsize] at h
      cases h
    | some r =>
      obtain ⟨nSize, pc'⟩ := r
      obtain ⟨used, rfl⟩ := operandSize_append hsize
      rw [hsize] at h
      simp only at h
      split at h
      · cases h
      · simp only [Option.some.injEq, Prod.mk.injEq] at h
        obtain ⟨rfl, -, rfl⟩ := h
        exact ⟨used ++ pc'.take nSize, by simp⟩

theorem length_lt_of_getOp {pc next : CScript} {opcode : UInt8} {vch : valtype}
    (h : getOp pc = some (opcode, vch, next)) : next.length < pc.length := by
  obtain ⟨used, rfl⟩ := getOp_append h
  rw [List.length_append, List.length_cons]
  omega

theorem operandSize_of_lt {opcode : UInt8} (pc : CScript) (h : OP_PUSHDATA4 < opcode) :
    operandSize opcode pc = some (0, pc) := by
  have h1 : ¬ opcode < OP_PUSHDATA1 := by
    unfold OP_PUSHDATA4 at h
    unfold OP_PUSHDATA1
    simp only [UInt8.lt_iff_toNat_lt] at *
    simp at *
    omega
  have h2 : opcode ≠ OP_PUSHDATA1 := by
    rintro rfl
    revert h
    decide
  have h3 : opcode ≠ OP_PUSHDATA2 := by
    rintro rfl
    revert h
    decide
  have h4 : opcode ≠ OP_PUSHDATA4 := by
    rintro rfl
    revert h
    decide
  simp only [operandSize, if_neg h1, if_neg h2, if_neg h3, if_neg h4]

theorem getOp_of_lt {opcode : UInt8} (pc : CScript) (h : OP_PUSHDATA4 < opcode) :
    getOp (opcode :: pc) = some (opcode, [], pc) := by
  rw [getOp, operandSize_of_lt pc h]
  simp

theorem operand_eq_nil {pc next : CScript} {opcode : UInt8} {vch : valtype}
    (h : getOp pc = some (opcode, vch, next)) (hop : OP_PUSHDATA4 < opcode) : vch = [] := by
  obtain ⟨used, hused⟩ := getOp_append h
  rw [hused, List.cons_append, getOp_of_lt _ hop] at h
  simp only [Option.some.injEq, Prod.mk.injEq] at h
  exact h.2.1.symm

theorem parse_of_getOp {pc next : CScript} {opcode : UInt8} {vch : valtype} (fuel : Nat)
    (h : getOp pc = some (opcode, vch, next)) :
    parse (fuel + 1) pc = ((opcode, vch) :: (parse fuel next).1, (parse fuel next).2) := by
  cases pc with
  | nil => cases h
  | cons b pc => simp only [parse, h]

end CScript

namespace EvalScript

open CScript

/-! ## Bytes of the script -/

theorem index_eq {vch : List UInt8} {i : Nat} (h : i < vch.length) :
    index vch i = pure vch[i] := by
  rw [index, List.getElem?_eq_getElem h]

theorem index_append (done pc : List UInt8) (b : UInt8) :
    index (done ++ b :: pc) done.length = pure b := by
  rw [index, List.getElem?_append_right (Nat.le_refl _), Nat.sub_self, List.getElem?_cons_zero]

theorem copy_append (done pc : List UInt8) {n : Nat} (h : n ≤ pc.length) :
    copy (done ++ pc) done.length n = pure (pc.take n) := by
  rw [copy, if_pos (by rw [List.length_append]; omega), List.drop_append_of_le_length (Nat.le_refl _),
    List.drop_length, List.nil_append]

theorem readSize_append (done pc : CScript) {opcode : UInt8} (hop : ¬ OP_PUSHDATA4 < opcode) :
    readSize (done ++ pc) opcode done.length =
      pure ((operandSize opcode pc).map fun r => (r.1, done.length + (pc.length - r.2.length))) := by
  have hlength : (done ++ pc).length - done.length = pc.length := by
    rw [List.length_append, Nat.add_sub_cancel_left]
  unfold readSize operandSize
  rw [hlength]
  split
  · simp
  · rename_i h1
    split
    · cases pc with
      | nil => rfl
      | cons a pc =>
        rw [if_neg (by simp), index_append]
        simp
    · rename_i h2
      split
      · obtain _ | ⟨a, _ | ⟨b, pc⟩⟩ := pc
        · rfl
        · rfl
        · rw [if_neg (by simp), copy_append _ _ (by simp)]
          simp [CBigNum.unsigned, Nat.add_assoc]
      · rename_i h3
        have h4 : opcode = OP_PUSHDATA4 := by
          unfold OP_PUSHDATA1 OP_PUSHDATA2 OP_PUSHDATA4 at *
          simp only [← UInt8.toNat_inj, UInt8.lt_iff_toNat_lt] at *
          simp at *
          omega
        rw [if_pos h4]
        obtain _ | ⟨a, _ | ⟨b, _ | ⟨c, _ | ⟨d, pc⟩⟩⟩⟩ := pc
        · rfl
        · rfl
        · rfl
        · rfl
        · have hvalue : CBigNum.unsigned [a, b, c, d] =
              a.toNat + 2 ^ 8 * b.toNat + 2 ^ 16 * c.toNat + 2 ^ 24 * d.toNat := by
            simp only [CBigNum.unsigned]
            omega
          have hlen : (a :: b :: c :: d :: pc).length - pc.length = 4 := by
            simp only [List.length_cons]
            omega
          rw [if_neg (by simp), copy_append _ _ (by simp)]
          simp only [List.take_succ_cons, List.take_zero, Traced.pure_bind, Option.map_some, hvalue,
            hlen]

/-- `GetOp2` is the parser on the rest of the script. -/
theorem getOp2_append (done pc : CScript) :
    getOp2 (done ++ pc) done.length =
      pure ((getOp pc).map fun r => (r.1, r.2.1, done.length + (pc.length - r.2.2.length))) := by
  cases pc with
  | nil =>
    rw [getOp2, if_pos (by simp)]
    rfl
  | cons opcode pc =>
    rw [getOp2, if_neg (by simp), index_append, Traced.pure_bind]
    split
    · rename_i hop
      rw [getOp_of_lt pc hop]
      simp
    · rename_i hop
      have happend : done ++ opcode :: pc = (done ++ [opcode]) ++ pc := by simp
      have hlength : done.length + 1 = (done ++ [opcode]).length := by simp
      rw [happend, hlength, readSize_append _ pc hop, Traced.pure_bind, getOp]
      cases hsize : operandSize opcode pc with
      | none => rfl
      | some r =>
        obtain ⟨nSize, pc'⟩ := r
        obtain ⟨used, rfl⟩ := operandSize_append hsize
        have hpos : (done ++ [opcode]).length + ((used ++ pc').length - pc'.length) =
            (done ++ [opcode] ++ used).length := by
          simp only [List.length_append]
          omega
        have hrest : ((done ++ [opcode] ++ used) ++ pc').length - (done ++ [opcode] ++ used).length =
            pc'.length := by
          rw [List.length_append, Nat.add_sub_cancel_left]
        simp only [Option.map_some, hpos]
        rw [← List.append_assoc, hrest]
        split
        · rfl
        · rename_i hnSize
          rw [copy_append _ _ (Nat.le_of_not_lt hnSize)]
          simp only [Traced.pure_bind, Option.map_some, List.length_append, List.length_cons,
            List.length_nil, List.length_drop]
          congr 4
          omega

theorem getOp2_eq {script : CScript} {pc : Nat} (hpc : pc ≤ script.length) :
    getOp2 script pc = pure ((getOp (script.drop pc)).map fun r =>
      (r.1, r.2.1, script.length - r.2.2.length)) := by
  have h := getOp2_append (script.take pc) (script.drop pc)
  rw [List.take_append_drop, List.length_take, Nat.min_eq_left hpc, List.length_drop] at h
  rw [h]
  cases hop : getOp (script.drop pc) with
  | none => rfl
  | some r =>
    obtain ⟨opcode, vch, next⟩ := r
    have hlength := length_lt_of_getOp hop
    rw [List.length_drop] at hlength
    have hpos : pc + (script.length - pc - next.length) = script.length - next.length := by omega
    simp only [Option.map_some, hpos]

/-- What is read next is the rest of the script after the instruction. -/
theorem drop_of_getOp {script : CScript} {pc : Nat} {opcode : UInt8} {vch : valtype}
    {next : CScript} (hpc : pc ≤ script.length)
    (h : getOp (script.drop pc) = some (opcode, vch, next)) :
    script.drop (script.length - next.length) = next ∧ pc < script.length - next.length ∧
      script.length - next.length ≤ script.length := by
  obtain ⟨used, hused⟩ := getOp_append h
  obtain ⟨before, rfl, hbefore⟩ : ∃ before, script = before ++ next ∧ pc < before.length := by
    refine ⟨script.take pc ++ opcode :: used, ?_, ?_⟩
    · rw [List.append_assoc, ← hused, List.take_append_drop]
    · rw [List.length_append, List.length_take, Nat.min_eq_left hpc, List.length_cons]
      omega
  have hlength : (before ++ next).length - next.length = before.length := by
    rw [List.length_append, Nat.add_sub_cancel]
  rw [hlength]
  exact ⟨List.drop_left, hbefore, by simp⟩

end EvalScript

end Terracoin
