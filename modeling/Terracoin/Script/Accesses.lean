import Terracoin.Script.Reading

/-!
# What an opcode accesses

Every opcode checks the depth of the stack before it works on it, and no element gets longer than
520 bytes. Only the opcodes for hashes can read a byte outside of an element: all but `OP_HASH256`
take the address of the first byte of the element, also if it is empty. Only the opcodes for
signatures call `CheckSig`, and `OP_CHECKMULTISIG` as often as there are keys at most
(`meets_executeOpcode`).
-/

namespace Terracoin

open Traced (Meets)

namespace EvalScript

open CScript

/-- What a part of an evaluation may do: it stays above the bottom of the stacks, and reads a byte
outside of a vector only if `A`. -/
def contract (A : Prop) : Traced.Contract ScriptEvent ScriptError where
  counted := fun o => o == .checkSig
  allowed := fun o => o ≠ .belowStack ∧ (o = .outOfRange → A)
  failure := fun e => e ≠ .outOfFuel

/-- For parts that only compute a value: no failure, and no event but calls of `CheckSig`. -/
def valueOnly : Traced.Contract ScriptEvent ScriptError where
  counted := fun o => o == .checkSig
  allowed := fun o => o = .checkSig
  failure := fun _ => False

theorem meets_of_valueOnly {A : Prop} {α : Type} {P : α → Prop} {n : Nat} {x : Eval α}
    (h : Meets valueOnly n x P) : Meets (contract A) n x P := by
  refine h.weaken rfl (fun o ho => ?_) fun _ he => he.elim
  obtain rfl : o = .checkSig := ho
  exact ⟨by decide, fun h => nomatch h⟩

/-- Limits for an evaluation, no lower than the ones that are checked. -/
structure Limits where
  /-- for the bytes of an element -/
  element : Nat
  /-- for the elements of both stacks -/
  size : Nat
  le_element : MAX_SCRIPT_ELEMENT_SIZE ≤ element
  le_size : 1000 ≤ size
  size_lt : size < 2 ^ element

def Limits.checked : Limits where
  element := MAX_SCRIPT_ELEMENT_SIZE
  size := 1000
  le_element := Nat.le_refl _
  le_size := Nat.le_refl _
  size_lt := Nat.lt_of_lt_of_le (by decide : 1000 < 2 ^ 10)
    (Nat.pow_le_pow_right Nat.two_pos (by decide))

theorem Limits.le_of_le (l : Limits) {n : Nat} (h : n ≤ MAX_SCRIPT_ELEMENT_SIZE) :
    n ≤ l.element := Nat.le_trans h l.le_element

theorem Limits.exists_of (stack : List valtype) :
    ∃ l : Limits, stack.length ≤ l.size ∧ ∀ vch ∈ stack, vch.length ≤ l.element := by
  have hsum : ∀ vch ∈ stack, vch.length ≤ (stack.map List.length).sum := fun vch h => le_sum_map h
  refine ⟨⟨1000 + stack.length + (stack.map List.length).sum, 1000 + stack.length, ?_, ?_, ?_⟩,
    ?_, ?_⟩
  · unfold MAX_SCRIPT_ELEMENT_SIZE
    omega
  · omega
  · exact Nat.lt_of_le_of_lt (Nat.le_add_right _ _) Nat.lt_two_pow_self
  · exact Nat.le_add_left _ _
  · intro vch hvch
    exact Nat.le_trans (hsum vch hvch) (Nat.le_add_left _ _)

def Small (l : Limits) (stack : List valtype) : Prop := ∀ vch ∈ stack, vch.length ≤ l.element

variable {l : Limits}

theorem Small.cons {vch : valtype} {stack : List valtype} (hs : Small l stack)
    (h : vch.length ≤ l.element) : Small l (vch :: stack) :=
  List.forall_mem_cons.mpr ⟨h, hs⟩

theorem Small.tail {vch : valtype} {stack : List valtype} (hs : Small l (vch :: stack)) :
    Small l stack := (List.forall_mem_cons.mp hs).2

theorem Small.mono {stack stack' : List valtype} (hs : Small l stack) (h : stack' ⊆ stack) :
    Small l stack' := fun vch hvch => hs vch (h hvch)

section

variable {A : Prop} {α : Type} {P : α → Prop} {n : Nat} {stack : List valtype}

theorem meets_returnFalse : Meets (contract A) n (Traced.fail .returnFalse) P :=
  .fail fun h => nomatch h

theorem meets_exception : Meets (contract A) n (Traced.fail .exception) P :=
  .fail fun h => nomatch h

/-! ## Accesses -/

theorem stacktop_eq {i : Nat} (h : i < stack.length) : stacktop stack (i + 1) = pure stack[i] := by
  rw [stacktop, List.getElem?_eq_getElem h]

theorem meets_stacktop (hs : Small l stack) {i : Nat} (hi : 0 < i) (hle : i ≤ stack.length) :
    Meets (contract A) 0 (stacktop stack i) fun vch => vch.length ≤ l.element := by
  obtain ⟨i, rfl⟩ := Nat.exists_eq_succ_of_ne_zero (Nat.ne_of_gt hi)
  rw [Nat.succ_eq_add_one, stacktop_eq hle]
  exact .pure (hs _ (List.getElem_mem hle))

theorem meets_popstack (hs : Small l stack) (h : 0 < stack.length) :
    Meets (contract A) 0 (popstack stack) fun stack' =>
      Small l stack' ∧ stack'.length + 1 = stack.length := by
  cases stack with
  | nil => exact absurd h (Nat.lt_irrefl 0)
  | cons vch stack => exact .pure ⟨hs.tail, rfl⟩

theorem meets_eraseRange (hs : Small l stack) {i j : Nat} (hij : j ≤ i) (hi : i ≤ stack.length) :
    Meets (contract A) 0 (eraseRange stack i j) (Small l) := by
  rw [eraseRange, if_pos ⟨hij, hi⟩]
  refine .pure (hs.mono fun vch hvch => ?_)
  exact (List.mem_append.mp hvch).elim List.mem_of_mem_take List.mem_of_mem_drop

theorem meets_erase (hs : Small l stack) {i : Nat} (hi : 0 < i) (hle : i ≤ stack.length) :
    Meets (contract A) 0 (erase stack i) (Small l) := by
  rw [erase, if_pos hi]
  exact meets_eraseRange hs (Nat.sub_le i 1) hle

theorem meets_insert (hs : Small l stack) {i : Nat} {vch : valtype}
    (hvch : vch.length ≤ l.element) (hi : i ≤ stack.length) :
    Meets (contract A) 0 (insert stack i vch) (Small l) := by
  rw [insert, if_pos hi]
  refine .pure ((hs.cons hvch).mono fun x hx => ?_)
  rcases List.mem_append.mp hx with hx | hx
  · exact List.mem_cons_of_mem _ (List.mem_of_mem_take hx)
  · rcases List.mem_cons.mp hx with rfl | hx
    · exact List.mem_cons_self
    · exact List.mem_cons_of_mem _ (List.mem_of_mem_drop hx)

theorem Small.set (hs : Small l stack) {vch : valtype} (h : vch.length ≤ l.element)
    (i : Nat) : Small l (stack.set i vch) := by
  intro x hx
  rcases List.mem_or_eq_of_mem_set hx with hx | rfl
  · exact hs x hx
  · exact h

theorem meets_swapTop (hs : Small l stack) {i j : Nat} (hi : 0 < i) (hile : i ≤ stack.length)
    (hj : 0 < j) (hjle : j ≤ stack.length) :
    Meets (contract A) 0 (swapTop stack i j) fun stack' =>
      Small l stack' ∧ stack'.length = stack.length := by
  refine .bind_zero (meets_stacktop hs hi hile) fun vch1 h1 => ?_
  refine .bind_zero (meets_stacktop hs hj hjle) fun vch2 h2 => ?_
  exact .pure ⟨(hs.set h2 _).set h1 _, by simp⟩

theorem meets_index {vch : List UInt8} {i : Nat} (h : i < vch.length) :
    Meets valueOnly 0 (index vch i) fun _ => True := by
  rw [index_eq h]
  exact .pure trivial

/-! ## Opcodes that work on the stack -/

theorem meets_twoDrop (hs : Small l stack) : Meets (contract A) 0 (twoDrop stack) (Small l) := by
  refine .ite (fun _ => meets_returnFalse) fun h => ?_
  refine .bind_zero (meets_popstack hs (by omega)) fun stack' hs' => ?_
  exact (meets_popstack hs'.1 (by omega)).imp fun _ h => h.1

theorem meets_twoDup (hs : Small l stack) : Meets (contract A) 0 (twoDup stack) (Small l) := by
  refine .ite (fun _ => meets_returnFalse) fun h => ?_
  refine .bind_zero (meets_stacktop hs (by decide) (by omega)) fun vch1 h1 => ?_
  refine .bind_zero (meets_stacktop hs (by decide) (by omega)) fun vch2 h2 => ?_
  exact .pure ((hs.cons h1).cons h2)

theorem meets_threeDup (hs : Small l stack) : Meets (contract A) 0 (threeDup stack) (Small l) := by
  refine .ite (fun _ => meets_returnFalse) fun h => ?_
  refine .bind_zero (meets_stacktop hs (by decide) (by omega)) fun vch1 h1 => ?_
  refine .bind_zero (meets_stacktop hs (by decide) (by omega)) fun vch2 h2 => ?_
  refine .bind_zero (meets_stacktop hs (by decide) (by omega)) fun vch3 h3 => ?_
  exact .pure (((hs.cons h1).cons h2).cons h3)

theorem meets_twoOver (hs : Small l stack) : Meets (contract A) 0 (twoOver stack) (Small l) := by
  refine .ite (fun _ => meets_returnFalse) fun h => ?_
  refine .bind_zero (meets_stacktop hs (by decide) (by omega)) fun vch1 h1 => ?_
  refine .bind_zero (meets_stacktop hs (by decide) (by omega)) fun vch2 h2 => ?_
  exact .pure ((hs.cons h1).cons h2)

theorem meets_twoRot (hs : Small l stack) : Meets (contract A) 0 (twoRot stack) (Small l) := by
  refine .ite (fun _ => meets_returnFalse) fun h => ?_
  refine .bind_zero (meets_stacktop hs (by decide) (by omega)) fun vch1 h1 => ?_
  refine .bind_zero (meets_stacktop hs (by decide) (by omega)) fun vch2 h2 => ?_
  refine .bind_zero (meets_eraseRange hs (by decide) (by omega)) fun stack' hs' => ?_
  exact .pure ((hs'.cons h1).cons h2)

theorem meets_twoSwap (hs : Small l stack) : Meets (contract A) 0 (twoSwap stack) (Small l) := by
  refine .ite (fun _ => meets_returnFalse) fun h => ?_
  refine .bind_zero (meets_swapTop hs (by decide) (by omega) (by decide) (by omega))
    fun stack' hs' => ?_
  exact (meets_swapTop hs'.1 (by decide) (by omega) (by decide) (by omega)).imp fun _ h => h.1

theorem meets_ifDup (hs : Small l stack) : Meets (contract A) 0 (ifDup stack) (Small l) := by
  refine .ite (fun _ => meets_returnFalse) fun h => ?_
  refine .bind_zero (meets_stacktop hs (by decide) (by omega)) fun vch hvch => .pure ?_
  split
  · exact hs.cons hvch
  · exact hs

theorem length_getVch_le_max {bn : Int} (h : bn.natAbs < 2 ^ 64) :
    (CBigNum.getVch bn).length ≤ l.element :=
  Nat.le_trans (CBigNum.length_getVch_le (k := 8) h) (l.le_of_le (by decide))

theorem length_getVch_size {n : Nat} (h : n < 2 ^ l.element) :
    (CBigNum.getVch n).length ≤ l.element := by
  have helement : 2 ≤ l.element := l.le_of_le (by decide)
  have hpow : 2 ^ l.element ≤ 2 ^ (8 * (l.element - 1)) :=
    Nat.pow_le_pow_right Nat.two_pos (by omega)
  have hle : (CBigNum.getVch n).length ≤ l.element - 1 + 1 :=
    CBigNum.length_getVch_le (by omega)
  omega

theorem meets_depth (hs : Small l stack) (h : stack.length ≤ l.size) :
    Meets (contract A) 0 (depth stack) (Small l) :=
  .pure (hs.cons (length_getVch_size (Nat.lt_of_le_of_lt h l.size_lt)))

theorem meets_drop (hs : Small l stack) : Meets (contract A) 0 (drop stack) (Small l) :=
  .ite (fun _ => meets_returnFalse) fun h => (meets_popstack hs (by omega)).imp fun _ h => h.1

theorem meets_dup (hs : Small l stack) : Meets (contract A) 0 (dup stack) (Small l) := by
  refine .ite (fun _ => meets_returnFalse) fun h => ?_
  refine .bind_zero (meets_stacktop hs (by decide) (by omega)) fun vch hvch => ?_
  exact .pure (hs.cons hvch)

theorem meets_nip (hs : Small l stack) : Meets (contract A) 0 (nip stack) (Small l) :=
  .ite (fun _ => meets_returnFalse) fun h => meets_erase hs (by decide) (by omega)

theorem meets_opOver (hs : Small l stack) : Meets (contract A) 0 (opOver stack) (Small l) := by
  refine .ite (fun _ => meets_returnFalse) fun h => ?_
  refine .bind_zero (meets_stacktop hs (by decide) (by omega)) fun vch hvch => ?_
  exact .pure (hs.cons hvch)

theorem meets_rot (hs : Small l stack) : Meets (contract A) 0 (rot stack) (Small l) := by
  refine .ite (fun _ => meets_returnFalse) fun h => ?_
  refine .bind_zero (meets_swapTop hs (by decide) (by omega) (by decide) (by omega))
    fun stack' hs' => ?_
  exact (meets_swapTop hs'.1 (by decide) (by omega) (by decide) (by omega)).imp fun _ h => h.1

theorem meets_swap (hs : Small l stack) : Meets (contract A) 0 (swap stack) (Small l) :=
  .ite (fun _ => meets_returnFalse) fun h =>
    (meets_swapTop hs (by decide) (by omega) (by decide) (by omega)).imp fun _ h => h.1

theorem meets_tuck (hs : Small l stack) : Meets (contract A) 0 (tuck stack) (Small l) := by
  refine .ite (fun _ => meets_returnFalse) fun h => ?_
  refine .bind_zero (meets_stacktop hs (by decide) (by omega)) fun vch hvch => ?_
  exact meets_insert hs hvch (by omega)

theorem meets_castToBigNum (vch : valtype) :
    Meets (contract A) 0 (castToBigNum vch) fun bn =>
      bn = CBigNum.setVch vch ∧ bn.natAbs < 2 ^ 31 := by
  refine .ite (fun _ => meets_exception) fun h => ?_
  have hlt := CBigNum.natAbs_setVch_lt vch
  have hpow : 2 ^ (8 * vch.length - 1) ≤ 2 ^ 31 :=
    Nat.pow_le_pow_right Nat.two_pos (by unfold nMaxNumSize at h; omega)
  rw [CBigNum.setVch_getVch]
  exact .pure ⟨rfl, by omega⟩

theorem meets_pickRoll (fRoll : Bool) (hs : Small l stack) :
    Meets (contract A) 0 (pickRoll fRoll stack) (Small l) := by
  refine .ite (fun _ => meets_returnFalse) fun h => ?_
  refine .bind_zero (meets_stacktop hs (by decide) (by omega)) fun vch hvch => ?_
  refine .bind_zero (meets_castToBigNum vch) fun bn hbn => ?_
  refine .bind_zero (meets_popstack hs (by omega)) fun stack' hs' => ?_
  refine .ite (fun _ => meets_returnFalse) fun hn => ?_
  refine .bind_zero (meets_stacktop hs'.1 (by omega) (by omega)) fun vch hvch => ?_
  refine .ite (fun _ => ?_) fun _ => .pure (hs'.1.cons hvch)
  refine .bind_zero (meets_erase hs'.1 (by omega) (by omega)) fun stack'' hs'' => ?_
  exact .pure (hs''.cons hvch)

theorem meets_size (hs : Small l stack) : Meets (contract A) 0 (size stack) (Small l) := by
  refine .ite (fun _ => meets_returnFalse) fun h => ?_
  refine .bind_zero (meets_stacktop hs (by decide) (by omega)) fun vch hvch => .pure (hs.cons ?_)
  exact length_getVch_size (Nat.lt_of_le_of_lt hvch Nat.lt_two_pow_self)

theorem length_bool_le (fSuccess : Bool) :
    (if fSuccess then vchTrue else vchFalse).length ≤ l.element := by
  refine l.le_of_le ?_
  cases fSuccess <;> decide

theorem meets_pushResult (fVerify fSuccess : Bool) (hs : Small l stack) :
    Meets (contract A) 0 (pushResult fVerify fSuccess stack) (Small l) := by
  have hresult : Small l ((if fSuccess then vchTrue else vchFalse) :: stack) :=
    hs.cons (length_bool_le fSuccess)
  refine .ite (fun _ => ?_) fun _ => .pure hresult
  refine .ite (fun _ => ?_) fun _ => meets_returnFalse
  exact (meets_popstack hresult (Nat.succ_pos _)).imp fun _ h => h.1

theorem meets_equal (fVerify : Bool) (hs : Small l stack) :
    Meets (contract A) 0 (equal fVerify stack) (Small l) := by
  refine .ite (fun _ => meets_returnFalse) fun h => ?_
  refine .bind_zero (meets_stacktop hs (by decide) (by omega)) fun vch1 _ => ?_
  refine .bind_zero (meets_stacktop hs (by decide) (by omega)) fun vch2 _ => ?_
  refine .bind_zero (meets_popstack hs (by omega)) fun stack' hs' => ?_
  refine .bind_zero (meets_popstack hs'.1 (by omega)) fun stack'' hs'' => ?_
  exact meets_pushResult fVerify _ hs''.1

theorem meets_numeric1 {f : Int → Int} (hs : Small l stack)
    (hf : ∀ bn : Int, bn.natAbs < 2 ^ 31 → (f bn).natAbs < 2 ^ 64) :
    Meets (contract A) 0 (numeric1 f stack) (Small l) := by
  refine .ite (fun _ => meets_returnFalse) fun h => ?_
  refine .bind_zero (meets_stacktop hs (by decide) (by omega)) fun vch _ => ?_
  refine .bind_zero (meets_castToBigNum vch) fun bn hbn => ?_
  refine .bind_zero (meets_popstack hs (by omega)) fun stack' hs' => ?_
  exact .pure (hs'.1.cons (length_getVch_le_max (hf bn hbn.2)))

theorem meets_numeric2 {f : Int → Int → Int} (hs : Small l stack)
    (hf : ∀ bn1 bn2 : Int, bn1.natAbs < 2 ^ 31 → bn2.natAbs < 2 ^ 31 →
      (f bn1 bn2).natAbs < 2 ^ 64) :
    Meets (contract A) 0 (numeric2 f stack) fun stack' => Small l stack' ∧ 0 < stack'.length := by
  refine .ite (fun _ => meets_returnFalse) fun h => ?_
  refine .bind_zero (meets_stacktop hs (by decide) (by omega)) fun vch1 _ => ?_
  refine .bind_zero (meets_castToBigNum vch1) fun bn1 hbn1 => ?_
  refine .bind_zero (meets_stacktop hs (by decide) (by omega)) fun vch2 _ => ?_
  refine .bind_zero (meets_castToBigNum vch2) fun bn2 hbn2 => ?_
  refine .bind_zero (meets_popstack hs (by omega)) fun stack' hs' => ?_
  refine .bind_zero (meets_popstack hs'.1 (by omega)) fun stack'' hs'' => ?_
  exact .pure ⟨hs''.1.cons (length_getVch_le_max (hf bn1 bn2 hbn1.2 hbn2.2)), Nat.succ_pos _⟩

theorem meets_verifyTop (hs : Small l stack) (h : 0 < stack.length) :
    Meets (contract A) 0 (verifyTop stack) (Small l) := by
  refine .bind_zero (meets_stacktop hs (by decide) h) fun vch _ => ?_
  refine .ite (fun _ => ?_) fun _ => meets_returnFalse
  exact (meets_popstack hs h).imp fun _ h => h.1

theorem meets_within (hs : Small l stack) : Meets (contract A) 0 (within stack) (Small l) := by
  refine .ite (fun _ => meets_returnFalse) fun h => ?_
  refine .bind_zero (meets_stacktop hs (by decide) (by omega)) fun vch1 _ => ?_
  refine .bind_zero (meets_castToBigNum vch1) fun bn1 _ => ?_
  refine .bind_zero (meets_stacktop hs (by decide) (by omega)) fun vch2 _ => ?_
  refine .bind_zero (meets_castToBigNum vch2) fun bn2 _ => ?_
  refine .bind_zero (meets_stacktop hs (by decide) (by omega)) fun vch3 _ => ?_
  refine .bind_zero (meets_castToBigNum vch3) fun bn3 _ => ?_
  refine .bind_zero (meets_popstack hs (by omega)) fun stack1 hs1 => ?_
  refine .bind_zero (meets_popstack hs1.1 (by omega)) fun stack2 hs2 => ?_
  refine .bind_zero (meets_popstack hs2.1 (by omega)) fun stack3 hs3 => ?_
  refine .pure (hs3.1.cons (l.le_of_le ?_))
  split <;> decide

theorem meets_verify (hs : Small l stack) : Meets (contract A) 0 (verify stack) (Small l) := by
  refine .ite (fun _ => meets_returnFalse) fun h => ?_
  exact meets_verifyTop hs (by omega)

theorem meets_hashFrom {hash : List UInt8 → valtype} {vch : valtype} (hA : vch = [] → A)
    (hhash : ∀ vch, (hash vch).length ≤ l.element) :
    Meets (contract A) 0 (hashFrom hash vch) fun vchHash =>
      vchHash.length ≤ l.element := by
  cases vch with
  | nil =>
    refine ⟨Nat.le_refl 0, fun o ho => ?_, fun _ he => (nomatch he), fun a ha => ?_⟩
    · obtain rfl : o = .outOfRange := List.mem_singleton.mp ho
      exact ⟨by decide, fun _ => hA rfl⟩
    · exact Except.ok.inj ha ▸ hhash []
  | cons b vch =>
    exact .bind_zero (meets_of_valueOnly (meets_index (Nat.succ_pos _))) fun _ _ => .pure (hhash _)

theorem meets_hashTop {hash : valtype → Eval valtype} (hs : Small l stack)
    (hhash : ∀ vch, stack.head? = some vch → Meets (contract A) 0 (hash vch) fun vchHash =>
      vchHash.length ≤ l.element) :
    Meets (contract A) 0 (hashTop hash stack) (Small l) := by
  refine .ite (fun _ => meets_returnFalse) fun h => ?_
  cases stack with
  | nil => exact absurd Nat.one_pos h
  | cons vch stack =>
    rw [stacktop_eq (Nat.succ_pos _), Traced.pure_bind]
    refine .bind_zero (hhash vch rfl) fun vchHash hvchHash => ?_
    exact .bind_zero (meets_popstack hs (Nat.succ_pos _)) fun stack' hs' =>
      .pure (hs'.1.cons hvchHash)

theorem length_writeUint160_le (a : uint160) :
    (writeUint160 a).length ≤ l.element := by
  rw [length_writeUint160]
  exact l.le_of_le (by decide)

theorem length_writeUint256_le (a : uint256) :
    (writeUint256 a).length ≤ l.element := by
  rw [writeUint256, length_littleEndian]
  exact l.le_of_le (by decide)

/-! ## Opcodes for signatures -/

theorem meets_isCanonicalPubKey (vchPubKey : valtype) :
    Meets valueOnly 0 (isCanonicalPubKey vchPubKey) fun _ => True := by
  refine .ite (fun _ => .pure trivial) fun h => ?_
  refine .bind_zero (meets_index (by omega)) fun b _ => ?_
  refine .ite (fun _ => .pure trivial) fun _ => ?_
  exact .ite (fun _ => .pure trivial) fun _ => .pure trivial

theorem meets_isCanonicalInteger {vchSig : valtype} {m nLen : Nat}
    (h : m + nLen < vchSig.length) :
    Meets valueOnly 0 (isCanonicalInteger vchSig m nLen) fun _ => True := by
  refine .bind_zero (meets_index (by omega)) fun first _ => ?_
  refine .bind_zero (meets_index (by omega)) fun type _ => ?_
  refine .ite (fun _ => .pure trivial) fun _ => ?_
  refine .ite (fun _ => .pure trivial) fun _ => ?_
  refine .ite (fun _ => .pure trivial) fun _ => ?_
  refine .ite (fun hlen => ?_) fun _ => .pure trivial
  exact .bind_zero (meets_index (by omega)) fun _ _ => .pure trivial

theorem meets_isCanonicalSignature (vchSig : valtype) :
    Meets valueOnly 0 (isCanonicalSignature vchSig) fun _ => True := by
  refine .ite (fun _ => .pure trivial) fun h9 => ?_
  refine .ite (fun _ => .pure trivial) fun _ => ?_
  refine .bind_zero (meets_index (by omega)) fun last _ => ?_
  refine .ite (fun _ => .pure trivial) fun _ => ?_
  refine .bind_zero (meets_index (by omega)) fun type _ => ?_
  refine .ite (fun _ => .pure trivial) fun _ => ?_
  refine .bind_zero (meets_index (by omega)) fun nLen _ => ?_
  refine .ite (fun _ => .pure trivial) fun _ => ?_
  refine .bind_zero (meets_index (by omega)) fun nLenR _ => ?_
  refine .ite (fun _ => .pure trivial) fun hR => ?_
  refine .bind_zero (meets_index (by omega)) fun nLenS _ => ?_
  refine .ite (fun _ => .pure trivial) fun hS => ?_
  refine .bind_zero (meets_isCanonicalInteger (by omega)) fun fR _ => ?_
  exact .ite (fun _ => meets_isCanonicalInteger (by omega)) fun _ => .pure trivial

variable (ctx : ScriptContext)

theorem meets_isCanonical (vchSig vchPubKey : valtype) :
    Meets valueOnly 0 (isCanonical ctx vchSig vchPubKey) fun _ => True := by
  refine .ite (fun _ => ?_) fun _ => .pure trivial
  refine .bind_zero (meets_isCanonicalSignature vchSig) fun fSig _ => ?_
  exact .ite (fun _ => meets_isCanonicalPubKey vchPubKey) fun _ => .pure trivial

theorem meets_verifySignature (vchSig vchPubKey : valtype) (scriptCode : CScript) :
    Meets valueOnly 1 (verifySignature ctx vchSig vchPubKey scriptCode) fun _ => True := by
  refine .bind_zero (meets_isCanonical ctx vchSig vchPubKey) fun fCanonical _ => ?_
  refine .ite (fun _ => ?_) fun _ => .pure trivial
  have hemit : Meets valueOnly 1 (Traced.emit .checkSig) fun _ => True := .emit rfl trivial
  exact .bind (n := 0) hemit fun _ _ => .pure trivial

theorem meets_checkSig (fVerify : Bool) {st : ScriptState} (hs : Small l st.stack) :
    Meets (contract A) 1 (checkSig ctx fVerify st) (Small l) := by
  refine .ite (fun _ => meets_returnFalse) fun h => ?_
  refine .bind_zero (meets_stacktop hs (by decide) (by omega)) fun vchSig _ => ?_
  refine .bind_zero (meets_stacktop hs (by decide) (by omega)) fun vchPubKey _ => ?_
  refine .bind (n := 0) (meets_of_valueOnly (meets_verifySignature ctx vchSig vchPubKey _))
    fun fSuccess _ => ?_
  refine .bind_zero (meets_popstack hs (by omega)) fun stack1 hs1 => ?_
  refine .bind_zero (meets_popstack hs1.1 (by omega)) fun stack2 hs2 => ?_
  exact meets_pushResult fVerify fSuccess hs2.1

theorem meets_dropSignatures (hs : Small l stack) {n i : Nat} (hi : 0 < i)
    (h : i + n ≤ stack.length + 1) (scriptCode : CScript) :
    Meets (contract A) 0 (dropSignatures stack n i scriptCode) fun _ => True := by
  induction n generalizing i scriptCode with
  | zero => exact .pure trivial
  | succ n ih =>
    refine .bind_zero (meets_stacktop hs hi (by omega)) fun vchSig _ => ?_
    exact ih (Nat.succ_pos i) (by omega) _

/-- A key is checked once at most. -/
theorem meets_matchSignatures (hs : Small l stack) (scriptCode : CScript)
    {nKeysCount ikey isig nSigsCount : Nat} (hikey : 0 < ikey) (hisig : 0 < isig)
    (hkeys : ikey + nKeysCount ≤ stack.length + 1) (hsigs : isig + nSigsCount ≤ stack.length + 1) :
    Meets (contract A) nKeysCount
      (matchSignatures ctx stack scriptCode nKeysCount ikey isig nSigsCount) fun _ => True := by
  induction nKeysCount generalizing ikey isig nSigsCount with
  | zero =>
    cases nSigsCount with
    | zero => exact .pure trivial
    | succ nSigsCount => exact .pure trivial
  | succ nKeysCount ih =>
    cases nSigsCount with
    | zero => exact .pure trivial
    | succ nSigsCount =>
      refine .mono ?_ (Nat.le_of_eq (Nat.add_comm 1 nKeysCount)) fun _ h => h
      refine .bind_zero (meets_stacktop hs hisig (by omega)) fun vchSig _ => ?_
      refine .bind_zero (meets_stacktop hs hikey (by omega)) fun vchPubKey _ => ?_
      refine .bind (meets_of_valueOnly (meets_verifySignature ctx vchSig vchPubKey scriptCode))
        fun fOk _ => ?_
      refine .ite (fun _ => ?_) fun _ => ?_
      · exact ih (Nat.succ_pos ikey) (Nat.succ_pos isig) (by omega) (by omega)
      · refine .ite (fun _ => .pure trivial) fun _ => ?_
        exact ih (Nat.succ_pos ikey) hisig (by omega) hsigs

theorem meets_popMany (hs : Small l stack) {i : Nat} (h : i ≤ stack.length) :
    Meets (contract A) 0 (popMany i stack) (Small l) := by
  induction i generalizing stack with
  | zero => exact .pure hs
  | succ i ih =>
    exact .bind_zero (meets_popstack hs (by omega)) fun stack' hs' => ih hs'.1 (by omega)

theorem meets_checkSignatures (fVerify : Bool) (nKeysCount : Nat) {st : ScriptState}
    (hs : Small l st.stack) :
    Meets (contract A) nKeysCount (checkSignatures ctx fVerify nKeysCount st) (Small l) := by
  refine .ite (fun _ => meets_returnFalse) fun h => ?_
  refine .bind_zero (meets_stacktop hs (by omega) (by omega)) fun vch _ => ?_
  refine .bind_zero (meets_castToBigNum vch) fun bn _ => ?_
  refine .ite (fun _ => meets_returnFalse) fun hn => ?_
  refine .ite (fun _ => meets_returnFalse) fun hlen => ?_
  refine .bind_zero (meets_dropSignatures hs (by omega) (by omega) _) fun scriptCode _ => ?_
  refine .bind (n := 0) (meets_matchSignatures ctx hs scriptCode (by decide) (by omega) (by omega)
    (by omega)) fun fSuccess _ => ?_
  refine .bind_zero (meets_popMany hs (by omega)) fun stack' hs' => ?_
  exact meets_pushResult fVerify fSuccess hs'

def numberOnTop : List valtype → Nat
  | [] => 0
  | vch :: _ => (CBigNum.getInt (CBigNum.setVch vch)).toNat

/-- Both stacks have small elements only. -/
structure Fits (l : Limits) (st : ScriptState) : Prop where
  stack : Small l st.stack
  altstack : Small l st.altstack

theorem meets_checkMultiSig (fVerify : Bool) {st : ScriptState} (hst : Fits l st) :
    Meets (contract A) (min 20 (numberOnTop st.stack)) (checkMultiSig ctx fVerify st) (Fits l) := by
  refine .ite (fun _ => meets_returnFalse) fun h => ?_
  cases hstack : st.stack with
  | nil => exact absurd (by rw [hstack]; decide) h
  | cons vch stack =>
    rw [stacktop_eq (Nat.succ_pos _), Traced.pure_bind]
    refine .bind_zero (meets_castToBigNum _) fun bn hbn => ?_
    obtain ⟨rfl, -⟩ := hbn
    refine .ite (fun _ => meets_returnFalse) fun hn => ?_
    refine .ite (fun _ => meets_returnFalse) fun _ => ?_
    have hcount : (CBigNum.getInt (CBigNum.setVch vch)).toNat ≤
        min 20 (numberOnTop (vch :: stack)) := by
      rw [List.getElem_cons_zero] at hn
      exact le_min (by omega) (Nat.le_refl _)
    refine .mono (.bind (n := 0) (meets_checkSignatures ctx fVerify _ hst.stack)
      fun stack' hs' => .pure ?_) hcount fun _ h => h
    exact ⟨hs', hst.altstack⟩

/-! ## Control and the altstack -/

theorem meets_onStack {f : List valtype → Eval (List valtype)} {st : ScriptState} (hst : Fits l st)
    (hf : Meets (contract A) n (f st.stack) (Small l)) : Meets (contract A) n (onStack f st) (Fits l) :=
  .bind (n := 0) hf fun _ hs' => .pure ⟨hs', hst.altstack⟩

theorem meets_opIf (fNot : Bool) {st : ScriptState} (hst : Fits l st) :
    Meets (contract A) 0 (opIf fNot st) (Fits l) := by
  refine .ite (fun _ => ?_) fun _ => .pure ⟨hst.stack, hst.altstack⟩
  refine .ite (fun _ => meets_returnFalse) fun h => ?_
  refine .bind_zero (meets_stacktop hst.stack (by decide) (by omega)) fun vch _ => ?_
  exact .bind_zero (meets_popstack hst.stack (by omega)) fun stack' hs' =>
    .pure ⟨hs'.1, hst.altstack⟩

theorem meets_opElse {st : ScriptState} (hst : Fits l st) :
    Meets (contract A) 0 (opElse st) (Fits l) := by
  unfold opElse
  split
  · exact meets_returnFalse
  · exact .pure ⟨hst.stack, hst.altstack⟩

theorem meets_opEndif {st : ScriptState} (hst : Fits l st) :
    Meets (contract A) 0 (opEndif st) (Fits l) := by
  unfold opEndif
  split
  · exact meets_returnFalse
  · exact .pure ⟨hst.stack, hst.altstack⟩

theorem meets_toAltStack {st : ScriptState} (hst : Fits l st) :
    Meets (contract A) 0 (toAltStack st) (Fits l) := by
  refine .ite (fun _ => meets_returnFalse) fun h => ?_
  refine .bind_zero (meets_stacktop hst.stack (by decide) (by omega)) fun vch hvch => ?_
  exact .bind_zero (meets_popstack hst.stack (by omega)) fun stack' hs' =>
    .pure ⟨hs'.1, hst.altstack.cons hvch⟩

theorem meets_fromAltStack {st : ScriptState} (hst : Fits l st) :
    Meets (contract A) 0 (fromAltStack st) (Fits l) := by
  refine .ite (fun _ => meets_returnFalse) fun h => ?_
  refine .bind_zero (meets_stacktop hst.altstack (by decide) (by omega)) fun vch hvch => ?_
  exact .bind_zero (meets_popstack hst.altstack (by omega)) fun altstack' hs' =>
    .pure ⟨hst.stack.cons hvch, hs'.1⟩

/-! ## The switch -/

/-- The opcodes that take the address of the first byte of an element. -/
def takesAddress : Opcode → Bool
  | .OP_RIPEMD160 | .OP_SHA1 | .OP_SHA256 | .OP_HASH160 => true
  | _ => false

/-- How often an opcode calls `CheckSig` at most. -/
def sigChecks (stack : List valtype) : Opcode → Nat
  | .OP_CHECKSIG | .OP_CHECKSIGVERIFY => 1
  | .OP_CHECKMULTISIG | .OP_CHECKMULTISIGVERIFY => min 20 (numberOnTop stack)
  | _ => 0

theorem outOfRange_hashTop (hash : List UInt8 → valtype) {stack : List valtype}
    (h : stack.head? = some []) : .outOfRange ∈ (hashTop (hashFrom hash) stack).trace := by
  cases stack with
  | nil => cases h
  | cons vch stack =>
    obtain rfl : vch = [] := Option.some.inj h
    exact List.mem_cons_self

theorem outOfRange_onStack {f : List valtype → Eval (List valtype)} {st : ScriptState}
    (h : .outOfRange ∈ (f st.stack).trace) : .outOfRange ∈ (onStack f st).trace :=
  Traced.mem_trace_bind.mpr (Or.inl h)

theorem natAbs_ofBool_lt (b : Bool) : (ofBool b).natAbs < 2 ^ 64 := by
  cases b <;> decide

theorem meets_hash160 {hash : List UInt8 → uint160} {st : ScriptState} (hst : Fits l st)
    (hA : st.stack.head? = some [] → A) :
    Meets (contract A) 0 (onStack (hashTop (hashFrom fun vch => writeUint160 (hash vch))) st)
      (Fits l) := by
  refine meets_onStack hst (meets_hashTop hst.stack fun vch hvch => ?_)
  exact meets_hashFrom (fun hnil => hA (hnil ▸ hvch)) fun _ => length_writeUint160_le _

theorem meets_hash256 {hash : List UInt8 → uint256} {st : ScriptState} (hst : Fits l st)
    (hA : st.stack.head? = some [] → A) :
    Meets (contract A) 0 (onStack (hashTop (hashFrom fun vch => writeUint256 (hash vch))) st)
      (Fits l) := by
  refine meets_onStack hst (meets_hashTop hst.stack fun vch hvch => ?_)
  exact meets_hashFrom (fun hnil => hA (hnil ▸ hvch)) fun _ => length_writeUint256_le _

variable [ScriptHashing] [ByteHashing] [ByteHashing160]

theorem meets_executeOpcode (pc : Nat) {st : ScriptState} (hst : Fits l st)
    (hlength : st.stack.length ≤ l.size) (op : Opcode)
    (hA : takesAddress op = true → st.stack.head? = some [] → A) :
    Meets (contract A) (sigChecks st.stack op) (executeOpcode ctx pc st op) (Fits l) := by
  have hs := hst.stack
  cases op with
  | OP_NOP => exact .pure hst
  | OP_IF => exact meets_opIf false hst
  | OP_NOTIF => exact meets_opIf true hst
  | OP_ELSE => exact meets_opElse hst
  | OP_ENDIF => exact meets_opEndif hst
  | OP_VERIFY => exact meets_onStack hst (meets_verify hs)
  | OP_RETURN => exact meets_returnFalse
  | OP_TOALTSTACK => exact meets_toAltStack hst
  | OP_FROMALTSTACK => exact meets_fromAltStack hst
  | OP_2DROP => exact meets_onStack hst (meets_twoDrop hs)
  | OP_2DUP => exact meets_onStack hst (meets_twoDup hs)
  | OP_3DUP => exact meets_onStack hst (meets_threeDup hs)
  | OP_2OVER => exact meets_onStack hst (meets_twoOver hs)
  | OP_2ROT => exact meets_onStack hst (meets_twoRot hs)
  | OP_2SWAP => exact meets_onStack hst (meets_twoSwap hs)
  | OP_IFDUP => exact meets_onStack hst (meets_ifDup hs)
  | OP_DEPTH => exact meets_onStack hst (meets_depth hs hlength)
  | OP_DROP => exact meets_onStack hst (meets_drop hs)
  | OP_DUP => exact meets_onStack hst (meets_dup hs)
  | OP_NIP => exact meets_onStack hst (meets_nip hs)
  | OP_OVER => exact meets_onStack hst (meets_opOver hs)
  | OP_PICK => exact meets_onStack hst (meets_pickRoll false hs)
  | OP_ROLL => exact meets_onStack hst (meets_pickRoll true hs)
  | OP_ROT => exact meets_onStack hst (meets_rot hs)
  | OP_SWAP => exact meets_onStack hst (meets_swap hs)
  | OP_TUCK => exact meets_onStack hst (meets_tuck hs)
  | OP_SIZE => exact meets_onStack hst (meets_size hs)
  | OP_EQUAL => exact meets_onStack hst (meets_equal false hs)
  | OP_EQUALVERIFY => exact meets_onStack hst (meets_equal true hs)
  | OP_1ADD => exact meets_onStack hst (meets_numeric1 hs fun bn _ => by omega)
  | OP_1SUB => exact meets_onStack hst (meets_numeric1 hs fun bn _ => by omega)
  | OP_NEGATE => exact meets_onStack hst (meets_numeric1 hs fun bn _ => by omega)
  | OP_ABS => exact meets_onStack hst (meets_numeric1 hs fun bn _ => by split <;> omega)
  | OP_NOT => exact meets_onStack hst (meets_numeric1 hs fun _ _ => natAbs_ofBool_lt _)
  | OP_0NOTEQUAL => exact meets_onStack hst (meets_numeric1 hs fun _ _ => natAbs_ofBool_lt _)
  | OP_ADD =>
    exact meets_onStack hst ((meets_numeric2 hs fun bn1 bn2 _ _ => by omega).imp fun _ h => h.1)
  | OP_SUB =>
    exact meets_onStack hst ((meets_numeric2 hs fun bn1 bn2 _ _ => by omega).imp fun _ h => h.1)
  | OP_NUMEQUALVERIFY =>
    rw [executeOpcode]
    refine meets_onStack hst ?_
    exact .bind_zero (meets_numeric2 hs fun _ _ _ _ => natAbs_ofBool_lt _)
      fun stack' hs' => meets_verifyTop hs'.1 hs'.2
  | OP_MIN =>
    exact meets_onStack hst
      ((meets_numeric2 hs fun bn1 bn2 _ _ => by split <;> omega).imp fun _ h => h.1)
  | OP_MAX =>
    exact meets_onStack hst
      ((meets_numeric2 hs fun bn1 bn2 _ _ => by split <;> omega).imp fun _ h => h.1)
  | OP_BOOLAND | OP_BOOLOR | OP_NUMEQUAL | OP_NUMNOTEQUAL | OP_LESSTHAN | OP_GREATERTHAN
  | OP_LESSTHANOREQUAL | OP_GREATERTHANOREQUAL =>
    exact meets_onStack hst
      ((meets_numeric2 hs fun _ _ _ _ => natAbs_ofBool_lt _).imp fun _ h => h.1)
  | OP_WITHIN => exact meets_onStack hst (meets_within hs)
  | OP_RIPEMD160 | OP_SHA1 | OP_HASH160 => exact meets_hash160 hst (hA rfl)
  | OP_SHA256 => exact meets_hash256 hst (hA rfl)
  | OP_HASH256 =>
    exact meets_onStack hst (meets_hashTop hs fun _ _ => .pure (length_writeUint256_le _))
  | OP_CODESEPARATOR => exact .pure ⟨hs, hst.altstack⟩
  | OP_CHECKSIG =>
    rw [executeOpcode]
    refine meets_onStack hst ?_
    exact meets_checkSig ctx false hs
  | OP_CHECKSIGVERIFY =>
    rw [executeOpcode]
    refine meets_onStack hst ?_
    exact meets_checkSig ctx true hs
  | OP_CHECKMULTISIG => exact meets_checkMultiSig ctx false hst
  | OP_CHECKMULTISIGVERIFY => exact meets_checkMultiSig ctx true hst

end

end EvalScript

end Terracoin
