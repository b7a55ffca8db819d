import Terracoin.Script.MultiSig
import Terracoin.Script.Verify

/-!
# Evaluation of a script as a fold

A script that can be read to its end is a list of instructions (`Reads`), and without
`OP_CODESEPARATOR` their positions do not matter: `EvalScript` performs one after the other
(`result_evalScript_eq`). Then come the instructions that payments are made of, and `FindAndDelete`
of a signature, which leaves a script alone unless it pushes the signature.
-/

namespace Terracoin

open Traced (fail)

namespace CScript

theorem operandSize_length {opcode : UInt8} {pc pc' : CScript} {nSize : Nat}
    (h : operandSize opcode pc = some (nSize, pc')) : pc.length ≤ pc'.length + 4 := by
  unfold operandSize at h
  split at h
  · cases h
    omega
  · split at h
    · split at h
      · cases h
        rw [List.length_cons]
        omega
      · cases h
    · split at h
      · split at h
        · cases h
          rw [List.length_cons, List.length_cons]
          omega
        · cases h
      · split at h
        · split at h
          · cases h
            rw [List.length_cons, List.length_cons, List.length_cons, List.length_cons]
          · cases h
        · cases h
          omega

theorem length_le_of_getOp {pc next : CScript} {opcode : UInt8} {vch : valtype}
    (h : getOp pc = some (opcode, vch, next)) : pc.length ≤ next.length + vch.length + 5 := by
  cases pc with
  | nil => cases h
  | cons b pc =>
    rw [getOp] at h
    cases hsize : operandSize b pc with
    | none =>
      rw [hsize] at h
      cases h
    | some r =>
      obtain ⟨nSize, pc'⟩ := r
      have hpc := operandSize_length hsize
      rw [hsize] at h
      dsimp only at h
      split at h
      · cases h
      · simp only [Option.some.injEq, Prod.mk.injEq] at h
        obtain ⟨-, rfl, rfl⟩ := h
        rw [List.length_cons, List.length_drop, List.length_take]
        omega

/-- The script starts with the instructions, and `rest` is left. -/
inductive Reads : CScript → List (UInt8 × valtype) → CScript → Prop
  | nil (s : CScript) : Reads s [] s
  | cons {pc next rest : CScript} {opcode : UInt8} {vch : valtype}
      {ops : List (UInt8 × valtype)} :
      getOp pc = some (opcode, vch, next) → Reads next ops rest → Reads pc ((opcode, vch) :: ops) rest

namespace Reads

variable {s next rest : CScript} {ops ops' : List (UInt8 × valtype)}

theorem append (h : Reads s ops next) (h' : Reads next ops' rest) : Reads s (ops ++ ops') rest := by
  induction h with
  | nil s => exact h'
  | cons hop _ ih => exact .cons hop (ih h')

theorem parse_eq (h : Reads s ops []) {fuel : Nat} (hfuel : s.length ≤ fuel) :
    parse fuel s = (ops, true) := by
  generalize hnil : ([] : CScript) = rest at h
  induction h generalizing fuel with
  | nil s =>
    subst hnil
    cases fuel <;> rfl
  | cons hop _ ih =>
    have hlt := length_lt_of_getOp hop
    obtain ⟨fuel, rfl⟩ : ∃ n, fuel = n + 1 := ⟨fuel - 1, by omega⟩
    rw [parse_of_getOp fuel hop, ih (by omega) hnil]

theorem ops_eq (h : Reads s ops []) : s.ops = (ops, true) := h.parse_eq (Nat.le_refl _)

theorem le_length (h : Reads s ops rest) :
    s.length ≤ rest.length + (ops.map fun op => op.2.length + 5).sum := by
  induction h with
  | nil s => exact Nat.le_add_right _ _
  | cons hop _ ih =>
    have := length_le_of_getOp hop
    rw [List.map_cons, List.sum_cons]
    dsimp only
    omega

theorem operand_eq_nil (h : Reads s ops rest) :
    ∀ op ∈ ops, OP_PUSHDATA4 < op.1 → op.2 = [] := by
  induction h with
  | nil s => exact fun _ h => absurd h List.not_mem_nil
  | cons hop _ ih =>
    intro op hmem hlt
    obtain rfl | hmem := List.mem_cons.mp hmem
    · exact CScript.operand_eq_nil hop hlt
    · exact ih op hmem hlt

theorem le_pushdata (h : Reads s ops rest) {opcode : UInt8} {vch : valtype}
    (hmem : (opcode, vch) ∈ ops) (hne : vch ≠ []) : opcode ≤ OP_PUSHDATA4 :=
  UInt8.not_lt.mp fun hlt => hne (h.operand_eq_nil _ hmem hlt)

theorem single {opcode : UInt8} (hop : OP_PUSHDATA4 < opcode) (pc : CScript) :
    Reads (opcode :: pc) [(opcode, [])] pc :=
  .cons (getOp_of_lt pc hop) (.nil pc)

end Reads

/-! ## Pushes -/

def pushOpcode (b : valtype) : UInt8 :=
  if b.length < OP_PUSHDATA1.toNat then UInt8.ofNat b.length
  else if b.length ≤ 0xff then OP_PUSHDATA1
  else if b.length ≤ 0xffff then OP_PUSHDATA2
  else OP_PUSHDATA4

theorem pushOpcode_le (b : valtype) : pushOpcode b ≤ OP_PUSHDATA4 := by
  unfold pushOpcode
  split
  · rename_i hlt
    have h : b.length < 76 := hlt
    rw [UInt8.le_iff_toNat_le, UInt8.toNat_ofNat']
    unfold OP_PUSHDATA4
    simp
    omega
  · split
    · decide
    · split <;> decide

theorem push_ne_nil (b : valtype) : push b ≠ [] := by
  unfold push
  split
  · exact List.cons_ne_nil _ _
  · split
    · exact List.cons_ne_nil _ _
    · split <;> exact List.cons_ne_nil _ _

theorem length_push (b : valtype) :
    b.length < (push b).length ∧ (push b).length ≤ b.length + 5 := by
  unfold push
  split
  · rw [List.length_cons]
    omega
  · split
    · rw [List.length_cons, List.length_cons]
      omega
    · split
      · rw [List.length_cons, List.length_append, length_littleEndian]
        omega
      · rw [List.length_cons, List.length_append, length_littleEndian]
        omega

theorem operandSize_ofNat {n : Nat} (hn : n < 76) (pc : CScript) :
    operandSize (UInt8.ofNat n) pc = some (n, pc) := by
  have hlt : UInt8.ofNat n < OP_PUSHDATA1 := by
    rw [UInt8.lt_iff_toNat_lt, UInt8.toNat_ofNat']
    unfold OP_PUSHDATA1
    simp
    omega
  unfold operandSize
  rw [if_pos hlt, UInt8.toNat_ofNat', Nat.mod_eq_of_lt (by omega)]

/-- A push is read back. -/
theorem getOp_push {b : valtype} (hb : b.length < 2 ^ 32) (pc : CScript) :
    getOp (push b ++ pc) = some (pushOpcode b, b, pc) := by
  have hread : ∀ opcode rest, operandSize opcode rest = some (b.length, b ++ pc) →
      getOp (opcode :: rest) = some (opcode, b, pc) := by
    intro opcode rest h
    rw [getOp, h]
    simp
  unfold push pushOpcode
  split
  · rename_i hlt
    exact hread _ _ (operandSize_ofNat hlt _)
  · split
    · rename_i hle
      apply hread
      change some ((UInt8.ofNat b.length).toNat, b ++ pc) = _
      rw [UInt8.toNat_ofNat', Nat.mod_eq_of_lt (by omega)]
    · split
      · apply hread
        have h := @CBigNum.unsigned_littleEndian 2 b.length (by omega)
        simp only [littleEndian, CBigNum.unsigned] at h
        refine congrArg (fun n => some (n, b ++ pc)) ?_
        omega
      · apply hread
        have h := @CBigNum.unsigned_littleEndian 4 b.length (by omega)
        simp only [littleEndian, CBigNum.unsigned] at h
        refine congrArg (fun n => some (n, b ++ pc)) ?_
        omega

theorem Reads.push {b : valtype} (hb : b.length < 2 ^ 32) (pc : CScript) :
    Reads (push b ++ pc) [(pushOpcode b, b)] pc :=
  .cons (getOp_push hb pc) (.nil pc)

theorem Reads.pushes {values : List valtype} (h : ∀ b ∈ values, b.length < 2 ^ 32)
    (pc : CScript) : Reads ((values.map CScript.push).flatten ++ pc)
      (values.map fun b => (pushOpcode b, b)) pc := by
  induction values with
  | nil => exact .nil pc
  | cons b values ih =>
    rw [List.map_cons, List.flatten_cons, List.append_assoc]
    exact .cons (getOp_push (h b List.mem_cons_self) _)
      (ih fun b' hb' => h b' (List.mem_cons_of_mem _ hb'))

/-- A push is not found in a script whose operands are others. -/
theorem findAndDeleteFrom_push {s rest : CScript} {ops : List (UInt8 × valtype)} {b : valtype}
    (hb : b.length < 2 ^ 32) (h : Reads s ops rest) (hrest : rest = [])
    (hne : ∀ op ∈ ops, op.2 ≠ b) (fuel : Nat) :
    findAndDeleteFrom (CScript.push b) fuel s = s := by
  induction h generalizing fuel with
  | nil s =>
    subst hrest
    cases fuel with
    | zero => rfl
    | succ fuel => rfl
  | @cons pc next rest opcode vch ops hop _ ih =>
    cases fuel with
    | zero => rfl
    | succ fuel =>
      have hmatch : ∀ n, eraseMatches (CScript.push b) n pc = pc := by
        intro n
        cases n with
        | zero => rfl
        | succ n =>
          refine if_neg fun ⟨_, htake⟩ => ?_
          have hpush := getOp_push hb (pc.drop (CScript.push b).length)
          nth_rewrite 1 [← htake] at hpush
          rw [List.take_append_drop, hop] at hpush
          simp only [Option.some.injEq, Prod.mk.injEq] at hpush
          exact hne (opcode, vch) List.mem_cons_self hpush.2.1
      obtain ⟨used, hused⟩ := getOp_append hop
      have htake : pc.take (pc.length - next.length) = opcode :: used := by
        rw [hused, List.length_append, Nat.add_sub_cancel]
        exact List.take_left
      simp only [findAndDeleteFrom, hmatch, hop]
      rw [htake, ih hrest (fun op hop => hne op (List.mem_cons_of_mem _ hop)), ← hused]

theorem findAndDelete_push {s : CScript} {ops : List (UInt8 × valtype)} {b : valtype}
    (hb : b.length < 2 ^ 32) (h : Reads s ops []) (hne : ∀ op ∈ ops, op.2 ≠ b) :
    s.findAndDelete (CScript.push b) = s := by
  rw [findAndDelete, if_neg (push_ne_nil b)]
  exact findAndDeleteFrom_push hb h rfl hne _

end CScript

namespace EvalScript

open CScript

variable [ScriptHashing] [ByteHashing] [ByteHashing160] {ctx : ScriptContext}
  {st st' : ScriptState}

/-! ## The loop -/

theorem perform_position {opcode : UInt8} (h : opcode ≠ 0xab) (vch : valtype) (pc pc' : Nat)
    (st : ScriptState) : perform ctx opcode vch pc st = perform ctx opcode vch pc' st := by
  have hvalues : ∀ p ∈ Opcode.values, p.2 = .OP_CODESEPARATOR → p.1 = 0xab := by decide
  have hexecute : ∀ st, execute ctx opcode pc st = execute ctx opcode pc' st := by
    intro st
    unfold execute
    split
    · rfl
    · cases hop : Opcode.ofByte opcode with
      | none => rfl
      | some op =>
        have hne : op ≠ .OP_CODESEPARATOR := fun hop' =>
          h (hvalues _ (Opcode.mem_values hop) hop')
        cases op <;> first | rfl | exact absurd rfl hne
  simp only [perform, hexecute]

def runOp (ctx : ScriptContext) (st : ScriptState) (op : UInt8 × valtype) :
    Except ScriptError ScriptState :=
  (perform ctx op.1 op.2 0 st >>= checkSize).result

def run (ctx : ScriptContext) (ops : List (UInt8 × valtype)) (st : ScriptState) :
    Except ScriptError ScriptState :=
  ops.foldlM (runOp ctx) st

theorem run_cons_of_ok {op : UInt8 × valtype} {ops : List (UInt8 × valtype)}
    (h : runOp ctx st op = .ok st') : run ctx (op :: ops) st = run ctx ops st' := by
  rw [run, List.foldlM_cons, h]
  rfl

theorem result_loop_eq {ops : List (UInt8 × valtype)} {pc fuel : Nat}
    (hpc : pc ≤ ctx.script.length) (hfuel : ctx.script.length - pc ≤ fuel)
    (h : Reads (ctx.script.drop pc) ops []) (hops : ∀ op ∈ ops, op.1 ≠ 0xab) :
    (loop ctx fuel pc st).result = run ctx ops st := by
  induction ops generalizing pc fuel st with
  | nil =>
    generalize hs : ctx.script.drop pc = s at h
    cases h
    have hle : ctx.script.length ≤ pc := List.drop_eq_nil_iff.mp hs
    cases fuel with
    | zero =>
      rw [loop, if_neg (by omega)]
      rfl
    | succ fuel =>
      rw [loop, if_neg (by omega)]
      rfl
  | cons op ops ih =>
    generalize hs : ctx.script.drop pc = s at h
    cases h with
    | @cons _ next _ opcode vch _ hop hrest =>
      subst hs
      have hlt : pc < ctx.script.length := by
        have := length_lt_of_getOp hop
        rw [List.length_drop] at this
        omega
      obtain ⟨fuel, rfl⟩ : ∃ n, fuel = n + 1 := ⟨fuel - 1, by omega⟩
      obtain ⟨hdrop, hpos, hle⟩ := drop_of_getOp hpc hop
      rw [loop, if_pos hlt, step_eq hpc hop,
        perform_position (hops _ List.mem_cons_self) vch _ 0, run, List.foldlM_cons, runOp]
      cases hperform : (perform ctx opcode vch 0 st).result with
      | error e =>
        rw [Traced.bind_of_error _ hperform, Traced.bind_of_error _ rfl,
          Traced.bind_of_error _ hperform]
        rfl
      | ok st1 =>
        rw [Traced.bind_of_ok _ hperform, Traced.bind_of_ok checkSize hperform]
        cases hsize : (checkSize st1).result with
        | error e =>
          rw [Traced.bind_of_error _ hsize, Traced.bind_of_error _ rfl]
          rfl
        | ok st2 =>
          rw [Traced.bind_of_ok _ hsize, Traced.bind_of_ok _ rfl]
          exact ih hle (by omega) (by rwa [hdrop])
            fun op hop => hops op (List.mem_cons_of_mem _ hop)

theorem result_evalScript_eq (ctx : ScriptContext) (stack : List valtype)
    {ops : List (UInt8 × valtype)} (hlength : ctx.script.length ≤ 10000) (h : Reads ctx.script ops [])
    (hops : ∀ op ∈ ops, op.1 ≠ 0xab) :
    (evalScript ctx stack).result =
      run ctx ops (ScriptState.init stack) >>= fun st =>
        if st.vfExec ≠ [] then .error .returnFalse else .ok st := by
  have hloop : (loop ctx (ctx.script.length - 0) 0 (ScriptState.init stack)).result = _ :=
    result_loop_eq (Nat.zero_le _) (Nat.le_refl _) h hops
  rw [evalScript, if_neg (Nat.not_lt.mpr hlength)]
  rw [Nat.sub_zero] at hloop
  cases hrun : run ctx ops (ScriptState.init stack) with
  | error e =>
    rw [hrun] at hloop
    rw [Traced.bind_of_error _ hloop]
    rfl
  | ok st =>
    rw [hrun] at hloop
    rw [Traced.bind_of_ok _ hloop]
    change _ = if st.vfExec ≠ [] then _ else _
    split <;> rfl

/-! ## Instructions -/

variable {stack : List valtype} {nOpCount : Nat}

omit [ScriptHashing] [ByteHashing] [ByteHashing160] in
theorem checkSize_eq (h : st.stack.length + st.altstack.length ≤ 1000) :
    checkSize st = pure st := if_neg (Nat.not_lt.mpr h)

theorem runOp_push {op : UInt8 × valtype} (hop : op.1 ≤ OP_16) (hreserved : op.1 ≠ 0x50)
    (hsize : op.2.length ≤ MAX_SCRIPT_ELEMENT_SIZE) (hstack : stack.length < 1000) :
    runOp ctx ⟨stack, [], [], nOpCount, 0⟩ op = .ok ⟨pushedBy op :: stack, [], [], nOpCount, 0⟩ := by
  rw [runOp, perform_push hop rfl, if_neg (not_or.mpr ⟨Nat.not_lt.mpr hsize, hreserved⟩),
    Traced.pure_bind, checkSize_eq]
  · rfl
  · exact hstack

omit [ScriptHashing] [ByteHashing] [ByteHashing160] in
theorem pushed_data {opcode : UInt8} {vch : valtype} (h : opcode ≤ OP_PUSHDATA4) :
    pushedBy (opcode, vch) = vch := if_pos h

theorem runOp_data {opcode : UInt8} {vch : valtype} (hop : opcode ≤ OP_PUSHDATA4)
    (hsize : vch.length ≤ MAX_SCRIPT_ELEMENT_SIZE) (hstack : stack.length < 1000) :
    runOp ctx ⟨stack, [], [], nOpCount, 0⟩ (opcode, vch) =
      .ok ⟨vch :: stack, [], [], nOpCount, 0⟩ := by
  have hreserved : opcode ≠ 0x50 := by
    rintro rfl
    exact absurd hop (by decide)
  have hpush : runOp ctx ⟨stack, [], [], nOpCount, 0⟩ (opcode, vch) = _ :=
    runOp_push (UInt8.le_trans hop (by decide)) hreserved hsize hstack
  rw [hpush, pushed_data hop]

theorem runOp_too_large {op : UInt8 × valtype} (hsize : MAX_SCRIPT_ELEMENT_SIZE < op.2.length) :
    runOp ctx st op = .error .returnFalse := by
  have hperform : perform ctx op.1 op.2 0 st = fail .returnFalse := if_pos hsize
  rw [runOp, hperform]
  rfl

theorem run_pushes {ops : List (UInt8 × valtype)} (ops' : List (UInt8 × valtype))
    (hops : ∀ op ∈ ops, op.1 ≤ OP_16 ∧ op.1 ≠ 0x50 ∧ op.2.length ≤ MAX_SCRIPT_ELEMENT_SIZE)
    (hstack : stack.length + ops.length ≤ 1000) :
    run ctx (ops ++ ops') ⟨stack, [], [], nOpCount, 0⟩ =
      run ctx ops' ⟨(ops.map pushedBy).reverse ++ stack, [], [], nOpCount, 0⟩ := by
  induction ops generalizing stack with
  | nil => rfl
  | cons op ops ih =>
    obtain ⟨hop, hreserved, hsize⟩ := hops op List.mem_cons_self
    rw [List.length_cons] at hstack
    rw [List.cons_append, run_cons_of_ok (runOp_push hop hreserved hsize (by omega)),
      ih (fun op hop => hops op (List.mem_cons_of_mem _ hop)) (by rw [List.length_cons]; omega),
      List.map_cons, List.reverse_cons, List.append_assoc]
    rfl

omit [ScriptHashing] [ByteHashing] [ByteHashing160] in
theorem le_of_pushOpcode (b : valtype) : pushOpcode b ≤ OP_16 ∧ pushOpcode b ≠ 0x50 ∧
    pushOpcode b ≠ 0xab := by
  have hle := pushOpcode_le b
  refine ⟨UInt8.le_trans hle (by decide), fun h => ?_, fun h => ?_⟩
  · rw [h] at hle
    exact absurd hle (by decide)
  · rw [h] at hle
    exact absurd hle (by decide)

omit [ScriptHashing] [ByteHashing] [ByteHashing160] in
theorem map_pushed_push (values : List valtype) :
    (values.map fun b => (pushOpcode b, b)).map pushedBy = values := by
  rw [List.map_map]
  exact (List.map_congr_left fun b _ => pushed_data (pushOpcode_le b)).trans (List.map_id _)

omit [ScriptHashing] [ByteHashing] [ByteHashing160] in
theorem length_pushes_le {values : List valtype} {n : Nat} (h : ∀ b ∈ values, b.length ≤ n) :
    (values.map push).flatten.length ≤ values.length * (n + 5) := by
  induction values with
  | nil => exact Nat.zero_le _
  | cons b values ih =>
    have hb := (length_push b).2
    have hn := h b List.mem_cons_self
    have hrest := ih fun b' hb' => h b' (List.mem_cons_of_mem _ hb')
    rw [List.map_cons, List.flatten_cons, List.length_append, List.length_cons, Nat.succ_mul]
    omega

theorem run_push_values {values : List valtype} (ops : List (UInt8 × valtype))
    (h : ∀ b ∈ values, b.length ≤ MAX_SCRIPT_ELEMENT_SIZE) (hlength : values.length ≤ 1000) :
    run ctx ((values.map fun b => (pushOpcode b, b)) ++ ops) (ScriptState.init []) =
      run ctx ops (ScriptState.init values.reverse) := by
  have hops : ∀ op ∈ values.map fun b => (pushOpcode b, b),
      op.1 ≤ OP_16 ∧ op.1 ≠ 0x50 ∧ op.2.length ≤ MAX_SCRIPT_ELEMENT_SIZE := by
    intro op hop
    obtain ⟨b, hb, rfl⟩ := List.mem_map.mp hop
    exact ⟨(le_of_pushOpcode b).1, (le_of_pushOpcode b).2.1, h b hb⟩
  rw [ScriptState.init, run_pushes ops hops (by simpa using hlength), map_pushed_push,
    List.append_nil]
  rfl

/-- A script of pushes leaves its values. -/
theorem result_evalScript_pushes (flags : Nat) (checkSig : valtype → valtype → CScript → Bool)
    {values : List valtype} (h : ∀ b ∈ values, b.length ≤ MAX_SCRIPT_ELEMENT_SIZE)
    (hlength : values.length ≤ 19) :
    (evalScript ⟨(values.map push).flatten, flags, checkSig⟩ []).result =
      .ok (ScriptState.init values.reverse) := by
  have hle := length_pushes_le h
  have hsize : (values.map push).flatten.length ≤ 10000 := by
    unfold MAX_SCRIPT_ELEMENT_SIZE at hle
    omega
  have hreads := Reads.pushes
    (fun b (hb : b ∈ values) => Nat.lt_of_le_of_lt (h b hb) (by decide)) []
  rw [List.append_nil] at hreads
  have hops : ∀ op ∈ values.map fun b => (pushOpcode b, b), op.1 ≠ 0xab := by
    intro op hop
    obtain ⟨b, -, rfl⟩ := List.mem_map.mp hop
    exact (le_of_pushOpcode b).2.2
  have hrun : run ⟨(values.map push).flatten, flags, checkSig⟩
      ((values.map fun b => (pushOpcode b, b)) ++ []) (ScriptState.init []) = _ :=
    run_push_values [] h (by omega)
  rw [List.append_nil] at hrun
  rw [result_evalScript_eq _ _ hsize hreads hops, hrun]
  rfl

/-- An element that is too long is not pushed. -/
theorem evalScript_push_too_large (flags : Nat) (checkSig : valtype → valtype → CScript → Bool)
    {values : List valtype} {b : valtype} (h : ∀ b ∈ values, b.length ≤ MAX_SCRIPT_ELEMENT_SIZE)
    (hlength : values.length ≤ 1000) (hb : MAX_SCRIPT_ELEMENT_SIZE < b.length) :
    (evalScript ⟨(values.map push).flatten ++ push b, flags, checkSig⟩ []).result =
      .error .returnFalse := by
  by_cases hsize : 10000 < ((values.map push).flatten ++ push b).length
  · rw [evalScript, if_pos hsize]
    rfl
  · have hpush := (length_push b).1
    have hb32 : b.length < 2 ^ 32 := by
      rw [List.length_append] at hsize
      omega
    have hlast : Reads (push b) [(pushOpcode b, b)] [] := by simpa using Reads.push hb32 []
    have hreads := (Reads.pushes
      (fun b (hb : b ∈ values) => Nat.lt_of_le_of_lt (h b hb) (by decide)) (push b)).append hlast
    have hops : ∀ op ∈ (values.map fun b => (pushOpcode b, b)) ++ [(pushOpcode b, b)],
        op.1 ≠ 0xab := by
      intro op hop
      obtain hop | hop := List.mem_append.mp hop
      · obtain ⟨b, -, rfl⟩ := List.mem_map.mp hop
        exact (le_of_pushOpcode b).2.2
      · obtain rfl := List.mem_singleton.mp hop
        exact (le_of_pushOpcode b).2.2
    rw [result_evalScript_eq _ _ (Nat.le_of_not_lt hsize) hreads hops,
      run_push_values _ h hlength, run, List.foldlM_cons, runOp_too_large hb]
    rfl

theorem runOp_opcode {opcode : UInt8} {op : Opcode} (hop : Opcode.ofByte opcode = some op)
    (h16 : OP_16 < opcode) (hdisabled : isDisabled opcode = false) (hcount : nOpCount < 201) :
    runOp ctx ⟨stack, [], [], nOpCount, 0⟩ (opcode, []) =
      (executeOpcode ctx 0 ⟨stack, [], [], nOpCount + 1, 0⟩ op >>= checkSize).result := by
  have hpush : ¬ opcode ≤ OP_PUSHDATA4 := UInt8.not_le.mpr (UInt8.lt_trans (by decide) h16)
  have hnumber : ¬ (opcode = OP_1NEGATE ∨ (OP_1 ≤ opcode ∧ opcode ≤ OP_16)) := by
    rintro (rfl | ⟨-, h⟩)
    · exact absurd h16 (by decide)
    · exact UInt8.not_le.mpr h16 h
  have hperform : perform ctx opcode [] 0 ⟨stack, [], [], nOpCount, 0⟩ =
      execute ctx opcode 0 ⟨stack, [], [], nOpCount + 1, 0⟩ := by
    unfold perform
    rw [if_pos h16, if_neg (by simp), if_neg (by dsimp only; omega), hdisabled]
    simp only [Bool.false_eq_true, if_false]
    rw [if_neg fun h => hpush h.2]
    exact if_pos (Or.inl rfl)
  rw [runOp, hperform, execute, if_neg hnumber, hop]

theorem runOp_dup {vch : valtype} (hcount : nOpCount < 201) (hstack : stack.length + 2 ≤ 1000) :
    runOp ctx ⟨vch :: stack, [], [], nOpCount, 0⟩ (OP_DUP, []) =
      .ok ⟨vch :: vch :: stack, [], [], nOpCount + 1, 0⟩ := by
  have hexecute : executeOpcode ctx 0 ⟨vch :: stack, [], [], nOpCount + 1, 0⟩ .OP_DUP =
      pure ⟨vch :: vch :: stack, [], [], nOpCount + 1, 0⟩ := rfl
  rw [runOp_opcode rfl (by decide) rfl hcount, hexecute, Traced.pure_bind, checkSize_eq hstack]
  rfl

theorem runOp_hash160 {vch : valtype} (hcount : nOpCount < 201) (hstack : stack.length + 1 ≤ 1000) :
    runOp ctx ⟨vch :: stack, [], [], nOpCount, 0⟩ (OP_HASH160, []) =
      .ok ⟨writeUint160 (ByteHashing160.hash160 vch) :: stack, [], [], nOpCount + 1, 0⟩ := by
  have hexecute : (executeOpcode ctx 0 ⟨vch :: stack, [], [], nOpCount + 1, 0⟩ .OP_HASH160).result =
      .ok ⟨writeUint160 (ByteHashing160.hash160 vch) :: stack, [], [], nOpCount + 1, 0⟩ := by
    cases vch <;> rfl
  rw [runOp_opcode rfl (by decide) rfl hcount, Traced.bind_of_ok _ hexecute,
    checkSize_eq hstack]
  rfl

theorem runOp_equal {vch1 vch2 : valtype} (hcount : nOpCount < 201)
    (hstack : stack.length + 1 ≤ 1000) :
    runOp ctx ⟨vch2 :: vch1 :: stack, [], [], nOpCount, 0⟩ (OP_EQUAL, []) =
      .ok ⟨(if vch1 = vch2 then vchTrue else vchFalse) :: stack, [], [], nOpCount + 1, 0⟩ := by
  have hexecute : executeOpcode ctx 0 ⟨vch2 :: vch1 :: stack, [], [], nOpCount + 1, 0⟩ .OP_EQUAL =
      pure ⟨(if vch1 == vch2 then vchTrue else vchFalse) :: stack, [], [], nOpCount + 1, 0⟩ := rfl
  simp only [beq_iff_eq] at hexecute
  rw [runOp_opcode rfl (by decide) rfl hcount, hexecute, Traced.pure_bind, checkSize_eq hstack]
  rfl

theorem runOp_equalVerify {vch : valtype} (hcount : nOpCount < 201) (hstack : stack.length ≤ 1000) :
    runOp ctx ⟨vch :: vch :: stack, [], [], nOpCount, 0⟩ (OP_EQUALVERIFY, []) =
      .ok ⟨stack, [], [], nOpCount + 1, 0⟩ := by
  have hexecute : executeOpcode ctx 0 ⟨vch :: vch :: stack, [], [], nOpCount + 1, 0⟩
      .OP_EQUALVERIFY = onStack (fun _ => pushResult true (vch == vch) stack)
        ⟨vch :: vch :: stack, [], [], nOpCount + 1, 0⟩ := rfl
  have hresult : (onStack (fun _ => pushResult true true stack)
      ⟨vch :: vch :: stack, [], [], nOpCount + 1, 0⟩).result =
        .ok ⟨stack, [], [], nOpCount + 1, 0⟩ := rfl
  have hsize : checkSize ⟨stack, [], [], nOpCount + 1, 0⟩ = pure _ := checkSize_eq (by simpa)
  rw [runOp_opcode rfl (by decide) rfl hcount, hexecute, beq_self_eq_true,
    Traced.bind_of_ok _ hresult, hsize]
  rfl

theorem runOp_checkSig {vchSig vchPubKey : valtype} (hcount : nOpCount < 201)
    (hstack : stack.length + 1 ≤ 1000)
    (hsig : verifies ctx (ctx.script.findAndDelete (push vchSig)) vchSig vchPubKey = true) :
    runOp ctx ⟨vchPubKey :: vchSig :: stack, [], [], nOpCount, 0⟩ (OP_CHECKSIG, []) =
      .ok ⟨vchTrue :: stack, [], [], nOpCount + 1, 0⟩ := by
  have hverify := result_verifySignature ctx vchSig vchPubKey
    (ctx.script.findAndDelete (push vchSig))
  rw [hsig] at hverify
  have hexecute : (executeOpcode ctx 0 ⟨vchPubKey :: vchSig :: stack, [], [], nOpCount + 1, 0⟩
      .OP_CHECKSIG).result = .ok ⟨vchTrue :: stack, [], [], nOpCount + 1, 0⟩ := by
    have hcheckSig : checkSig ctx false ⟨vchPubKey :: vchSig :: stack, [], [], nOpCount + 1, 0⟩ =
        verifySignature ctx vchSig vchPubKey (ctx.script.findAndDelete (push vchSig)) >>=
          fun fSuccess => pushResult false fSuccess stack := rfl
    rw [executeOpcode, onStack, hcheckSig, Traced.bind_of_ok _ hverify]
    rfl
  rw [runOp_opcode rfl (by decide) rfl hcount, Traced.bind_of_ok _ hexecute, checkSize_eq hstack]
  rfl

omit [ScriptHashing] [ByteHashing] [ByteHashing160] in
theorem codeWithout_eq {s : CScript} {ops : List (UInt8 × valtype)} {sigs : List valtype}
    (hreads : Reads s ops []) (hlength : ∀ vchSig ∈ sigs, vchSig.length < 2 ^ 32)
    (hne : ∀ vchSig ∈ sigs, ∀ op ∈ ops, op.2 ≠ vchSig) : codeWithout s sigs = s := by
  induction sigs with
  | nil => rfl
  | cons vchSig sigs ih =>
    rw [codeWithout, List.foldr_cons, ← codeWithout,
      ih (fun v h => hlength v (List.mem_cons_of_mem _ h))
        (fun v h => hne v (List.mem_cons_of_mem _ h))]
    exact findAndDelete_push (hlength _ List.mem_cons_self) hreads (hne _ List.mem_cons_self)

/-- Keys and signatures, each after their number: whether the signatures can be assigned to keys in
order. -/
theorem runOp_checkMultiSig {vchKeys vchSigs dummy : valtype} {keys sigs rest : List valtype}
    (hstack : stack = vchKeys :: (keys.reverse ++ vchSigs :: (sigs.reverse ++ dummy :: rest)))
    (hvchKeys : Encodes vchKeys keys.length) (hvchSigs : Encodes vchSigs sigs.length)
    (hkeys : keys.length ≤ 20) (hsigs : sigs.length ≤ keys.length)
    (hcount : nOpCount + 1 + keys.length ≤ 201) (hlimit : rest.length + 1 ≤ 1000) :
    runOp ctx ⟨stack, [], [], nOpCount, 0⟩ (OP_CHECKMULTISIG, []) =
      .ok ⟨(if Matching.greedy (verifies ctx (codeWithout ctx.script sigs)) sigs.reverse
        keys.reverse then vchTrue else vchFalse) :: rest, [], [], nOpCount + 1 + keys.length, 0⟩ := by
  have hresult := @result_checkMultiSig ctx ⟨stack, [], [], nOpCount + 1, 0⟩ keys sigs false
    ⟨hkeys, hsigs, hcount, vchKeys, vchSigs, dummy, rest, hvchKeys, hvchSigs, hstack⟩
  have hdrop : stack.drop (keys.length + sigs.length + 3) = rest := by
    subst hstack
    have hsplit : vchKeys :: (keys.reverse ++ vchSigs :: (sigs.reverse ++ dummy :: rest)) =
        (vchKeys :: (keys.reverse ++ vchSigs :: (sigs.reverse ++ [dummy]))) ++ rest := by simp
    rw [hsplit]
    refine List.drop_left' ?_
    simp only [List.length_cons, List.length_append, List.length_reverse, List.length_nil]
    omega
  have hcode : scriptCode ctx ⟨stack, [], [], nOpCount + 1, 0⟩ = ctx.script := rfl
  dsimp only at hresult
  rw [hcode, hdrop] at hresult
  rw [runOp_opcode rfl (by decide) rfl (by omega), executeOpcode, Traced.bind_of_ok _ hresult,
    checkSize_eq hlimit]
  rfl

end EvalScript

end Terracoin
