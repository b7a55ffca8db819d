import Std.Data.TreeMap.Lemmas
import Std.Data.TreeSet.Lemmas
import Terracoin.Script.CheckSig
import Terracoin.Script.Payment
import Terracoin.Script.Templates

/-!
# `CombineSignatures`

Two versions of a `scriptSig`, each with some of the signatures, are combined into one. They are
evaluated for what they push; whether `EvalScript` succeeds does not matter, so what it leaves on
the stack is modelled for failures too (`evalScriptStack`). `CombineMultisig` finds out by trial
which key a signature is for.

With no signature for two keys, the result has a signature for each of the first keys that have
one, up to the number that is required (`combineMultisig_merged`), and so it is accepted if there
are enough of them.
-/

namespace Terracoin

open Std (TreeMap TreeSet)
open CScript EvalScript txnouttype

/-! ## The stack after `EvalScript` -/

section

variable [ScriptHashing] [ByteHashing] [ByteHashing160] (ctx : ScriptContext)

namespace EvalScript

/-- The stack after `perform`, unless it fails. -/
def stackAfter (opcode : UInt8) (vch : valtype) (pc : Nat) (st : ScriptState) : List valtype :=
  match (perform ctx opcode vch pc st).result with
  | .ok st => st.stack
  | .error _ => st.stack

/-- The stack when `EvalScript` returns in an instruction. `OP_EQUALVERIFY`, `OP_NUMEQUALVERIFY`,
`OP_CHECKSIGVERIFY` and `OP_CHECKMULTISIGVERIFY` have done by then what the opcode before them does;
`OP_PICK` and `OP_ROLL` have removed the number if there is one. -/
def stackAtReturn (opcode : UInt8) (vch : valtype) (pc : Nat) (st : ScriptState) :
    List valtype :=
  match (perform ctx opcode vch pc st).result with
  | .ok st => st.stack
  | .error _ =>
    if opcode ∈ ([0x88, 0x9d, 0xad, 0xaf] : List UInt8) then stackAfter ctx (opcode - 1) vch pc st
    else if opcode ∈ ([0x79, 0x7a] : List UInt8) ∧ st.nOpCount < 201 ∧ 2 ≤ st.stack.length ∧
        (castToBigNum (st.stack.headD [])).result.isOk then st.stack.tail
    else st.stack

def loopStack : Nat → Nat → ScriptState → List valtype
  | 0, _, st => st.stack
  | fuel + 1, pc, st =>
    if pc < ctx.script.length then
      match (getOp2 ctx.script pc).result with
      | .ok (some (opcode, vch, pc)) =>
        match (perform ctx opcode vch pc st >>= checkSize).result with
        | .ok st => loopStack fuel pc st
        | .error _ => stackAtReturn ctx opcode vch pc st
      | _ => st.stack
    else st.stack

end EvalScript

def evalScriptStack (stack : List valtype) : List valtype :=
  if 10000 < ctx.script.length then stack
  else loopStack ctx ctx.script.length 0 (ScriptState.init stack)

end

/-! ## `CombineSignatures` -/

/-- `CheckSig` for a transaction, an input and a hash type. -/
abbrev SigChecker := CTransaction → Nat → Nat → valtype → valtype → CScript → Bool

def CTransaction.fresh : CTransaction := ⟨1, [], [], 0⟩

/-- `PushAll`, from the bottom of the stack. -/
def pushAll (values : List valtype) : CScript := (values.reverse.map push).flatten

/-- Combine all the signatures we've got: `allsigs`. -/
def allSigs (sigs1 sigs2 : List valtype) : TreeSet valtype :=
  (sigs1 ++ sigs2).foldl (fun allsigs v => if v.isEmpty then allsigs else allsigs.insert v) ∅

/-- The body of the loop over `allsigs`: the signature goes to the first public key without one
that it is valid for. -/
def matchSig (check : valtype → valtype → Bool) (pubkeys : List valtype)
    (sigs : TreeMap valtype valtype) (sig : valtype) : TreeMap valtype valtype :=
  match pubkeys.find? fun pubkey => !sigs.contains pubkey && check sig pubkey with
  | some pubkey => sigs.insert pubkey sig
  | none => sigs

/-- The signatures of the merged script, and `OP_0` for any missing ones. -/
def mergedSigs (sigs : TreeMap valtype valtype) (nSigsRequired : Nat) (pubkeys : List valtype) :
    List valtype :=
  let sigsHave := (pubkeys.filterMap fun pubkey => sigs[pubkey]?).take nSigsRequired
  sigsHave ++ List.replicate (nSigsRequired - sigsHave.length) []

section

variable (checkSig : SigChecker)

/-- `CombineMultisig`. The public keys are between the two numbers of the solution. -/
def combineMultisig (scriptPubKey : CScript) (txTo : CTransaction) (nIn : Nat)
    (vSolutions sigs1 sigs2 : List valtype) : CScript :=
  let nSigsRequired := ((vSolutions.headD []).headD 0).toNat
  let pubkeys := vSolutions.tail.dropLast
  let check := fun sig pubkey => checkSig txTo nIn 0 sig pubkey scriptPubKey
  let sigs := (allSigs sigs1 sigs2).toList.foldl (matchSig check pubkeys) ∅
  -- pop-one-too-many workaround
  OP_0 :: ((mergedSigs sigs nSigsRequired pubkeys).map push).flatten

/-- `CombineSignatures` of two stacks, whose top is the head. -/
def combineStacks (txTo : CTransaction) (nIn : Nat) : List valtype → List valtype → CScript →
    txnouttype → List valtype → CScript
  | sigs1, sigs2, _, TX_NONSTANDARD, _ =>
    -- Don't know anything about this, assume bigger one is correct:
    if sigs2.length ≤ sigs1.length then pushAll sigs1 else pushAll sigs2
  | sigs1, sigs2, _, TX_PUBKEY, _ | sigs1, sigs2, _, TX_PUBKEYHASH, _ =>
    -- Signatures are bigger than placeholders or empty scripts:
    if (sigs1.getLastD []).isEmpty then pushAll sigs2 else pushAll sigs1
  | [], sigs2, _, TX_SCRIPTHASH, _ => pushAll sigs2
  | spk :: sigs1, sigs2, _, TX_SCRIPTHASH, _ =>
    if spk.isEmpty then pushAll sigs2
    else if (sigs2.headD []).isEmpty then pushAll (spk :: sigs1)
    else
      -- Recur to combine:
      let (txType2, vSolutions2) := CScript.solverRet spk
      combineStacks txTo nIn sigs1 sigs2.tail spk txType2 vSolutions2 ++ push spk
  | sigs1, sigs2, scriptPubKey, TX_MULTISIG, vSolutions =>
    combineMultisig checkSig scriptPubKey txTo nIn vSolutions sigs1 sigs2

variable [ScriptHashing] [ByteHashing] [ByteHashing160]

def combineSignatures (scriptPubKey : CScript) (txTo : CTransaction) (nIn : Nat)
    (scriptSig1 scriptSig2 : CScript) : CScript :=
  let (txType, vSolutions) := scriptPubKey.solverRet
  let evaluate := fun scriptSig =>
    evalScriptStack ⟨scriptSig, SCRIPT_VERIFY_STRICTENC, checkSig CTransaction.fresh 0 0⟩ []
  combineStacks checkSig txTo nIn (evaluate scriptSig1) (evaluate scriptSig2) scriptPubKey txType
    vSolutions

end

section

variable [ScriptHashing] [ByteHashing] [ByteHashing160] {ctx : ScriptContext}

theorem EvalScript.loopStack_of_ok {fuel pc : Nat} {st st' : ScriptState}
    (h : (loop ctx fuel pc st).result = .ok st') : loopStack ctx fuel pc st = st'.stack := by
  induction fuel generalizing pc st with
  | zero =>
    rw [loop] at h
    split at h
    · cases h
    · exact congrArg ScriptState.stack (Except.ok.inj h)
  | succ fuel ih =>
    rw [loop] at h
    rw [loopStack]
    split at h
    · next hlt =>
      rw [if_pos hlt]
      obtain ⟨next, hstep, hloop⟩ := Traced.result_bind_ok.mp h
      obtain ⟨op, hop, hperform⟩ := Traced.result_bind_ok.mp hstep
      rw [hop]
      cases op with
      | none => cases hperform
      | some op =>
        obtain ⟨opcode, vch, pc1⟩ := op
        obtain ⟨st1, hst1, hsize⟩ := Traced.result_bind_ok.mp hperform
        obtain ⟨st2, hst2, hnext⟩ := Traced.result_bind_ok.mp hsize
        obtain rfl := Except.ok.inj hnext
        have hboth : (perform ctx opcode vch pc1 st >>= checkSize).result = .ok st2 :=
          Traced.result_bind_ok.mpr ⟨st1, hst1, hst2⟩
        dsimp only
        rw [hboth]
        exact ih hloop
    · next hlt =>
      rw [if_neg hlt]
      exact congrArg ScriptState.stack (Except.ok.inj h)

theorem evalScriptStack_of_ok {stack : List valtype} {st : ScriptState}
    (h : (evalScript ctx stack).result = .ok st) : evalScriptStack ctx stack = st.stack := by
  rw [evalScript] at h
  rw [evalScriptStack]
  split at h
  · cases h
  · next hlength =>
    rw [if_neg hlength]
    obtain ⟨st1, hloop, hend⟩ := Traced.result_bind_ok.mp h
    split at hend
    · cases hend
    · obtain rfl := Except.ok.inj hend
      exact loopStack_of_ok hloop

end

/-! ## Matching signatures with keys -/

section

variable {sigs1 sigs2 pubkeys seen : List valtype} {sig pubkey : valtype}
  {check : valtype → valtype → Bool} {sigs : TreeMap valtype valtype}

theorem mem_foldl_insert {values : List valtype} {allsigs : TreeSet valtype} :
    sig ∈ values.foldl (fun allsigs v => if v.isEmpty then allsigs else allsigs.insert v)
        allsigs ↔ (sig ∈ values ∧ sig ≠ []) ∨ sig ∈ allsigs := by
  induction values generalizing allsigs with
  | nil => simp
  | cons v values ih =>
    rw [List.foldl_cons, ih]
    cases v with
    | nil =>
      simp only [List.isEmpty_nil, if_true, List.mem_cons]
      tauto
    | cons b v =>
      simp only [List.isEmpty_cons, Bool.false_eq_true, if_false, TreeSet.mem_insert,
        List.mem_cons, Std.LawfulEqCmp.compare_eq_iff_eq]
      constructor
      · rintro (h | rfl | h)
        · exact .inl ⟨.inr h.1, h.2⟩
        · exact .inl ⟨.inl rfl, List.cons_ne_nil _ _⟩
        · exact .inr h
      · rintro (⟨rfl | h, hne⟩ | h)
        · exact .inr (.inl rfl)
        · exact .inl ⟨h, hne⟩
        · exact .inr (.inr h)

theorem mem_allSigs : sig ∈ (allSigs sigs1 sigs2).toList ↔ sig ∈ sigs1 ++ sigs2 ∧ sig ≠ [] := by
  rw [TreeSet.mem_toList, allSigs, mem_foldl_insert]
  simp

/-- What the map has is a signature that was seen, and a key that a signature was seen for is in
the map. -/
structure Matched (check : valtype → valtype → Bool) (pubkeys : List valtype)
    (sigs : TreeMap valtype valtype) (seen : List valtype) : Prop where
  valid : ∀ pubkey sig, sigs[pubkey]? = some sig → sig ∈ seen ∧ check sig pubkey = true
  complete : ∀ pubkey ∈ pubkeys, ∀ sig ∈ seen, check sig pubkey = true →
    sigs[pubkey]?.isSome = true

theorem matched_nil : Matched check pubkeys ∅ [] where
  valid _ _ h := by simp at h
  complete _ _ _ h := absurd h List.not_mem_nil

theorem getElem?_insert_sig (sigs : TreeMap valtype valtype) (pubkey pubkey' sig : valtype) :
    (sigs.insert pubkey sig)[pubkey']? = if pubkey' = pubkey then some sig else sigs[pubkey']? := by
  rw [TreeMap.getElem?_insert]
  simp only [Std.LawfulEqCmp.compare_eq_iff_eq, eq_comm (a := pubkey)]

/-- A signature is valid for no other key than the one it is put under. -/
theorem Matched.matchSig (h : Matched check pubkeys sigs seen)
    (honly : ∀ key ∈ pubkeys, ∀ key' ∈ pubkeys, check sig key = true → check sig key' = true →
      key = key') :
    Matched check pubkeys (matchSig check pubkeys sigs sig) (sig :: seen) := by
  unfold Terracoin.matchSig
  split
  · next found hfind =>
    have hfound := List.mem_of_find?_eq_some hfind
    have hnew := List.find?_some hfind
    rw [Bool.and_eq_true] at hnew
    refine ⟨fun pubkey sig' hget => ?_, fun pubkey hpubkey sig' hsig' hvalid => ?_⟩
    · rw [getElem?_insert_sig] at hget
      split at hget
      · next heq =>
        obtain rfl := Option.some.inj hget
        exact ⟨List.mem_cons_self, heq ▸ hnew.2⟩
      · obtain ⟨hseen, hvalid⟩ := h.valid pubkey sig' hget
        exact ⟨List.mem_cons_of_mem _ hseen, hvalid⟩
    · rw [getElem?_insert_sig]
      split
      · rfl
      · next hne =>
        obtain rfl | hsig' := List.mem_cons.mp hsig'
        · exact absurd (honly pubkey hpubkey found hfound hvalid hnew.2) hne
        · exact h.complete pubkey hpubkey sig' hsig' hvalid
  · next hfind =>
    refine ⟨fun pubkey sig' hget => ?_, fun pubkey hpubkey sig' hsig' hvalid => ?_⟩
    · obtain ⟨hseen, hvalid⟩ := h.valid pubkey sig' hget
      exact ⟨List.mem_cons_of_mem _ hseen, hvalid⟩
    · obtain rfl | hsig' := List.mem_cons.mp hsig'
      · -- the key has a signature, or it would have been found
        have hhas := List.find?_eq_none.mp hfind pubkey hpubkey
        rw [hvalid, Bool.and_true, Bool.not_eq_true', Bool.not_eq_false,
          TreeMap.contains_eq_isSome_getElem?] at hhas
        exact hhas
      · exact h.complete pubkey hpubkey sig' hsig' hvalid

theorem Matched.foldl {values : List valtype} (h : Matched check pubkeys sigs seen)
    (honly : ∀ sig ∈ values, ∀ key ∈ pubkeys, ∀ key' ∈ pubkeys, check sig key = true →
      check sig key' = true → key = key') :
    Matched check pubkeys (values.foldl (Terracoin.matchSig check pubkeys) sigs)
      (values.reverse ++ seen) := by
  induction values generalizing sigs seen with
  | nil => exact h
  | cons sig values ih =>
    rw [List.foldl_cons, List.reverse_cons, List.append_assoc]
    exact ih (h.matchSig (honly sig List.mem_cons_self)) fun sig hsig =>
      honly sig (List.mem_cons_of_mem _ hsig)

end

/-! ## The merged signatures -/

section

variable {check : valtype → valtype → Bool} {pubkeys held : List valtype} {nRequired : Nat}

/-- The public keys with a valid signature. -/
def signedKeys (check : valtype → valtype → Bool) (pubkeys held : List valtype) : List valtype :=
  pubkeys.filter fun pubkey => held.any fun sig => check sig pubkey

/-- Valid signatures for the first public keys that have one, in the order of the keys and as many as
are required, and an empty one for each that is missing. -/
structure Merged (check : valtype → valtype → Bool) (pubkeys held : List valtype)
    (nRequired : Nat) (sigs : List valtype) : Prop where
  exists_sigsHave : ∃ sigsHave, sigs = sigsHave ++ List.replicate (nRequired - sigsHave.length) [] ∧
    List.Forall₂ (fun sig pubkey => sig ∈ held ∧ check sig pubkey = true) sigsHave
      ((signedKeys check pubkeys held).take nRequired)

namespace Merged

variable {sigs : List valtype}

theorem length_eq (h : Merged check pubkeys held nRequired sigs) : sigs.length = nRequired := by
  obtain ⟨sigsHave, rfl, hsigs⟩ := h.exists_sigsHave
  have hlength := hsigs.length_eq
  rw [List.length_take] at hlength
  rw [List.length_append, List.length_replicate]
  omega

theorem mem_held (h : Merged check pubkeys held nRequired sigs) {sig : valtype}
    (hsig : sig ∈ sigs) : sig = [] ∨ sig ∈ held := by
  obtain ⟨sigsHave, rfl, hsigs⟩ := h.exists_sigsHave
  obtain hsig | hsig := List.mem_append.mp hsig
  · obtain ⟨i, rfl⟩ := List.mem_iff_get.mp hsig
    exact .inr ((List.forall₂_iff_get.mp hsigs).2 i i.2 (hsigs.length_eq ▸ i.2)).1
  · exact .inl (List.eq_of_mem_replicate hsig)

/-- The signatures satisfy `OP_CHECKMULTISIG` if none is missing, and an empty one does not. -/
theorem assignable_iff (h : Merged check pubkeys held nRequired sigs)
    (hempty : ∀ pubkey, check [] pubkey = false) :
    Matching.Assignable check sigs pubkeys ↔
      nRequired ≤ (signedKeys check pubkeys held).length := by
  obtain ⟨sigsHave, rfl, hsigs⟩ := h.exists_sigsHave
  have hlength := hsigs.length_eq
  rw [List.length_take] at hlength
  constructor
  · intro hassign
    refine Nat.le_of_not_lt fun hlt => ?_
    have hmem : [] ∈ sigsHave ++ List.replicate (nRequired - sigsHave.length) ([] : valtype) :=
      List.mem_append_right _ (List.mem_replicate.mpr ⟨by omega, rfl⟩)
    obtain ⟨pubkey, -, hcheck⟩ := hassign.exists_of_mem hmem
    rw [hempty] at hcheck
    cases hcheck
  · intro hle
    have hnone : nRequired - sigsHave.length = 0 := by omega
    rw [hnone, List.replicate_zero, List.append_nil, Matching.assignable_iff]
    exact ⟨_, (List.take_sublist _ _).trans List.filter_sublist, hsigs.imp fun _ _ h => h.2⟩

end Merged

/-- What the map has, in the order of the keys. -/
theorem merged_mergedSigs {sigs : TreeMap valtype valtype} {seen : List valtype}
    (h : Matched check pubkeys sigs seen)
    (hseen : ∀ sig, sig ∈ seen ↔ sig ∈ held ∧ sig ≠ [])
    (hempty : ∀ pubkey, check [] pubkey = false) :
    Merged check pubkeys held nRequired (mergedSigs sigs nRequired pubkeys) := by
  have hall : ∀ keys : List valtype, (∀ key ∈ keys, key ∈ pubkeys) →
      List.Forall₂ (fun sig pubkey => sig ∈ held ∧ check sig pubkey = true)
        (keys.filterMap fun pubkey => sigs[pubkey]?) (signedKeys check keys held) := by
    intro keys hkeys
    induction keys with
    | nil => exact .nil
    | cons key keys ih =>
      have hrest := ih fun key' hkey' => hkeys key' (List.mem_cons_of_mem _ hkey')
      rw [signedKeys] at hrest ⊢
      cases hget : sigs[key]? with
      | some sig =>
        obtain ⟨hmem, hcheck⟩ := h.valid key sig hget
        have hheld := ((hseen sig).mp hmem).1
        have hany : (held.any fun sig => check sig key) = true :=
          List.any_eq_true.mpr ⟨sig, hheld, hcheck⟩
        rw [List.filterMap_cons_some hget, List.filter_cons, if_pos hany]
        exact .cons ⟨hheld, hcheck⟩ hrest
      | none =>
        have hany : ¬ (held.any fun sig => check sig key) = true := by
          intro hany
          obtain ⟨sig, hheld, hcheck⟩ := List.any_eq_true.mp hany
          have hne : sig ≠ [] := by
            rintro rfl
            rw [hempty] at hcheck
            cases hcheck
          have hsome := h.complete key (hkeys key List.mem_cons_self) sig
            ((hseen sig).mpr ⟨hheld, hne⟩) hcheck
          rw [hget] at hsome
          cases hsome
        rw [List.filterMap_cons_none hget, List.filter_cons, if_neg hany]
        exact hrest
  exact ⟨_, rfl, List.forall₂_take _ (hall pubkeys fun _ h => h)⟩

/-- The signatures that are found for the keys among those of two scripts. -/
theorem merged_allSigs {sigs1 sigs2 : List valtype}
    (hheld : ∀ sig, sig ∈ held ↔ sig ∈ sigs1 ++ sigs2)
    (honly : ∀ sig ∈ held, ∀ key ∈ pubkeys, ∀ key' ∈ pubkeys, check sig key = true →
      check sig key' = true → key = key')
    (hempty : ∀ pubkey, check [] pubkey = false) (nRequired : Nat) :
    Merged check pubkeys held nRequired (mergedSigs
      ((allSigs sigs1 sigs2).toList.foldl (matchSig check pubkeys) ∅) nRequired pubkeys) := by
  have hnil : Matched check pubkeys ∅ [] := matched_nil
  have hmatched : Matched check pubkeys
      ((allSigs sigs1 sigs2).toList.foldl (matchSig check pubkeys) ∅)
      ((allSigs sigs1 sigs2).toList.reverse ++ []) :=
    hnil.foldl fun sig hsig => honly sig ((hheld sig).mpr (mem_allSigs.mp hsig).1)
  refine merged_mergedSigs hmatched (fun sig => ?_) hempty
  rw [List.append_nil, List.mem_reverse, mem_allSigs, hheld]

end

/-- The script only pushes, the values in this order, and keeps the limits of `EvalScript`. -/
structure PushesValues (scriptSig : CScript) (values : List valtype) : Prop where
  exists_reads : ∃ ops, Reads scriptSig ops [] ∧ (∀ op ∈ ops, op.1 ≤ OP_16 ∧ op.1 ≠ 0x50) ∧
    ops.map pushedBy = values
  length_le : scriptSig.length ≤ 10000
  count_le : values.length ≤ 1000
  small : ∀ vch ∈ values, vch.length ≤ MAX_SCRIPT_ELEMENT_SIZE

section

variable [ScriptHashing] [ByteHashing] [ByteHashing160] {scriptSig : CScript}
  {values : List valtype}

theorem PushesValues.result_evalScript (h : PushesValues scriptSig values) (flags : Nat)
    (checkSig : valtype → valtype → CScript → Bool) :
    (evalScript ⟨scriptSig, flags, checkSig⟩ []).result = .ok (ScriptState.init values.reverse) := by
  obtain ⟨ops, hreads, hpush, rfl⟩ := h.exists_reads
  have hops : ∀ op ∈ ops, op.1 ≤ OP_16 ∧ op.1 ≠ 0x50 ∧
      op.2.length ≤ MAX_SCRIPT_ELEMENT_SIZE := by
    intro op hop
    refine ⟨(hpush op hop).1, (hpush op hop).2, ?_⟩
    by_cases hdata : op.1 ≤ OP_PUSHDATA4
    · have hsmall := h.small _ (List.mem_map_of_mem hop)
      rwa [pushedBy, if_pos hdata] at hsmall
    · rw [hreads.operand_eq_nil op hop (UInt8.not_le.mp hdata)]
      exact Nat.zero_le _
  have hcount := h.count_le
  rw [List.length_map] at hcount
  have hreads' : Reads (ScriptContext.mk scriptSig flags checkSig).script ops [] := hreads
  exact result_evalScript_of_reads hreads' h.length_le hops hcount

theorem PushesValues.evalScriptStack_eq (h : PushesValues scriptSig values) (flags : Nat)
    (checkSig : valtype → valtype → CScript → Bool) :
    evalScriptStack ⟨scriptSig, flags, checkSig⟩ [] = values.reverse :=
  evalScriptStack_of_ok (h.result_evalScript flags checkSig)

end

/-! ## Multisig scripts -/

section

variable (valid : valtype → valtype → Bool)

/-- A valid signature for a public key; `CheckSig` rejects the empty one. -/
def isSigFor (sig pubkey : valtype) : Bool := !sig.isEmpty && valid sig pubkey

/-- `CheckSig` as a predicate on signature and public key. -/
def checkSigBy : SigChecker := fun _ _ _ sig pubkey _ => isSigFor valid sig pubkey

variable {valid} {m n : UInt8} {pubkeys sigs1 sigs2 held sigs : List valtype} {redeem : CScript}

theorem isSigFor_nil (pubkey : valtype) : isSigFor valid [] pubkey = false := rfl

/-- No signature is valid for two of the keys. -/
def OneKey (valid : valtype → valtype → Bool) (pubkeys : List valtype) : Prop :=
  ∀ sig, ∀ key ∈ pubkeys, ∀ key' ∈ pubkeys, isSigFor valid sig key = true →
    isSigFor valid sig key' = true → key = key'

theorem combineMultisig_merged (honly : OneKey valid pubkeys)
    (hheld : ∀ sig, sig ∈ held ↔ sig ∈ sigs1 ++ sigs2) (scriptPubKey : CScript)
    (txTo : CTransaction) (nIn : Nat) :
    ∃ sigs, Merged (isSigFor valid) pubkeys held m.toNat sigs ∧
      combineMultisig (checkSigBy valid) scriptPubKey txTo nIn ([m] :: (pubkeys ++ [[n]])) sigs1
        sigs2 = (([] :: sigs).map push).flatten := by
  have hmerged := merged_allSigs hheld (fun sig _ => honly sig) isSigFor_nil m.toNat
  refine ⟨_, hmerged, ?_⟩
  have hpubkeys : ([m] :: (pubkeys ++ [[n]])).tail.dropLast = pubkeys := by
    rw [List.tail_cons, List.dropLast_concat]
  rw [combineMultisig, hpubkeys]
  rfl

theorem exists_keys_of_multisig
    (hsolver : redeem.solver = some (TX_MULTISIG, [m] :: (pubkeys ++ [[n]]))) :
    ∃ keys : List (UInt8 × valtype), keys.map Prod.snd = pubkeys ∧ 1 ≤ m ∧ m ≤ n ∧ n ≤ 16 ∧
      keys.length = n.toNat ∧ (∀ key ∈ keys, 33 ≤ key.2.length ∧ key.2.length ≤ 120) ∧
      Reads redeem ((OP_1 - 1 + m, []) ::
        (keys ++ [(OP_1 - 1 + n, []), (OP_CHECKMULTISIG, [])])) [] := by
  have hsolution := solution_of_solver hsolver
  generalize hvalues : [m] :: (pubkeys ++ [[n]]) = vSolutions at hsolution
  cases hsolution with
  | @multisig m' n' keys hm hmn hn hlength hrange hreads =>
    obtain ⟨hfirst, hrest⟩ := List.cons.inj hvalues
    obtain ⟨rfl, hlast⟩ := List.append_inj' hrest rfl
    obtain rfl := (List.cons.inj hfirst).1
    obtain rfl := (List.cons.inj (List.cons.inj hlast).1).1
    exact ⟨keys, rfl, hm, hmn, hn, hlength, hrange, hreads⟩

theorem not_scriptHash_of_multisig {vSolutions : List valtype}
    (hsolver : redeem.solver = some (TX_MULTISIG, vSolutions)) :
    redeem.isPayToScriptHash = false := by
  refine Bool.eq_false_iff.mpr fun hp2sh => ?_
  rw [solver, if_pos hp2sh] at hsolver
  cases hsolver

variable [ScriptHashing] [ByteHashing] [ByteHashing160]

/-- Merged signatures satisfy the script if there are as many as it requires. -/
theorem evalScript_merged
    (hsolver : redeem.solver = some (TX_MULTISIG, [m] :: (pubkeys ++ [[n]])))
    (hmerged : Merged (isSigFor valid) pubkeys held m.toNat sigs) (txTo : CTransaction)
    (nIn : Nat) {flags : Nat} (hflags : flags.testBit 1 = false) :
    ∃ st, (evalScript ⟨redeem, flags, checkSigBy valid txTo nIn 0⟩ ([] :: sigs).reverse).result =
        .ok st ∧ (topIsTrue st.stack = true ↔
          m.toNat ≤ (signedKeys (isSigFor valid) pubkeys held).length) := by
  obtain ⟨keys, rfl, hm, hmn, hn, hlength, hrange, hreads⟩ := exists_keys_of_multisig hsolver
  have hreads' : Reads (ScriptContext.mk redeem flags (checkSigBy valid txTo nIn 0)).script _ [] :=
    hreads
  obtain ⟨st, hst, htrue⟩ :=
    evalScript_multisig hm hmn hn hlength hrange hreads' hmerged.length_eq
  refine ⟨st, hst, htrue.trans ?_⟩
  have hverifies : ∀ scriptCode, verifies ⟨redeem, flags, checkSigBy valid txTo nIn 0⟩ scriptCode =
      isSigFor valid := by
    intro scriptCode
    funext sig pubkey
    have hstrict : fStrictEncodings ⟨redeem, flags, checkSigBy valid txTo nIn 0⟩ = false := hflags
    rw [verifies, isCanonical, hstrict]
    rfl
  rw [hverifies]
  exact hmerged.assignable_iff isSigFor_nil

omit [ScriptHashing] [ByteHashing] [ByteHashing160] in
theorem Merged.small (hmerged : Merged (isSigFor valid) pubkeys held m.toNat sigs)
    (hheld : ∀ vch ∈ held, vch.length ≤ MAX_SCRIPT_ELEMENT_SIZE) :
    ∀ vch ∈ [] :: sigs, vch.length ≤ MAX_SCRIPT_ELEMENT_SIZE := by
  intro vch hvch
  obtain rfl | hvch := List.mem_cons.mp hvch
  · exact Nat.zero_le _
  · obtain rfl | hvch := hmerged.mem_held hvch
    · exact Nat.zero_le _
    · exact hheld vch hvch

/-! ## The combined script -/

/-- The script pushes merged signatures, and then `rest`. With the flags it is accepted exactly if
there are as many keys with a signature as are required. -/
structure Combined (valid : valtype → valtype → Bool) (pubkeys held : List valtype)
    (nRequired : Nat) (rest : List valtype) (scriptPubKey : CScript) (txTo : CTransaction)
    (nIn : Nat) (flagsOk : Nat → Prop) (combined : CScript) : Prop where
  merged : ∃ sigs, Merged (isSigFor valid) pubkeys held nRequired sigs ∧
    combined = ((([] :: sigs) ++ rest).map push).flatten
  accepted : ∀ flags, flagsOk flags →
    ((verifyScript (checkSigBy valid txTo nIn 0) combined scriptPubKey flags).result.isOk = true ↔
      nRequired ≤ (signedKeys (isSigFor valid) pubkeys held).length)

/-- The script that pays to the hash of another: `SetDestination` of its `CScriptID`. -/
def payToScriptHash (redeem : CScript) : CScript :=
  OP_HASH160 :: 0x14 :: (writeUint160 (ByteHashing160.hash160 redeem) ++ [OP_EQUAL])

omit [ScriptHashing] [ByteHashing] in
theorem payToScriptHash_spec (redeem : CScript) :
    (payToScriptHash redeem).isPayToScriptHash = true ∧
      ((payToScriptHash redeem).drop 2).take 20 =
        writeUint160 (ByteHashing160.hash160 redeem) :=
  ⟨isPayToScriptHash_iff.mpr ⟨_, length_writeUint160 _, rfl⟩, List.take_left' (length_writeUint160 _)⟩

variable {values1 values2 : List valtype} {scriptSig1 scriptSig2 : CScript}
  {txTo : CTransaction} {nIn : Nat}

theorem combined_multisig
    (hsolver : redeem.solver = some (TX_MULTISIG, [m] :: (pubkeys ++ [[n]])))
    (honly : OneKey valid pubkeys) (h1 : PushesValues scriptSig1 values1)
    (h2 : PushesValues scriptSig2 values2) :
    Combined valid pubkeys (values1 ++ values2) m.toNat [] redeem txTo nIn
      (fun flags => flags.testBit 1 = false)
      (combineSignatures (checkSigBy valid) redeem txTo nIn scriptSig1 scriptSig2) := by
  have hheld : ∀ sig, sig ∈ values1 ++ values2 ↔ sig ∈ values1.reverse ++ values2.reverse := by
    intro sig
    simp only [List.mem_append, List.mem_reverse]
  have hsmall : ∀ vch ∈ values1 ++ values2, vch.length ≤ MAX_SCRIPT_ELEMENT_SIZE :=
    List.forall_mem_append.mpr ⟨h1.small, h2.small⟩
  obtain ⟨sigs, hmerged, hsigs⟩ :=
    combineMultisig_merged (m := m) (n := n) honly hheld redeem txTo nIn
  have hcombined : combineSignatures (checkSigBy valid) redeem txTo nIn scriptSig1 scriptSig2 =
      (([] :: sigs).map push).flatten := by
    rw [combineSignatures, solverRet_of_solver hsolver]
    dsimp only
    rw [h1.evalScriptStack_eq, h2.evalScriptStack_eq, combineStacks, hsigs]
  have hcount : ([] :: sigs).length ≤ 19 := by
    obtain ⟨keys, -, -, hmn, hn, -⟩ := exists_keys_of_multisig hsolver
    have hm16 : m.toNat ≤ 16 := UInt8.le_iff_toNat_le.mp (UInt8.le_trans hmn hn)
    rw [List.length_cons, hmerged.length_eq]
    omega
  rw [hcombined]
  refine ⟨⟨sigs, hmerged, by rw [List.append_nil]⟩, fun flags hflags => ?_⟩
  obtain ⟨st, hst, htrue⟩ := evalScript_merged hsolver hmerged txTo nIn hflags
  rw [isOk_verifyScript_pushes (hmerged.small hsmall) hcount
    (not_scriptHash_of_multisig hsolver) hst]
  exact htrue

theorem combined_scriptHash
    (hsolver : redeem.solver = some (TX_MULTISIG, [m] :: (pubkeys ++ [[n]])))
    (honly : OneKey valid pubkeys) (h1 : PushesValues scriptSig1 (values1 ++ [redeem]))
    (h2 : PushesValues scriptSig2 (values2 ++ [redeem])) :
    Combined valid pubkeys (values1 ++ values2) m.toNat [redeem] (payToScriptHash redeem) txTo nIn
      (fun flags => flags.testBit 0 = true ∧ flags.testBit 1 = false)
      (combineSignatures (checkSigBy valid) (payToScriptHash redeem) txTo nIn scriptSig1
        scriptSig2) := by
  have hheld : ∀ sig, sig ∈ values1 ++ values2 ↔ sig ∈ values1.reverse ++ values2.reverse := by
    intro sig
    simp only [List.mem_append, List.mem_reverse]
  obtain ⟨hsmall1, hredeem⟩ := List.forall_mem_append.mp h1.small
  have hsmall : ∀ vch ∈ values1 ++ values2, vch.length ≤ MAX_SCRIPT_ELEMENT_SIZE :=
    List.forall_mem_append.mpr ⟨hsmall1, (List.forall_mem_append.mp h2.small).1⟩
  obtain ⟨hp2sh, hhash⟩ := payToScriptHash_spec redeem
  obtain ⟨keys, -, -, hmn, hn, -, -, hreads⟩ := exists_keys_of_multisig hsolver
  have hm16 : m.toNat ≤ 16 := UInt8.le_iff_toNat_le.mp (UInt8.le_trans hmn hn)
  have hne : redeem.isEmpty = false := by
    cases hreads with
    | cons hop _ =>
      cases redeem with
      | nil => cases hop
      | cons b redeem => rfl
  obtain ⟨sigs, hmerged, hsigs⟩ :=
    combineMultisig_merged (m := m) (n := n) honly hheld redeem txTo nIn
  have hcombined : combineSignatures (checkSigBy valid) (payToScriptHash redeem) txTo nIn
      scriptSig1 scriptSig2 = ((([] :: sigs) ++ [redeem]).map push).flatten := by
    have hsolverHash : (payToScriptHash redeem).solverRet = (TX_SCRIPTHASH, _) :=
      solverRet_of_solver (if_pos hp2sh)
    rw [combineSignatures, hsolverHash]
    dsimp only
    rw [h1.evalScriptStack_eq, h2.evalScriptStack_eq, List.reverse_append, List.reverse_append,
      List.reverse_singleton, List.singleton_append, List.singleton_append, combineStacks, hne,
      List.headD_cons, hne, solverRet_of_solver hsolver]
    simp only [Bool.false_eq_true, if_false, List.tail_cons, combineStacks, hsigs,
      List.map_append, List.flatten_append, List.map_cons, List.map_nil, List.flatten_cons,
      List.flatten_nil, List.append_nil]
  rw [hcombined]
  refine ⟨⟨sigs, hmerged, rfl⟩, fun flags hflags => ?_⟩
  obtain ⟨st, hst, htrue⟩ := evalScript_merged hsolver hmerged txTo nIn hflags.2
  have hcount : ([] :: sigs).length ≤ 18 := by
    rw [List.length_cons, hmerged.length_eq]
    omega
  rw [isOk_verifyScript_scriptHash
    (List.forall_mem_append.mpr ⟨hmerged.small hsmall, hredeem⟩) hcount hp2sh hhash.symm hflags.1 hst]
  exact htrue

/-- Two scripts that push signatures for a multisig script are combined into one that pushes, in the
order of the keys, a signature for each of the first `m` keys that have one in either; it is
accepted exactly if `m` keys have one. The same is so if the multisig script is a redeem script,
which both push last. -/
theorem combineSignatures_spec (valid : valtype → valtype → Bool) (redeem : CScript) (m n : UInt8)
    (pubkeys : List valtype) (txTo : CTransaction) (nIn : Nat)
    (hsolver : redeem.solver = some (TX_MULTISIG, [m] :: (pubkeys ++ [[n]])))
    (honly : OneKey valid pubkeys) (scriptSig1 scriptSig2 : CScript)
    (values1 values2 : List valtype) :
    (PushesValues scriptSig1 values1 → PushesValues scriptSig2 values2 →
      Combined valid pubkeys (values1 ++ values2) m.toNat [] redeem txTo nIn
        (fun flags => flags.testBit 1 = false)
        (combineSignatures (checkSigBy valid) redeem txTo nIn scriptSig1 scriptSig2)) ∧
    (PushesValues scriptSig1 (values1 ++ [redeem]) →
      PushesValues scriptSig2 (values2 ++ [redeem]) →
      Combined valid pubkeys (values1 ++ values2) m.toNat [redeem] (payToScriptHash redeem) txTo
        nIn (fun flags => flags.testBit 0 = true ∧ flags.testBit 1 = false)
        (combineSignatures (checkSigBy valid) (payToScriptHash redeem) txTo nIn scriptSig1
          scriptSig2)) :=
  ⟨combined_multisig hsolver honly, combined_scriptHash hsolver honly⟩

end

namespace CombineSample

open ScriptSample

/-- A key of 33 equal bytes; a signature is for the keys that start with its first byte. -/
def pubkey (b : UInt8) : valtype := List.replicate 33 b

def valid (sig pubkey : valtype) : Bool := sig.head? == pubkey.head?

def redeem : CScript := 0x52 :: (push (pubkey 1) ++ push (pubkey 2) ++ [0x52, OP_CHECKMULTISIG])

def scriptSig (values : List valtype) : CScript := (values.map push).flatten

theorem pushesValues_scriptSig {values : List valtype} (hcount : values.length ≤ 19)
    (hsmall : ∀ vch ∈ values, vch.length ≤ MAX_SCRIPT_ELEMENT_SIZE) :
    PushesValues (scriptSig values) values where
  exists_reads := by
    have hreads := Reads.pushes
      (fun b (hb : b ∈ values) => Nat.lt_of_le_of_lt (hsmall b hb) (by decide)) []
    rw [List.append_nil] at hreads
    refine ⟨_, hreads, fun op hop => ?_, map_pushed_push values⟩
    obtain ⟨b, -, rfl⟩ := List.mem_map.mp hop
    exact ⟨(le_of_pushOpcode b).1, (le_of_pushOpcode b).2.1⟩
  length_le := by
    have hle := length_pushes_le hsmall
    unfold MAX_SCRIPT_ELEMENT_SIZE at hle
    rw [scriptSig]
    omega
  count_le := Nat.le_trans hcount (by decide)
  small := hsmall

theorem oneKey : OneKey valid [pubkey 1, pubkey 2] := by
  intro sig key hkey key' hkey' hsig hsig'
  simp only [isSigFor, valid, Bool.and_eq_true, beq_iff_eq] at hsig hsig'
  have hhead := hsig.2.symm.trans hsig'.2
  simp only [List.mem_cons, List.not_mem_nil, or_false] at hkey hkey'
  obtain rfl | rfl := hkey <;> obtain rfl | rfl := hkey'
  · rfl
  · exact absurd hhead (by decide)
  · exact absurd hhead (by decide)
  · rfl

/-- Each of the scripts has one of the two signatures, the second one in the place of the first. -/
theorem combineSignatures_spec_sample :
    combineSignatures (checkSigBy valid) redeem CTransaction.fresh 0 (scriptSig [[], [1]])
        (scriptSig [[], [2], []]) = scriptSig [[], [1], [2]] ∧
      Combined valid [pubkey 1, pubkey 2] ([[], [1]] ++ [[], [2], []]) 2 [] redeem
        CTransaction.fresh 0 (fun flags => flags.testBit 1 = false)
        (combineSignatures (checkSigBy valid) redeem CTransaction.fresh 0 (scriptSig [[], [1]])
          (scriptSig [[], [2], []])) ∧
      Combined valid [pubkey 1, pubkey 2] ([[], [1]] ++ [[], [2], []]) 2 [redeem]
        (payToScriptHash redeem) CTransaction.fresh 0
        (fun flags => flags.testBit 0 = true ∧ flags.testBit 1 = false)
        (combineSignatures (checkSigBy valid) (payToScriptHash redeem) CTransaction.fresh 0
          (scriptSig ([[], [1]] ++ [redeem])) (scriptSig ([[], [2], []] ++ [redeem]))) :=
  ⟨by decide +kernel,
    (combineSignatures_spec valid redeem 2 2 [pubkey 1, pubkey 2] CTransaction.fresh 0
      (by decide +kernel) oneKey _ _ _ _).1 (pushesValues_scriptSig (by decide) (by decide))
        (pushesValues_scriptSig (by decide) (by decide)),
    (combineSignatures_spec valid redeem 2 2 [pubkey 1, pubkey 2] CTransaction.fresh 0
      (by decide +kernel) oneKey _ _ _ _).2
        (pushesValues_scriptSig (by decide) (by decide +kernel))
        (pushesValues_scriptSig (by decide) (by decide +kernel))⟩

def redeem1 : CScript := 0x51 :: (push (pubkey 1) ++ [0x51, OP_CHECKMULTISIG])

/-- More than `EvalScript` pushes. -/
def large : valtype := List.replicate 521 0

/-- A script that pushes a large element and then a signature for the only key: the signature gets
lost, although one signature is all that is required. -/
theorem combineSignatures_loses :
    redeem1.solver = some (TX_MULTISIG, [1] :: ([pubkey 1] ++ [[1]])) ∧
      OneKey valid [pubkey 1] ∧
      Reads (scriptSig [[], large, [1]]) [(0, []), (OP_PUSHDATA2, large), (1, [1])] [] ∧
      Reads (scriptSig [[]]) [(0, [])] [] ∧
      signedKeys (isSigFor valid) [pubkey 1] ([[], large, [1]] ++ [[]]) = [pubkey 1] ∧
      combineSignatures (checkSigBy valid) redeem1 CTransaction.fresh 0
        (scriptSig [[], large, [1]]) (scriptSig [[]]) = scriptSig [[], []] ∧
      (verifyScript (checkSigBy valid CTransaction.fresh 0 0) (combineSignatures (checkSigBy valid)
        redeem1 CTransaction.fresh 0 (scriptSig [[], large, [1]]) (scriptSig [[]])) redeem1
          0).result.isOk = false ∧
      ¬ Combined valid [pubkey 1] ([[], large, [1]] ++ [[]]) 1 [] redeem1 CTransaction.fresh 0
        (fun flags => flags.testBit 1 = false) (combineSignatures (checkSigBy valid) redeem1
          CTransaction.fresh 0 (scriptSig [[], large, [1]]) (scriptSig [[]])) := by
  have hsigned : signedKeys (isSigFor valid) [pubkey 1] ([[], large, [1]] ++ [[]]) =
      [pubkey 1] := by decide +kernel
  have hverify : (verifyScript (checkSigBy valid CTransaction.fresh 0 0) (combineSignatures
      (checkSigBy valid) redeem1 CTransaction.fresh 0 (scriptSig [[], large, [1]])
        (scriptSig [[]])) redeem1 0).result.isOk = false := by decide +kernel
  refine ⟨by decide +kernel, ?_, ?_, ?_, hsigned, by decide +kernel, hverify, fun h => ?_⟩
  · intro sig key hkey key' hkey' _ _
    rw [List.mem_singleton.mp hkey, List.mem_singleton.mp hkey']
  · have hvalues : ∀ b ∈ ([[], large, [1]] : List valtype), b.length < 2 ^ 32 := by
      decide +kernel
    have hops : ([[], large, [1]] : List valtype).map (fun b => (pushOpcode b, b)) =
        [(0, []), (OP_PUSHDATA2, large), (1, [1])] := by decide +kernel
    have hreads := Reads.pushes hvalues []
    rw [List.append_nil, hops] at hreads
    exact hreads
  · exact .cons rfl (.nil [])
  · have haccepted := (h.accepted 0 (by decide)).mpr (by rw [hsigned]; decide)
    rw [hverify] at haccepted
    cases haccepted

end CombineSample

end Terracoin
