import Terracoin.Lib.Choice
import Terracoin.Script.CombineSignatures

/-!
# Merging the scripts of several signers

`CombineSignatures` merges two scripts, and a script is merged with one after the other. What is left
of them in the end depends on the type of the output (`MergedBy`): for a public key or its hash the
first script with a signature, for a script of no known type the biggest one, and for a multisig
script a signature for each of the first keys that have one in any of them. For the hash of a script
the scripts that end with one are merged by the type of the script that the first of them ends with.
-/

namespace Terracoin

open Std (TreeMap)
open Choice
open CScript EvalScript txnouttype

/-! ## What a merge leaves -/

/-- The first value is not empty. Signatures are bigger than placeholders or empty scripts. -/
def hasSignature (st : List valtype) : Bool := !(st.getLastD []).isEmpty

/-- The last value is not empty. -/
def hasScript (st : List valtype) : Bool := !(st.headD []).isEmpty

/-- What is left of the stacks of several scripts for an output. What is left of them for a multisig
script is given apart. -/
inductive MergedBy (multisig : CScript → List (List valtype) → List valtype → Prop) :
    CScript → List (List valtype) → List valtype → Prop
  | signature {s : CScript} {sts : List (List valtype)} :
      s.solverRet.1 = TX_PUBKEY ∨ s.solverRet.1 = TX_PUBKEYHASH →
      MergedBy multisig s sts (firstOrLast hasSignature sts [])
  | bigger {s : CScript} {sts : List (List valtype)} {st : List valtype} :
      s.solverRet.1 = TX_NONSTANDARD → sts.argmax List.length = some st →
      MergedBy multisig s sts st
  | multisig {s : CScript} {sts : List (List valtype)} {st : List valtype} :
      s.solverRet.1 = TX_MULTISIG → multisig s sts st → MergedBy multisig s sts st
  | noScript {s : CScript} {sts : List (List valtype)} :
      s.solverRet.1 = TX_SCRIPTHASH → sts.filter hasScript = [] →
      MergedBy multisig s sts (sts.getLastD [])
  | redeem {s redeem : CScript} {sts sts' : List (List valtype)} {st merged : List valtype} :
      s.solverRet.1 = TX_SCRIPTHASH → sts.filter hasScript = (redeem :: st) :: sts' →
      MergedBy multisig redeem (st :: sts'.map List.tail) merged →
      MergedBy multisig s sts (redeem :: merged)

/-- The public keys of a multisig script, and the number of signatures it requires. -/
def multisigKeys (s : CScript) : List valtype := s.solverRet.2.tail.dropLast

def nSigsRequired (s : CScript) : Nat := ((s.solverRet.2.headD []).headD 0).toNat

/-- No signature that is held is valid for two of the keys. -/
def OneKeyFor (check : valtype → valtype → Bool) (pubkeys held : List valtype) : Prop :=
  ∀ sig ∈ held, ∀ key ∈ pubkeys, ∀ key' ∈ pubkeys, check sig key = true → check sig key' = true →
    key = key'

/-- One script stays as it is. More are merged into one with the signatures of all of them. -/
def MergedMultisig (check : valtype → valtype → CScript → Bool) (s : CScript)
    (sts : List (List valtype)) (st : List valtype) : Prop :=
  sts = [st] ∨ 2 ≤ sts.length ∧ ∃ sigs, st = ([] :: sigs).reverse ∧
    (∀ sig ∈ sigs, sig = [] ∨ sig ∈ sts.flatten) ∧
    (OneKeyFor (fun sig key => check sig key s) (multisigKeys s) sts.flatten →
      Merged (fun sig key => check sig key s) (multisigKeys s) sts.flatten (nSigsRequired s) sigs)

/-! ## Merging once more -/

section

variable {check : valtype → valtype → Bool} {pubkeys held held' sigs sigs' : List valtype}
  {nRequired : Nat}

theorem mem_pushed {sig : valtype} (h : ∀ sig ∈ sigs, sig = [] ∨ sig ∈ held)
    (hsig : sig ∈ ([] :: sigs).reverse) : sig = [] ∨ sig ∈ held := by
  rw [List.mem_reverse] at hsig
  obtain rfl | hsig := List.mem_cons.mp hsig
  · exact .inl rfl
  · exact h sig hsig

theorem OneKeyFor.of_mem (h : OneKeyFor check pubkeys held) (hempty : ∀ pubkey, check [] pubkey = false)
    (hmem : ∀ sig ∈ held', sig = [] ∨ sig ∈ held) : OneKeyFor check pubkeys held' := by
  intro sig hsig key hkey key' hkey' hcheck hcheck'
  obtain rfl | hheld := hmem sig hsig
  · rw [hempty] at hcheck
    cases hcheck
  · exact h sig hheld key hkey key' hkey' hcheck hcheck'

/-- The signatures that were merged do for those that they were merged from. -/
theorem Merged.merge {more : List valtype} (h : Merged check pubkeys held nRequired sigs)
    (h' : Merged check pubkeys (([] :: sigs).reverse ++ more) nRequired sigs')
    (hempty : ∀ pubkey, check [] pubkey = false) (hheld' : ∀ sig, sig ∈ held' ↔ sig ∈ held ++ more) :
    Merged check pubkeys held' nRequired sigs' := by
  have hsplit : ∀ l l' : List valtype, signedKeys check pubkeys (l ++ l') = pubkeys.filter
      fun pubkey => (l.any fun sig => check sig pubkey) || l'.any fun sig => check sig pubkey := by
    intro l l'
    simp only [signedKeys, List.any_append]
  have hmem : ∀ sig ∈ ([] :: sigs).reverse, sig = [] ∨ sig ∈ held :=
    fun _ => mem_pushed fun _ hsig => h.mem_held hsig
  have hsigned : (signedKeys check pubkeys (([] :: sigs).reverse ++ more)).take nRequired =
      (signedKeys check pubkeys held').take nRequired := by
    have hkeys : signedKeys check pubkeys held' = signedKeys check pubkeys (held ++ more) := by
      refine List.filter_congr fun pubkey _ => Bool.eq_iff_iff.mpr ?_
      simp only [List.any_eq_true, hheld']
    rw [hkeys, hsplit, hsplit]
    refine take_filter_or nRequired (fun pubkey _ hany => ?_) fun pubkey hpubkey => ?_
    · obtain ⟨sig, hsig, hcheck⟩ := List.any_eq_true.mp hany
      obtain rfl | hsig := hmem sig hsig
      · rw [hempty] at hcheck
        cases hcheck
      · exact List.any_eq_true.mpr ⟨sig, hsig, hcheck⟩
    · -- each of the first keys has its signature among the merged ones
      obtain ⟨sigsHave, rfl, hsigs⟩ := h.exists_sigsHave
      obtain ⟨i, hi, rfl⟩ := List.mem_iff_getElem.mp hpubkey
      have hi' : i < sigsHave.length := by
        rw [hsigs.length_eq]
        exact hi
      have hcheck := ((List.forall₂_iff_get.mp hsigs).2 i hi' hi).2
      refine List.any_eq_true.mpr ⟨sigsHave[i], ?_, hcheck⟩
      rw [List.mem_reverse]
      exact List.mem_cons_of_mem _ (List.mem_append_left _ (List.getElem_mem hi'))
  obtain ⟨sigsHave, rfl, hsigs⟩ := h'.exists_sigsHave
  rw [hsigned] at hsigs
  refine ⟨sigsHave, rfl, hsigs.imp fun sig pubkey hsig => ⟨(hheld' sig).mpr ?_, hsig.2⟩⟩
  obtain hmore | hmore := List.mem_append.mp hsig.1
  · obtain rfl | hsig' := hmem sig hmore
    · rw [hempty] at hsig
      cases hsig.2
    · exact List.mem_append_left _ hsig'
  · exact List.mem_append_right _ hmore

theorem mem_of_foldl_matchSig {values : List valtype} {sigs : TreeMap valtype valtype}
    {pubkey sig : valtype} (h : (values.foldl (matchSig check pubkeys) sigs)[pubkey]? = some sig) :
    sig ∈ values ∨ sigs[pubkey]? = some sig := by
  induction values generalizing sigs with
  | nil => exact .inr h
  | cons value values ih =>
    obtain hmem | hget := ih h
    · exact .inl (List.mem_cons_of_mem _ hmem)
    · unfold matchSig at hget
      split at hget
      · rw [getElem?_insert_sig] at hget
        split at hget
        · exact .inl (Option.some.inj hget ▸ List.mem_cons_self)
        · exact .inr hget
      · exact .inr hget

theorem mem_mergedSigs {sigs1 sigs2 : List valtype} {sig : valtype} (h : sig ∈ mergedSigs
      ((allSigs sigs1 sigs2).toList.foldl (matchSig check pubkeys) ∅) nRequired pubkeys) :
    sig = [] ∨ sig ∈ sigs1 ++ sigs2 := by
  rw [mergedSigs] at h
  obtain h | h := List.mem_append.mp h
  · obtain ⟨pubkey, -, hget⟩ := List.mem_filterMap.mp (List.mem_of_mem_take h)
    obtain hmem | hnone := mem_of_foldl_matchSig hget
    · exact .inr (mem_allSigs.mp hmem).1
    · simp at hnone
  · exact .inl (List.eq_of_mem_replicate h)

end

section

variable {checkSig : SigChecker} {txTo : CTransaction} {nIn : Nat} {s : CScript}
  {sts : List (List valtype)} {st : List valtype}

theorem pushAll_cons (spk : valtype) (st : List valtype) :
    pushAll (spk :: st) = pushAll st ++ push spk := by
  simp [pushAll]

theorem hasSignature_nil : hasSignature [] = false := rfl

theorem MergedMultisig.mem_flatten {check : valtype → valtype → CScript → Bool} {sig : valtype}
    (h : MergedMultisig check s sts st) (hsig : sig ∈ st) : sig = [] ∨ sig ∈ sts.flatten := by
  obtain rfl | ⟨-, sigs, rfl, hsigs, -⟩ := h
  · rw [List.flatten_singleton]
    exact .inr hsig
  · exact mem_pushed hsigs hsig

/-- `CombineMultisig` merges what was merged before with one more script. -/
theorem mergedMultisig_combine (hempty : ∀ key s, checkSig txTo nIn 0 [] key s = false)
    (h : MergedMultisig (checkSig txTo nIn 0) s sts st) (more : List valtype) :
    ∃ st', combineMultisig checkSig s txTo nIn s.solverRet.2 st more = pushAll st' ∧
      MergedMultisig (checkSig txTo nIn 0) s (sts ++ [more]) st' := by
  have hmem : ∀ sig ∈ st ++ more, sig = [] ∨ sig ∈ sts.flatten ++ more := by
    intro sig hsig
    obtain hsig | hsig := List.mem_append.mp hsig
    · exact (h.mem_flatten hsig).imp_right (List.mem_append_left more)
    · exact .inr (List.mem_append_right _ hsig)
  have hflatten : (sts ++ [more]).flatten = sts.flatten ++ more := by
    rw [List.flatten_append, List.flatten_singleton]
  refine ⟨([] :: mergedSigs ((allSigs st more).toList.foldl
    (matchSig (fun sig key => checkSig txTo nIn 0 sig key s) (multisigKeys s)) ∅)
      (nSigsRequired s) (multisigKeys s)).reverse, ?_, .inr ⟨?_, _, rfl, ?_, ?_⟩⟩
  · rw [pushAll, List.reverse_reverse]
    rfl
  · obtain rfl | ⟨hlength, -⟩ := h
    · exact Nat.le_refl 2
    · rw [List.length_append]
      omega
  · intro sig hsig
    rw [hflatten]
    obtain rfl | hsig := mem_mergedSigs hsig
    · exact .inl rfl
    · exact hmem sig hsig
  · rw [hflatten]
    intro honly
    have hone := honly.of_mem (fun key => hempty key s) hmem
    have hcombined := merged_allSigs (fun _ => Iff.rfl) hone (fun key => hempty key s)
      (nSigsRequired s)
    obtain rfl | ⟨-, sigs, rfl, -, hmerged⟩ := h
    · rw [List.flatten_singleton]
      exact hcombined
    · have hbefore := hmerged fun sig hsig => honly sig (List.mem_append_left _ hsig)
      exact hbefore.merge hcombined (fun key => hempty key s) fun _ => Iff.rfl

/-- One script alone stays as it is. -/
theorem mergedBy_singleton {multisig : CScript → List (List valtype) → List valtype → Prop}
    (hone : ∀ s st, multisig s [st] st) (s : CScript) (st : List valtype) :
    MergedBy multisig s [st] st := by
  induction st generalizing s with
  | nil =>
    cases htype : s.solverRet.1 with
    | TX_NONSTANDARD => exact .bigger htype List.argmax_singleton
    | TX_PUBKEY => exact .signature (.inl htype)
    | TX_PUBKEYHASH => exact .signature (.inr htype)
    | TX_SCRIPTHASH => exact .noScript htype rfl
    | TX_MULTISIG => exact .multisig htype (hone s [])
  | cons spk st ih =>
    cases htype : s.solverRet.1 with
    | TX_NONSTANDARD => exact .bigger htype List.argmax_singleton
    | TX_PUBKEY =>
      have hfirst : MergedBy multisig s [spk :: st] _ := .signature (.inl htype)
      rwa [firstOrLast_singleton] at hfirst
    | TX_PUBKEYHASH =>
      have hfirst : MergedBy multisig s [spk :: st] _ := .signature (.inr htype)
      rwa [firstOrLast_singleton] at hfirst
    | TX_SCRIPTHASH =>
      cases hscript : hasScript (spk :: st) with
      | true => exact .redeem htype (List.filter_singleton.trans (by rw [hscript]; rfl)) (ih spk)
      | false =>
        have hlast : MergedBy multisig s [spk :: st] _ :=
          .noScript htype (List.filter_singleton.trans (by rw [hscript]; rfl))
        exact hlast
    | TX_MULTISIG => exact .multisig htype (hone s (spk :: st))

theorem combineStacks_noScript (htype : s.solverRet.1 = TX_SCRIPTHASH) (hnone : hasScript st = false)
    (more : List valtype) :
    combineStacks checkSig txTo nIn st more s s.solverRet.1 s.solverRet.2 = pushAll more := by
  rw [htype]
  cases st with
  | nil => rw [combineStacks]
  | cons spk st => rw [combineStacks, if_pos (by simpa [hasScript] using hnone)]

theorem mergedBy_noScript {multisig : CScript → List (List valtype) → List valtype → Prop}
    (hone : ∀ s st, multisig s [st] st) (htype : s.solverRet.1 = TX_SCRIPTHASH)
    (hfilter : sts.filter hasScript = []) (more : List valtype) :
    MergedBy multisig s (sts ++ [more]) more := by
  cases hscript : hasScript more with
  | false =>
    have hlast : MergedBy multisig s (sts ++ [more]) _ :=
      .noScript htype (by simp [hfilter, hscript])
    rwa [List.getLastD_concat] at hlast
  | true =>
    cases more with
    | nil => cases hscript
    | cons spk more =>
      have hredeem : (sts ++ [spk :: more]).filter hasScript = [spk :: more] := by
        simp [hfilter, hscript]
      exact .redeem htype hredeem (mergedBy_singleton hone spk more)

/-- `CombineSignatures` merges what was merged before with one more script. -/
theorem mergedBy_combine (hempty : ∀ key s, checkSig txTo nIn 0 [] key s = false)
    (h : MergedBy (MergedMultisig (checkSig txTo nIn 0)) s sts st) (more : List valtype) :
    ∃ st', combineStacks checkSig txTo nIn st more s s.solverRet.1 s.solverRet.2 = pushAll st' ∧
      MergedBy (MergedMultisig (checkSig txTo nIn 0)) s (sts ++ [more]) st' := by
  induction h generalizing more with
  | @signature s sts htype =>
    refine ⟨_, ?_, .signature htype⟩
    rw [firstOrLast_concat hasSignature_nil]
    obtain htype | htype := htype
    all_goals
      rw [htype, combineStacks, hasSignature]
      cases ((firstOrLast hasSignature sts []).getLastD []).isEmpty <;> rfl
  | @bigger s sts st htype hmax =>
    have hstep := List.argmax_concat List.length more sts
    rw [hmax] at hstep
    rw [htype, combineStacks]
    by_cases hle : more.length ≤ st.length
    · rw [if_pos hle]
      exact ⟨st, rfl, .bigger htype (hstep.trans (if_neg (Nat.not_lt.mpr hle)))⟩
    · rw [if_neg hle]
      exact ⟨more, rfl, .bigger htype (hstep.trans (if_pos (Nat.not_le.mp hle)))⟩
  | @multisig s sts st htype hmerged =>
    obtain ⟨st', hcombine, hmerged'⟩ := mergedMultisig_combine hempty hmerged more
    rw [htype, combineStacks]
    exact ⟨st', hcombine, .multisig htype hmerged'⟩
  | @noScript s sts htype hfilter =>
    have hnone : hasScript (sts.getLastD []) = false := by
      rw [List.getLastD_eq_getLast?]
      cases hlast : sts.getLast? with
      | none => rfl
      | some st =>
        simpa using List.filter_eq_nil_iff.mp hfilter st (List.mem_of_getLast? hlast)
    exact ⟨more, combineStacks_noScript htype hnone more,
      mergedBy_noScript (fun _ _ => .inl rfl) htype hfilter more⟩
  | @redeem s redeem sts sts' st merged htype hfilter hmerged ih =>
    have hredeem : redeem.isEmpty = false := by
      have hmem : redeem :: st ∈ sts.filter hasScript := hfilter ▸ List.mem_cons_self
      simpa [hasScript] using (List.mem_filter.mp hmem).2
    rw [htype, combineStacks, hredeem]
    cases hscript : hasScript more with
    | false =>
      have hfilter' : (sts ++ [more]).filter hasScript = (redeem :: st) :: sts' := by
        simp [hfilter, hscript]
      rw [if_neg Bool.false_ne_true, if_pos (by simpa [hasScript] using hscript)]
      exact ⟨redeem :: merged, rfl, .redeem htype hfilter' hmerged⟩
    | true =>
      have hfilter' : (sts ++ [more]).filter hasScript = (redeem :: st) :: (sts' ++ [more]) := by
        simp [hfilter, hscript]
      have hmore : (more.headD []).isEmpty = false := by simpa [hasScript] using hscript
      obtain ⟨merged', hcombine, hmerged'⟩ := ih more.tail
      rw [if_neg Bool.false_ne_true, hmore, if_neg Bool.false_ne_true]
      refine ⟨redeem :: merged', ?_, .redeem htype hfilter' ?_⟩
      · dsimp only
        rw [hcombine, pushAll_cons]
      · rw [List.map_append, List.map_singleton, ← List.cons_append]
        exact hmerged'

/-! ## Merging one script after the other -/

theorem mem_flatten_tail {sts : List (List valtype)} {v : valtype}
    (h : v ∈ (sts.map List.tail).flatten) : v ∈ sts.flatten := by
  obtain ⟨st, hst, hv⟩ := List.mem_flatten.mp h
  obtain ⟨st', hst', rfl⟩ := List.mem_map.mp hst
  exact List.mem_flatten.mpr ⟨st', hst', List.mem_of_mem_tail hv⟩

/-- What is left comes from the scripts. -/
theorem mem_of_mergedBy {check : valtype → valtype → CScript → Bool}
    (h : MergedBy (MergedMultisig check) s sts st) : ∀ v ∈ st, v = [] ∨ v ∈ sts.flatten := by
  induction h with
  | @signature s sts htype =>
    intro v hv
    cases sts with
    | nil => cases hv
    | cons st sts =>
      exact .inr (List.mem_flatten.mpr ⟨_, firstOrLast_mem (List.cons_ne_nil st sts), hv⟩)
  | bigger htype hmax =>
    intro v hv
    exact .inr (List.mem_flatten.mpr ⟨_, List.argmax_mem hmax, hv⟩)
  | multisig htype hmerged => exact fun v hv => hmerged.mem_flatten hv
  | @noScript s sts htype hfilter =>
    intro v hv
    rw [List.getLastD_eq_getLast?] at hv
    cases hlast : sts.getLast? with
    | none =>
      rw [hlast] at hv
      cases hv
    | some st =>
      rw [hlast] at hv
      exact .inr (List.mem_flatten.mpr ⟨st, List.mem_of_getLast? hlast, hv⟩)
  | @redeem s redeem sts sts' st merged htype hfilter hmerged ih =>
    have hmem : ∀ v ∈ ((redeem :: st) :: sts').flatten, v ∈ sts.flatten := by
      intro v hv
      rw [← hfilter] at hv
      obtain ⟨st', hst', hv⟩ := List.mem_flatten.mp hv
      exact List.mem_flatten.mpr ⟨st', List.mem_of_mem_filter hst', hv⟩
    intro v hv
    obtain rfl | hv := List.mem_cons.mp hv
    · exact .inr (hmem _ (List.mem_append_left _ List.mem_cons_self))
    · refine (ih v hv).imp_right fun hv => hmem v ?_
      obtain hv | hv := List.mem_append.mp hv
      · exact List.mem_append_left _ (List.mem_cons_of_mem _ hv)
      · exact List.mem_append_right _ (mem_flatten_tail hv)

theorem PushesValues.eq_of_pushAll {values : List valtype} (h : PushesValues (pushAll st) values)
    (hsmall : ∀ v ∈ st, v.length < 2 ^ 32) : values = st.reverse := by
  obtain ⟨ops, hops, -, rfl⟩ := h.exists_reads
  have hreads := Reads.pushes (fun v hv => hsmall v (List.mem_reverse.mp hv)) []
  rw [List.append_nil] at hreads
  rw [hops.unique hreads, map_pushed_push]

section

variable [ScriptHashing] [ByteHashing] [ByteHashing160]

/-- `CombineSignatures` with one script after the other. -/
def mergeScripts (checkSig : SigChecker) (scriptPubKey : CScript) (txTo : CTransaction) (nIn : Nat)
    (scriptSig : CScript) (scriptSigs : List CScript) : CScript :=
  scriptSigs.foldl (combineSignatures checkSig scriptPubKey txTo nIn) scriptSig

omit [ScriptHashing] [ByteHashing] [ByteHashing160] in
theorem combineStacks_congr {txTo' : CTransaction} (h : checkSig txTo nIn = checkSig txTo' nIn)
    (sigs1 sigs2 : List valtype) (s : CScript) (type : txnouttype) (vSolutions : List valtype) :
    combineStacks checkSig txTo nIn sigs1 sigs2 s type vSolutions =
      combineStacks checkSig txTo' nIn sigs1 sigs2 s type vSolutions := by
  have hmultisig : ∀ sigs1 sigs2, combineMultisig checkSig s txTo nIn vSolutions sigs1 sigs2 =
      combineMultisig checkSig s txTo' nIn vSolutions sigs1 sigs2 := by
    intro sigs1 sigs2
    rw [combineMultisig, combineMultisig, h]
  induction sigs1 generalizing sigs2 s type vSolutions with
  | nil => cases type <;> simp [combineStacks, hmultisig]
  | cons spk sigs1 ih =>
    cases type with
    | TX_SCRIPTHASH =>
      have hsub : ∀ sigs1 sigs2, combineMultisig checkSig spk txTo nIn (CScript.solverRet spk).2 sigs1
          sigs2 = combineMultisig checkSig spk txTo' nIn (CScript.solverRet spk).2 sigs1 sigs2 := by
        intro sigs1 sigs2
        rw [combineMultisig, combineMultisig, h]
      have hrest := ih sigs2.tail spk (CScript.solverRet spk).1 (CScript.solverRet spk).2 hsub
      rw [combineStacks, combineStacks]
      dsimp only
      rw [hrest]
    | TX_NONSTANDARD => rw [combineStacks, combineStacks]
    | TX_PUBKEY => rw [combineStacks, combineStacks]
    | TX_PUBKEYHASH => rw [combineStacks, combineStacks]
    | TX_MULTISIG => rw [combineStacks, combineStacks, hmultisig]

theorem combineSignatures_congr {txTo' : CTransaction} (h : checkSig txTo nIn = checkSig txTo' nIn)
    (s scriptSig1 scriptSig2 : CScript) : combineSignatures checkSig s txTo nIn scriptSig1 scriptSig2 =
      combineSignatures checkSig s txTo' nIn scriptSig1 scriptSig2 := by
  rw [combineSignatures, combineSignatures]
  exact combineStacks_congr h _ _ s _ _

theorem mergeScripts_congr {txTo' : CTransaction} (h : checkSig txTo nIn = checkSig txTo' nIn)
    (s scriptSig : CScript) (scriptSigs : List CScript) :
    mergeScripts checkSig s txTo nIn scriptSig scriptSigs =
      mergeScripts checkSig s txTo' nIn scriptSig scriptSigs := by
  rw [mergeScripts, mergeScripts]
  congr 1
  funext scriptSig1 scriptSig2
  exact combineSignatures_congr h s scriptSig1 scriptSig2

/-- The script, and what it is after each merge, only pushes and keeps the limits of `EvalScript`. -/
def KeepsLimits (checkSig : SigChecker) (scriptPubKey : CScript) (txTo : CTransaction) (nIn : Nat)
    (scriptSig : CScript) (scriptSigs : List CScript) : Prop :=
  ∀ k, ∃ values, PushesValues (mergeScripts checkSig scriptPubKey txTo nIn scriptSig
    (scriptSigs.take k)) values

theorem mergedBy_mergeScripts (hempty : ∀ key s, checkSig txTo nIn 0 [] key s = false)
    {scriptSig : CScript} {scriptSigs : List CScript} {values : List valtype}
    {valuess : List (List valtype)} (hpushes : PushesValues scriptSig values)
    (hmerged : MergedBy (MergedMultisig (checkSig txTo nIn 0)) s sts values.reverse)
    (hsmall : ∀ v ∈ sts.flatten, v.length ≤ MAX_SCRIPT_ELEMENT_SIZE)
    (hscripts : List.Forall₂ PushesValues scriptSigs valuess)
    (hlimits : KeepsLimits checkSig s txTo nIn scriptSig scriptSigs) :
    ∃ values', PushesValues (mergeScripts checkSig s txTo nIn scriptSig scriptSigs) values' ∧
      MergedBy (MergedMultisig (checkSig txTo nIn 0)) s (sts ++ valuess.map List.reverse)
        values'.reverse ∧
      (scriptSig = pushAll values.reverse ∨ scriptSigs ≠ [] →
        mergeScripts checkSig s txTo nIn scriptSig scriptSigs = pushAll values'.reverse) := by
  induction hscripts generalizing scriptSig values sts with
  | nil =>
    rw [List.map_nil, List.append_nil]
    exact ⟨values, hpushes, hmerged, fun h => h.resolve_right fun hne => hne rfl⟩
  | @cons more moreValues scriptSigs valuess hmore hscripts ih =>
    obtain ⟨st', hcombine, hmerged'⟩ := mergedBy_combine hempty hmerged moreValues.reverse
    have hstep : combineSignatures checkSig s txTo nIn scriptSig more = pushAll st' := by
      rw [combineSignatures]
      dsimp only
      rw [hpushes.evalScriptStack_eq, hmore.evalScriptStack_eq]
      exact hcombine
    have hsmall' : ∀ v ∈ (sts ++ [moreValues.reverse]).flatten,
        v.length ≤ MAX_SCRIPT_ELEMENT_SIZE := by
      intro v hv
      rw [List.flatten_append, List.flatten_singleton] at hv
      obtain hv | hv := List.mem_append.mp hv
      · exact hsmall v hv
      · exact hmore.small v (List.mem_reverse.mp hv)
    have hlimits' : KeepsLimits checkSig s txTo nIn (pushAll st') scriptSigs := by
      intro k
      have hk := hlimits (k + 1)
      rwa [List.take_succ_cons, mergeScripts, List.foldl_cons, hstep] at hk
    obtain ⟨values', hvalues'⟩ := hlimits' 0
    have hpushes' : PushesValues (pushAll st') values' := hvalues'
    have heq := hpushes'.eq_of_pushAll fun v hv => by
      obtain rfl | hv := mem_of_mergedBy hmerged' v hv
      · exact Nat.two_pow_pos 32
      · exact Nat.lt_of_le_of_lt (hsmall' v hv) (by decide)
    have hreverse : values'.reverse = st' := by rw [heq, List.reverse_reverse]
    obtain ⟨last, hlast, hmergedLast, hpushAll⟩ :=
      ih hpushes' (hreverse.symm ▸ hmerged') hsmall' hlimits'
    rw [mergeScripts, List.foldl_cons, hstep, List.map_cons, ← List.singleton_append,
      ← List.append_assoc]
    exact ⟨last, hlast, hmergedLast, fun _ => hpushAll (.inl (by rw [hreverse]))⟩

end

end

end Terracoin
