import Terracoin.Script.Standard

/-!
# What `Solver` accepts

A script of a standard type has a solution (`solver_iff_solution`). That `Solver` finds nothing
else is in `Script.Standard`; here every script of the right form matches its template, and no
script is of two types, because its instructions determine the type.
-/

namespace Terracoin

open txnouttype

namespace CScript

/-! ## Scripts that match -/

section

variable {s pc next : CScript} {opcode1 opcode2 : UInt8} {vch1 : valtype} {script2 : List UInt8}
  {solution rest : List valtype}

theorem Reads.unique {ops ops' : List (UInt8 × valtype)} (h : Reads s ops [])
    (h' : Reads s ops' []) : ops = ops' := by
  have heq := h.ops_eq.symm.trans h'.ops_eq
  exact (Prod.mk.inj heq).1

theorem Reads.of_append {ops ops' : List (UInt8 × valtype)} {rest : CScript}
    (h : Reads s (ops ++ ops') rest) : ∃ next, Reads s ops next ∧ Reads next ops' rest := by
  induction ops generalizing s with
  | nil => exact ⟨s, .nil s, h⟩
  | cons op ops ih =>
    cases h with
    | cons hop hrest =>
      obtain ⟨next, hops, hops'⟩ := ih hrest
      exact ⟨next, .cons hop hops, hops'⟩

theorem matchTemplate_of_getOp (hop : getOp pc = some (opcode1, vch1, next))
    (hkeys : opcode2 ≠ OP_PUBKEYS) (hmatch : matchOpcode opcode2 opcode1 vch1 = some solution)
    (hrest : matchTemplate script2 next = some rest) :
    matchTemplate (opcode2 :: script2) pc = some (solution ++ rest) := by
  rw [matchTemplate, hop]
  dsimp only
  rw [if_neg hkeys, hmatch, hrest]
  rfl

theorem matchTemplate_of_exact (hop : getOp pc = some (opcode2, [], next))
    (hopcode : opcode2 ∉ [OP_PUBKEY, OP_PUBKEYHASH, OP_SMALLINTEGER]) (hkeys : opcode2 ≠ OP_PUBKEYS)
    (hrest : matchTemplate script2 next = some rest) :
    matchTemplate (opcode2 :: script2) pc = some rest := by
  have hmatch : matchOpcode opcode2 opcode2 [] = some [] := by
    simp only [List.mem_cons, List.not_mem_nil, or_false, not_or] at hopcode
    rw [matchOpcode, if_neg hopcode.1, if_neg hopcode.2.1, if_neg hopcode.2.2,
      if_neg (by simp)]
  exact matchTemplate_of_getOp hop hkeys hmatch hrest

theorem matchOpcode_of_pubKey (h33 : 33 ≤ vch1.length) (h120 : vch1.length ≤ 120) :
    matchOpcode OP_PUBKEY opcode1 vch1 = some [vch1] := by
  rw [matchOpcode, if_pos rfl, if_neg (by omega)]

theorem matchOpcode_of_pubKeyHash (h20 : vch1.length = 20) :
    matchOpcode OP_PUBKEYHASH opcode1 vch1 = some [vch1] := by
  rw [matchOpcode, if_neg (by decide), if_pos rfl, if_neg (not_not.mpr h20)]

theorem matchOpcode_of_smallInteger {m : UInt8} (h1 : 1 ≤ m) (h16 : m ≤ 16) :
    matchOpcode OP_SMALLINTEGER (OP_1 - 1 + m) vch1 = some [[m]] := by
  have hall : ∀ k : Fin 17, 1 ≤ k → OP_1 ≤ OP_1 - 1 + UInt8.ofNat k ∧
      OP_1 - 1 + UInt8.ofNat k ≤ OP_16 ∧ decodeOP_N (OP_1 - 1 + UInt8.ofNat k) = UInt8.ofNat k := by
    decide +kernel
  have hm1 : 1 ≤ m.toNat := UInt8.le_iff_toNat_le.mp h1
  have hm16 : m.toNat ≤ 16 := UInt8.le_iff_toNat_le.mp h16
  have hm := hall ⟨m.toNat, by omega⟩ hm1
  rw [UInt8.ofNat_toNat] at hm
  rw [matchOpcode, if_neg (by decide), if_neg (by decide), if_pos rfl, if_pos (.inr ⟨hm.1, hm.2.1⟩),
    hm.2.2]

/-- The loop for the keys reads all of them and the instruction that follows. -/
theorem matchPubKeys_of_reads {keys : List (UInt8 × valtype)} {opcode : UInt8} {rest : CScript}
    (h : Reads pc (keys ++ [(opcode, [])]) rest)
    (hrange : ∀ key ∈ keys, 33 ≤ key.2.length ∧ key.2.length ≤ 120) :
    ∃ opcode1 vch1 pc1, getOp pc = some (opcode1, vch1, pc1) ∧ keys.length ≤ pc1.length ∧
      ∀ fuel ≥ keys.length,
        matchPubKeys fuel opcode1 vch1 pc1 = (keys.map Prod.snd, opcode, [], rest) := by
  induction keys generalizing pc with
  | nil =>
    cases h with
    | cons hop hrest =>
      cases hrest with
      | nil =>
        refine ⟨opcode, [], _, hop, Nat.zero_le _, fun fuel _ => ?_⟩
        cases fuel <;> rfl
  | cons key keys ih =>
    cases h with
    | @cons _ next _ opcode1 vch1 _ hop hrest =>
      obtain ⟨opcode2, vch2, pc2, hop2, hlength, hkeys⟩ :=
        ih hrest fun key hkey => hrange key (List.mem_cons_of_mem _ hkey)
      have hlt := length_lt_of_getOp hop2
      refine ⟨opcode1, vch1, next, hop, by rw [List.length_cons]; omega, fun fuel hfuel => ?_⟩
      rw [List.length_cons] at hfuel
      obtain ⟨fuel, rfl⟩ : ∃ n, fuel = n + 1 := ⟨fuel - 1, by omega⟩
      rw [matchPubKeys, if_pos (hrange (opcode1, vch1) List.mem_cons_self), hop2]
      dsimp only
      rw [hkeys fuel (by omega)]
      rfl

theorem matchTemplate_of_pubKeys {keys : List (UInt8 × valtype)} {opcode : UInt8}
    (h : Reads pc (keys ++ [(opcode, [])]) next)
    (hrange : ∀ key ∈ keys, 33 ≤ key.2.length ∧ key.2.length ≤ 120)
    (hmatch : matchOpcode opcode2 opcode [] = some solution)
    (hrest : matchTemplate script2 next = some rest) :
    matchTemplate (OP_PUBKEYS :: opcode2 :: script2) pc =
      some (keys.map Prod.snd ++ (solution ++ rest)) := by
  obtain ⟨opcode1, vch1, pc1, hop, hlength, hkeys⟩ := matchPubKeys_of_reads h hrange
  rw [matchTemplate, hop]
  dsimp only
  rw [if_pos rfl, hkeys _ hlength]
  dsimp only
  rw [hmatch, hrest]
  rfl

end

/-! ## Template by template -/

section

variable {s : CScript} {vSolutions : List valtype}

theorem matchTemplate_of_solution_pubKey (h : Solution s TX_PUBKEY vSolutions) :
    matchTemplate [OP_PUBKEY, OP_CHECKSIG] s = some vSolutions := by
  cases h with
  | pubKey h33 h120 hreads =>
    cases hreads with
    | cons hop1 hreads =>
      cases hreads with
      | cons hop2 hreads =>
        cases hreads
        exact matchTemplate_of_getOp hop1 (by decide) (matchOpcode_of_pubKey h33 h120)
          (matchTemplate_of_exact hop2 (by decide) (by decide) rfl)

theorem matchTemplate_of_solution_pubKeyHash (h : Solution s TX_PUBKEYHASH vSolutions) :
    matchTemplate [OP_DUP, OP_HASH160, OP_PUBKEYHASH, OP_EQUALVERIFY, OP_CHECKSIG] s =
      some vSolutions := by
  cases h with
  | pubKeyHash h20 hreads =>
    cases hreads with
    | cons hop1 hreads =>
      cases hreads with
      | cons hop2 hreads =>
        cases hreads with
        | cons hop3 hreads =>
          cases hreads with
          | cons hop4 hreads =>
            cases hreads with
            | cons hop5 hreads =>
              cases hreads
              have hend : matchTemplate [] [] = some [] := rfl
              have h5 := matchTemplate_of_exact hop5 (by decide) (by decide) hend
              have h4 := matchTemplate_of_exact hop4 (by decide) (by decide) h5
              have h3 := matchTemplate_of_getOp hop3 (by decide)
                (matchOpcode_of_pubKeyHash h20) h4
              have h2 := matchTemplate_of_exact hop2 (by decide) (by decide) h3
              exact matchTemplate_of_exact hop1 (by decide) (by decide) h2

theorem checkMultisigSolution_of {m n : UInt8} {keys : List valtype} (hm : 1 ≤ m) (hmn : m ≤ n)
    (hlength : keys.length = n.toNat) :
    checkMultisigSolution ([m] :: (keys ++ [[n]])) = true := by
  have hlast : ([m] :: (keys ++ [[n]])).getLastD [] = [n] := by
    rw [← List.cons_append, List.getLastD_concat]
  simp only [checkMultisigSolution, hlast, Bool.and_eq_true, beq_iff_eq, List.headD_cons,
    List.length_cons, List.length_append, List.length_nil]
  exact ⟨⟨⟨decide_eq_true hm, decide_eq_true (UInt8.le_trans hm hmn)⟩, decide_eq_true hmn⟩,
    by omega⟩

theorem matchTemplate_of_solution_multisig (h : Solution s TX_MULTISIG vSolutions) :
    matchTemplate [OP_SMALLINTEGER, OP_PUBKEYS, OP_SMALLINTEGER, OP_CHECKMULTISIG] s =
        some vSolutions ∧ checkMultisigSolution vSolutions = true := by
  cases h with
  | @multisig m n keys hm hmn hn hlength hrange hreads =>
    refine ⟨?_, checkMultisigSolution_of hm hmn (by rwa [List.length_map])⟩
    cases hreads with
    | @cons _ next _ _ _ _ hop1 hreads =>
      have hsplit : keys ++ [(OP_1 - 1 + n, []), (OP_CHECKMULTISIG, [])] =
          (keys ++ [(OP_1 - 1 + n, [])]) ++ [(OP_CHECKMULTISIG, [])] := by simp
      rw [hsplit] at hreads
      obtain ⟨last, hkeys, hlast⟩ := hreads.of_append
      cases hlast with
      | cons hop2 hend =>
        cases hend
        have hend : matchTemplate [] [] = some [] := rfl
        have hlast := matchTemplate_of_exact hop2 (by decide) (by decide) hend
        have hrest := matchTemplate_of_pubKeys hkeys hrange
          (matchOpcode_of_smallInteger (UInt8.le_trans hm hmn) hn) hlast
        exact matchTemplate_of_getOp hop1 (by decide)
          (matchOpcode_of_smallInteger hm (UInt8.le_trans hmn hn)) hrest

/-- Where the script is of a standard type, `Solver` returns true. -/
theorem exists_solver {type : txnouttype} (h : Solution s type vSolutions) :
    ∃ r, s.solver = some r := by
  rw [solver]
  split
  · exact ⟨_, rfl⟩
  · next hp2sh =>
    simp only [mTemplates, scanTemplates, reduceCtorEq, false_and, if_false, true_and]
    split
    · exact ⟨_, rfl⟩
    · next hnoPubKey =>
      split
      · exact ⟨_, rfl⟩
      · next hnoPubKeyHash =>
        cases type with
        | TX_NONSTANDARD => cases h
        | TX_PUBKEY =>
          rw [matchTemplate_of_solution_pubKey h] at hnoPubKey
          cases hnoPubKey
        | TX_PUBKEYHASH =>
          rw [matchTemplate_of_solution_pubKeyHash h] at hnoPubKeyHash
          cases hnoPubKeyHash
        | TX_SCRIPTHASH =>
          cases h with
          | scriptHash htrue => exact absurd htrue hp2sh
        | TX_MULTISIG =>
          obtain ⟨hmatch, hcheck⟩ := matchTemplate_of_solution_multisig h
          rw [hmatch]
          dsimp only
          rw [hcheck]
          exact ⟨_, rfl⟩

/-! ## Uniqueness -/

/-- The type of a standard script shows in its last opcode and in the number of instructions. -/
def typeOf (ops : List (UInt8 × valtype)) : txnouttype :=
  match ops.getLast? with
  | none => TX_NONSTANDARD
  | some (opcode, _) =>
    if opcode = OP_CHECKMULTISIG then TX_MULTISIG
    else if opcode = OP_EQUAL then TX_SCRIPTHASH
    else if ops.length = 2 then TX_PUBKEY
    else TX_PUBKEYHASH

theorem Solution.typeOf_eq {type : txnouttype} (h : Solution s type vSolutions) :
    typeOf s.ops.1 = type := by
  cases h with
  | pubKey _ _ hreads =>
    rw [hreads.ops_eq]
    rfl
  | pubKeyHash _ hreads =>
    rw [hreads.ops_eq]
    rfl
  | scriptHash hp2sh =>
    rw [(reads_of_isPayToScriptHash hp2sh).2.ops_eq]
    rfl
  | @multisig m n keys _ _ _ _ _ hreads =>
    have hsplit : ((OP_1 - 1 + m, ([] : valtype)) ::
        (keys ++ [(OP_1 - 1 + n, []), (OP_CHECKMULTISIG, [])])) =
          ((OP_1 - 1 + m, []) :: (keys ++ [(OP_1 - 1 + n, [])])) ++ [(OP_CHECKMULTISIG, [])] := by
      simp
    rw [hreads.ops_eq, typeOf, hsplit, List.getLast?_concat]
    rfl

theorem Solution.unique {type type' : txnouttype} {vSolutions' : List valtype}
    (h : Solution s type vSolutions) (h' : Solution s type' vSolutions') :
    type = type' ∧ vSolutions = vSolutions' := by
  obtain rfl : type = type' := h.typeOf_eq.symm.trans h'.typeOf_eq
  refine ⟨rfl, ?_⟩
  cases h with
  | pubKey _ _ hreads =>
    cases h' with
    | pubKey _ _ hreads' =>
      cases hreads.unique hreads'
      rfl
  | pubKeyHash _ hreads =>
    cases h' with
    | pubKeyHash _ hreads' =>
      cases hreads.unique hreads'
      rfl
  | scriptHash _ =>
    cases h' with
    | scriptHash _ => rfl
  | @multisig m n keys _ _ _ _ _ hreads =>
    cases h' with
    | @multisig m' n' keys' _ _ _ _ _ hreads' =>
      obtain ⟨hfirst, hrest⟩ := List.cons.inj (hreads.unique hreads')
      obtain ⟨rfl, hlast⟩ := List.append_inj' hrest rfl
      obtain rfl := UInt8.add_right_inj _ |>.mp (Prod.mk.inj hfirst).1
      obtain rfl := UInt8.add_right_inj _ |>.mp (Prod.mk.inj (List.cons.inj hlast).1).1
      rfl

theorem solver_iff_solution {type : txnouttype} :
    s.solver = some (type, vSolutions) ↔ Solution s type vSolutions := by
  refine ⟨solution_of_solver, fun h => ?_⟩
  obtain ⟨⟨type', vSolutions'⟩, hsolver⟩ := exists_solver h
  obtain ⟨rfl, rfl⟩ := h.unique (solution_of_solver hsolver)
  exact hsolver

/-- `Solver`, for every script: the 23 bytes of a pay-to-script-hash script; a push of a public key
and `OP_CHECKSIG`; `OP_DUP OP_HASH160`, a push of a key hash and `OP_EQUALVERIFY OP_CHECKSIG`; or
`OP_m`, pushes of `n` public keys, `OP_n` and `OP_CHECKMULTISIG`. The solutions are what is pushed
for the placeholders. -/
theorem solver_spec (s : CScript) (vSolutions : List valtype) :
    (s.solver = some (TX_SCRIPTHASH, vSolutions) ↔ ∃ hash : valtype, hash.length = 20 ∧
      s = OP_HASH160 :: 0x14 :: (hash ++ [OP_EQUAL]) ∧ vSolutions = [hash]) ∧
    (s.solver = some (TX_PUBKEY, vSolutions) ↔ ∃ opcode vchPubKey,
      33 ≤ vchPubKey.length ∧ vchPubKey.length ≤ 120 ∧
      Reads s [(opcode, vchPubKey), (OP_CHECKSIG, [])] [] ∧ vSolutions = [vchPubKey]) ∧
    (s.solver = some (TX_PUBKEYHASH, vSolutions) ↔ ∃ opcode hash, hash.length = 20 ∧
      Reads s [(OP_DUP, []), (OP_HASH160, []), (opcode, hash), (OP_EQUALVERIFY, []),
        (OP_CHECKSIG, [])] [] ∧ vSolutions = [hash]) ∧
    (s.solver = some (TX_MULTISIG, vSolutions) ↔
      ∃ (m n : UInt8) (keys : List (UInt8 × valtype)), 1 ≤ m ∧ m ≤ n ∧ n ≤ 16 ∧
        keys.length = n.toNat ∧ (∀ key ∈ keys, 33 ≤ key.2.length ∧ key.2.length ≤ 120) ∧
        Reads s ((OP_1 - 1 + m, []) ::
          (keys ++ [(OP_1 - 1 + n, []), (OP_CHECKMULTISIG, [])])) [] ∧
        vSolutions = [m] :: (keys.map Prod.snd ++ [[n]])) := by
  simp only [solver_iff_solution]
  refine ⟨⟨fun h => ?_, ?_⟩, ⟨fun h => ?_, ?_⟩, ⟨fun h => ?_, ?_⟩, ⟨fun h => ?_, ?_⟩⟩
  · cases h with
    | scriptHash hp2sh =>
      obtain ⟨hash, hlength, rfl⟩ := isPayToScriptHash_iff.mp hp2sh
      exact ⟨hash, hlength, rfl, congrArg (fun vch => [vch]) (List.take_left' hlength)⟩
  · rintro ⟨hash, hlength, rfl, rfl⟩
    have hsolution := Solution.scriptHash (isPayToScriptHash_iff.mpr ⟨hash, hlength, rfl⟩)
    have hhash : ((OP_HASH160 :: 0x14 :: (hash ++ [OP_EQUAL])).drop 2).take 20 = hash :=
      List.take_left' hlength
    rwa [hhash] at hsolution
  · cases h with
    | pubKey h33 h120 hreads => exact ⟨_, _, h33, h120, hreads, rfl⟩
  · rintro ⟨opcode, vchPubKey, h33, h120, hreads, rfl⟩
    exact .pubKey h33 h120 hreads
  · cases h with
    | pubKeyHash h20 hreads => exact ⟨_, _, h20, hreads, rfl⟩
  · rintro ⟨opcode, hash, h20, hreads, rfl⟩
    exact .pubKeyHash h20 hreads
  · cases h with
    | multisig hm hmn hn hlength hrange hreads =>
      exact ⟨_, _, _, hm, hmn, hn, hlength, hrange, hreads, rfl⟩
  · rintro ⟨m, n, keys, hm, hmn, hn, hlength, hrange, hreads, rfl⟩
    exact .multisig hm hmn hn hlength hrange hreads

end

/-- `typeRet` and `vSolutionsRet` of `Solver`. A multisig script whose numbers are wrong has been
found to be one. -/
def solverRet (scriptPubKey : CScript) : txnouttype × List valtype :=
  match scriptPubKey.solver with
  | some solution => solution
  | none =>
    let found := mTemplates.findSome? fun tplate =>
      (matchTemplate tplate.2 scriptPubKey).map fun vSolutions => (tplate.1, vSolutions)
    found.getD (TX_NONSTANDARD, [])

theorem solverRet_of_solver {s : CScript} {solution : txnouttype × List valtype}
    (h : s.solver = some solution) : s.solverRet = solution := by
  rw [solverRet, h]

end CScript

end Terracoin
