import Terracoin.Script.Execution

/-!
# Standard scripts

`Solver` compares a script with the templates of the standard payments and returns what the
template has placeholders for. What a script with a solution looks like, instruction by
instruction, is `Solution` (`solution_of_solver`).
-/

namespace Terracoin

inductive txnouttype
  | TX_NONSTANDARD | TX_PUBKEY | TX_PUBKEYHASH | TX_SCRIPTHASH | TX_MULTISIG
deriving DecidableEq, Repr

open txnouttype

namespace CScript

/-! ## `Solver` -/

def OP_0 : UInt8 := 0x00
def OP_SMALLINTEGER : UInt8 := 0xfa
def OP_PUBKEYS : UInt8 := 0xfb
def OP_PUBKEYHASH : UInt8 := 0xfd
def OP_PUBKEY : UInt8 := 0xfe

/-- `DecodeOP_N` of `OP_0` or of `OP_1` to `OP_16`. -/
def decodeOP_N (opcode : UInt8) : UInt8 := if opcode = OP_0 then 0 else opcode - (OP_1 - 1)

def mTemplates : List (txnouttype × List UInt8) := [
  -- Standard tx, sender provides pubkey, receiver adds signature
  (TX_PUBKEY, [OP_PUBKEY, OP_CHECKSIG]),
  -- Terracoin address tx, sender provides hash of pubkey, receiver provides signature and pubkey
  (TX_PUBKEYHASH, [OP_DUP, OP_HASH160, OP_PUBKEYHASH, OP_EQUALVERIFY, OP_CHECKSIG]),
  -- Sender provides N pubkeys, receivers provides M signatures
  (TX_MULTISIG, [OP_SMALLINTEGER, OP_PUBKEYS, OP_SMALLINTEGER, OP_CHECKMULTISIG])]

/-- The loop for `OP_PUBKEYS` from an instruction on: the keys, the first instruction that is none,
and what follows. `GetOp` leaves `OP_INVALIDOPCODE` at the end of the script. -/
def matchPubKeys : Nat → UInt8 → valtype → CScript → List valtype × UInt8 × valtype × CScript
  | 0, opcode1, vch1, pc1 =>
    if 33 ≤ vch1.length ∧ vch1.length ≤ 120 then ([vch1], OP_INVALIDOPCODE, [], pc1)
    else ([], opcode1, vch1, pc1)
  | fuel + 1, opcode1, vch1, pc1 =>
    if 33 ≤ vch1.length ∧ vch1.length ≤ 120 then
      match getOp pc1 with
      | none => ([vch1], OP_INVALIDOPCODE, [], pc1)
      | some (opcode, vch, pc) =>
        let (keys, rest) := matchPubKeys fuel opcode vch pc
        (vch1 :: keys, rest)
    else ([], opcode1, vch1, pc1)

/-- An instruction against one of the template, which is not `OP_PUBKEYS`. -/
def matchOpcode (opcode2 opcode1 : UInt8) (vch1 : valtype) : Option (List valtype) :=
  if opcode2 = OP_PUBKEY then
    if vch1.length < 33 ∨ 120 < vch1.length then none else some [vch1]
  else if opcode2 = OP_PUBKEYHASH then
    if vch1.length ≠ 20 then none else some [vch1]
  else if opcode2 = OP_SMALLINTEGER then
    if opcode1 = OP_0 ∨ (OP_1 ≤ opcode1 ∧ opcode1 ≤ OP_16) then some [[decodeOP_N opcode1]]
    else none
  -- Others must match exactly
  else if opcode1 ≠ opcode2 ∨ vch1 ≠ [] then none
  else some []

/-- The loop over a script and a template. -/
def matchTemplate : List UInt8 → CScript → Option (List valtype)
  | [], [] => some []
  | [], _ :: _ => none
  | opcode2 :: script2, pc1 =>
    match getOp pc1 with
    | none => none
    | some (opcode1, vch1, pc1) =>
      if opcode2 = OP_PUBKEYS then
        let (keys, opcode1, vch1, pc1) := matchPubKeys pc1.length opcode1 vch1 pc1
        match script2 with
        | [] => none
        | opcode2 :: script2 => do
          let solution ← matchOpcode opcode2 opcode1 vch1
          let rest ← matchTemplate script2 pc1
          some (keys ++ (solution ++ rest))
      else do
        let solution ← matchOpcode opcode2 opcode1 vch1
        let rest ← matchTemplate script2 pc1
        some (solution ++ rest)

/-- The additional checks for `TX_MULTISIG`. -/
def checkMultisigSolution (vSolutions : List valtype) : Bool :=
  let m := (vSolutions.headD []).headD 0
  let n := (vSolutions.getLastD []).headD 0
  1 ≤ m && 1 ≤ n && m ≤ n && vSolutions.length - 2 == n.toNat

def scanTemplates (scriptPubKey : CScript) :
    List (txnouttype × List UInt8) → Option (txnouttype × List valtype)
  | [] => none
  | (type, script2) :: rest =>
    match matchTemplate script2 scriptPubKey with
    | some vSolutions =>
      if type = TX_MULTISIG ∧ !checkMultisigSolution vSolutions then none
      else some (type, vSolutions)
    | none => scanTemplates scriptPubKey rest

/-- `Solver`: the type and the solutions, unless it returns false. -/
def solver (scriptPubKey : CScript) : Option (txnouttype × List valtype) :=
  if scriptPubKey.isPayToScriptHash then
    some (TX_SCRIPTHASH, [(scriptPubKey.drop 2).take 20])
  else scanTemplates scriptPubKey mTemplates

/-! ## The scripts that have solutions -/

/-- A script of a standard type, by its instructions. -/
inductive Solution (s : CScript) : txnouttype → List valtype → Prop
  | pubKey {opcode : UInt8} {vchPubKey : valtype} :
      33 ≤ vchPubKey.length → vchPubKey.length ≤ 120 →
      Reads s [(opcode, vchPubKey), (OP_CHECKSIG, [])] [] →
      Solution s TX_PUBKEY [vchPubKey]
  | pubKeyHash {opcode : UInt8} {hash : valtype} : hash.length = 20 →
      Reads s [(OP_DUP, []), (OP_HASH160, []), (opcode, hash), (OP_EQUALVERIFY, []),
        (OP_CHECKSIG, [])] [] →
      Solution s TX_PUBKEYHASH [hash]
  | scriptHash : s.isPayToScriptHash = true →
      Solution s TX_SCRIPTHASH [(s.drop 2).take 20]
  | multisig {m n : UInt8} {keys : List (UInt8 × valtype)} : 1 ≤ m → m ≤ n → n ≤ 16 →
      keys.length = n.toNat → (∀ key ∈ keys, 33 ≤ key.2.length ∧ key.2.length ≤ 120) →
      Reads s ((OP_1 - 1 + m, []) :: (keys ++ [(OP_1 - 1 + n, []), (OP_CHECKMULTISIG, [])])) [] →
      Solution s TX_MULTISIG ([m] :: (keys.map Prod.snd ++ [[n]]))

/-- The bytes of a pay-to-script-hash script. -/
theorem isPayToScriptHash_iff {s : CScript} : s.isPayToScriptHash = true ↔
    ∃ hash : valtype, hash.length = 20 ∧ s = OP_HASH160 :: 0x14 :: (hash ++ [OP_EQUAL]) := by
  simp only [isPayToScriptHash, Bool.and_eq_true, beq_iff_eq]
  constructor
  · rintro ⟨⟨⟨hlength, h0⟩, h1⟩, h22⟩
    obtain ⟨a, s, rfl⟩ := List.exists_cons_of_length_eq_add_one hlength
    obtain ⟨b, bytes, rfl⟩ := List.exists_cons_of_length_eq_add_one (Nat.succ.inj hlength)
    simp only [List.length_cons] at hlength
    obtain rfl := Option.some.inj h0
    obtain rfl := Option.some.inj h1
    have hlast : bytes.drop 20 = [OP_EQUAL] := by
      rw [List.drop_eq_getElem_cons (by omega), List.drop_eq_nil_of_le (by omega)]
      congr 1
      have h20 : bytes[20]? = some OP_EQUAL := h22
      rw [List.getElem?_eq_getElem (by omega)] at h20
      exact Option.some.inj h20
    refine ⟨bytes.take 20, List.length_take_of_le (by omega), ?_⟩
    rw [← hlast, List.take_append_drop]
  · rintro ⟨hash, hlength, rfl⟩
    have h22 : (hash ++ [OP_EQUAL])[20]? = some OP_EQUAL := by
      rw [List.getElem?_append_right (by omega), hlength]
      rfl
    exact ⟨⟨⟨by simp [hlength], rfl⟩, rfl⟩, h22⟩

theorem reads_of_isPayToScriptHash {s : CScript} (h : s.isPayToScriptHash = true) :
    ((s.drop 2).take 20).length = 20 ∧
      Reads s [(OP_HASH160, []), (0x14, (s.drop 2).take 20), (OP_EQUAL, [])] [] := by
  obtain ⟨hash, hlength, rfl⟩ := isPayToScriptHash_iff.mp h
  have htake : ((OP_HASH160 :: 0x14 :: (hash ++ [OP_EQUAL])).drop 2).take 20 = hash :=
    List.take_left' hlength
  have hpush : getOp (0x14 :: (hash ++ [OP_EQUAL])) = some (0x14, hash, [OP_EQUAL]) := by
    have hsize : operandSize 0x14 (hash ++ [OP_EQUAL]) = some (20, hash ++ [OP_EQUAL]) := rfl
    rw [getOp, hsize]
    dsimp only
    rw [if_neg (by simp [hlength]), List.take_left' hlength, List.drop_left' hlength]
  rw [htake]
  exact ⟨hlength, .cons (getOp_of_lt _ (by decide)) (.cons hpush (.single (by decide) []))⟩

section

variable {s pc : CScript} {opcode1 opcode2 : UInt8} {vch1 : valtype} {script2 : List UInt8}
  {vSolutions : List valtype}

theorem matchTemplate_nil (h : matchTemplate [] pc = some vSolutions) :
    pc = [] ∧ vSolutions = [] := by
  cases pc with
  | nil => exact ⟨rfl, (Option.some.inj h).symm⟩
  | cons b pc => cases h

theorem matchTemplate_cons (hopcode : opcode2 ≠ OP_PUBKEYS)
    (h : matchTemplate (opcode2 :: script2) pc = some vSolutions) :
    ∃ opcode1 vch1 next solution rest, getOp pc = some (opcode1, vch1, next) ∧
      matchOpcode opcode2 opcode1 vch1 = some solution ∧
      matchTemplate script2 next = some rest ∧ vSolutions = solution ++ rest := by
  rw [matchTemplate] at h
  split at h
  · cases h
  · rename_i opcode1 vch1 next hop
    rw [if_neg hopcode] at h
    simp only [Option.bind_eq_bind, Option.bind_eq_some_iff, Option.some.injEq] at h
    obtain ⟨solution, hsolution, rest, hrest, rfl⟩ := h
    exact ⟨opcode1, vch1, next, solution, rest, hop, hsolution, hrest, rfl⟩

theorem matchOpcode_exact (hopcode : opcode2 ∉ [OP_PUBKEY, OP_PUBKEYHASH, OP_SMALLINTEGER])
    (h : matchOpcode opcode2 opcode1 vch1 = some vSolutions) :
    opcode1 = opcode2 ∧ vch1 = [] ∧ vSolutions = [] := by
  simp only [List.mem_cons, List.not_mem_nil, or_false, not_or] at hopcode
  rw [matchOpcode, if_neg hopcode.1, if_neg hopcode.2.1, if_neg hopcode.2.2] at h
  split at h
  · cases h
  · rename_i hne
    exact ⟨not_not.mp fun hop => hne (.inl hop), not_not.mp fun hvch => hne (.inr hvch),
      (Option.some.inj h).symm⟩

theorem matchTemplate_exact (hopcode : opcode2 ∉ [OP_PUBKEY, OP_PUBKEYHASH, OP_SMALLINTEGER])
    (hkeys : opcode2 ≠ OP_PUBKEYS)
    (h : matchTemplate (opcode2 :: script2) pc = some vSolutions) :
    ∃ next, getOp pc = some (opcode2, [], next) ∧ matchTemplate script2 next = some vSolutions := by
  obtain ⟨opcode1, vch1, next, solution, rest, hop, hsolution, hrest, rfl⟩ :=
    matchTemplate_cons hkeys h
  obtain ⟨rfl, rfl, rfl⟩ := matchOpcode_exact hopcode hsolution
  exact ⟨next, hop, hrest⟩

theorem matchOpcode_pubKey (h : matchOpcode OP_PUBKEY opcode1 vch1 = some vSolutions) :
    33 ≤ vch1.length ∧ vch1.length ≤ 120 ∧ vSolutions = [vch1] := by
  rw [matchOpcode, if_pos rfl] at h
  split at h
  · cases h
  · rename_i hne
    exact ⟨Nat.le_of_not_lt fun hlt => hne (.inl hlt),
      Nat.le_of_not_lt fun hlt => hne (.inr hlt), (Option.some.inj h).symm⟩

theorem matchOpcode_pubKeyHash (h : matchOpcode OP_PUBKEYHASH opcode1 vch1 = some vSolutions) :
    vch1.length = 20 ∧ vSolutions = [vch1] := by
  rw [matchOpcode, if_neg (by decide), if_pos rfl] at h
  split at h
  · cases h
  · rename_i hlength
    exact ⟨not_not.mp hlength, (Option.some.inj h).symm⟩

theorem matchOpcode_smallInteger
    (h : matchOpcode OP_SMALLINTEGER opcode1 vch1 = some vSolutions) :
    vSolutions = [[decodeOP_N opcode1]] ∧ decodeOP_N opcode1 ≤ 16 ∧
      (1 ≤ decodeOP_N opcode1 → opcode1 = OP_1 - 1 + decodeOP_N opcode1) := by
  have hall : ∀ op : Fin 256, UInt8.ofNat op = OP_0 ∨
      (OP_1 ≤ UInt8.ofNat op ∧ UInt8.ofNat op ≤ OP_16) → decodeOP_N (UInt8.ofNat op) ≤ 16 ∧
        (1 ≤ decodeOP_N (UInt8.ofNat op) →
          UInt8.ofNat op = OP_1 - 1 + decodeOP_N (UInt8.ofNat op)) := by decide +kernel
  rw [matchOpcode, if_neg (by decide), if_neg (by decide), if_pos rfl] at h
  split at h
  · rename_i hsmall
    have hop := hall ⟨opcode1.toNat, opcode1.toNat_lt⟩
    rw [UInt8.ofNat_toNat] at hop
    exact ⟨(Option.some.inj h).symm, hop hsmall⟩
  · cases h

/-- The loop for the keys has read them and one more instruction, unless it came to the end. -/
theorem matchPubKeys_spec {pc1 : CScript} {fuel : Nat} (hop : getOp pc = some (opcode1, vch1, pc1))
    (hvalid : (matchPubKeys fuel opcode1 vch1 pc1).2.1 ≠ OP_INVALIDOPCODE) :
    ∃ keys : List (UInt8 × valtype),
      keys.map Prod.snd = (matchPubKeys fuel opcode1 vch1 pc1).1 ∧
      (∀ key ∈ keys, 33 ≤ key.2.length ∧ key.2.length ≤ 120) ∧
      Reads pc (keys ++ [((matchPubKeys fuel opcode1 vch1 pc1).2.1,
        (matchPubKeys fuel opcode1 vch1 pc1).2.2.1)])
        (matchPubKeys fuel opcode1 vch1 pc1).2.2.2 := by
  have hstop : ¬ (33 ≤ vch1.length ∧ vch1.length ≤ 120) → ∃ keys : List (UInt8 × valtype),
      keys.map Prod.snd = [] ∧ (∀ key ∈ keys, 33 ≤ key.2.length ∧ key.2.length ≤ 120) ∧
        Reads pc (keys ++ [(opcode1, vch1)]) pc1 := fun _ =>
    ⟨[], rfl, fun _ h => absurd h List.not_mem_nil, .cons hop (.nil pc1)⟩
  induction fuel generalizing opcode1 vch1 pc pc1 with
  | zero =>
    rw [matchPubKeys] at hvalid ⊢
    split at hvalid
    · exact absurd rfl hvalid
    · rename_i hrange
      rw [if_neg hrange]
      exact hstop hrange
  | succ fuel ih =>
    rw [matchPubKeys] at hvalid ⊢
    split at hvalid
    · rename_i hrange
      rw [if_pos hrange]
      cases hnext : getOp pc1 with
      | none =>
        rw [hnext] at hvalid
        exact absurd rfl hvalid
      | some r =>
        obtain ⟨opcode, vch, pc2⟩ := r
        rw [hnext] at hvalid
        obtain ⟨keys, hmap, hkeys, hreads⟩ := ih hnext hvalid fun _ =>
          ⟨[], rfl, fun _ h => absurd h List.not_mem_nil, .cons hnext (.nil pc2)⟩
        refine ⟨(opcode1, vch1) :: keys, by rw [List.map_cons, hmap], fun key hkey => ?_,
          .cons hop hreads⟩
        obtain rfl | hkey := List.mem_cons.mp hkey
        · exact hrange
        · exact hkeys key hkey
    · rename_i hrange
      rw [if_neg hrange]
      exact hstop hrange

/-! ### Template by template -/

theorem solution_pubKey (h : matchTemplate [OP_PUBKEY, OP_CHECKSIG] s = some vSolutions) :
    Solution s TX_PUBKEY vSolutions := by
  obtain ⟨opcode, vchPubKey, next, solution, rest, hop, hsolution, hrest, rfl⟩ :=
    matchTemplate_cons (by decide) h
  obtain ⟨h33, h120, rfl⟩ := matchOpcode_pubKey hsolution
  obtain ⟨next', hop', hend⟩ := matchTemplate_exact (by decide) (by decide) hrest
  obtain ⟨rfl, rfl⟩ := matchTemplate_nil hend
  exact .pubKey h33 h120 (.cons hop (.cons hop' (.nil _)))

theorem solution_pubKeyHash (h : matchTemplate
    [OP_DUP, OP_HASH160, OP_PUBKEYHASH, OP_EQUALVERIFY, OP_CHECKSIG] s = some vSolutions) :
    Solution s TX_PUBKEYHASH vSolutions := by
  obtain ⟨next1, hop1, h1⟩ := matchTemplate_exact (by decide) (by decide) h
  obtain ⟨next2, hop2, h2⟩ := matchTemplate_exact (by decide) (by decide) h1
  obtain ⟨opcode, hash, next3, solution, rest, hop3, hsolution, h3, rfl⟩ :=
    matchTemplate_cons (by decide) h2
  obtain ⟨hlength, rfl⟩ := matchOpcode_pubKeyHash hsolution
  obtain ⟨next4, hop4, h4⟩ := matchTemplate_exact (by decide) (by decide) h3
  obtain ⟨next5, hop5, h5⟩ := matchTemplate_exact (by decide) (by decide) h4
  obtain ⟨rfl, rfl⟩ := matchTemplate_nil h5
  exact .pubKeyHash hlength
    (.cons hop1 (.cons hop2 (.cons hop3 (.cons hop4 (.cons hop5 (.nil _))))))

theorem checkMultisigSolution_spec {m n : UInt8} {keys : List valtype}
    (h : checkMultisigSolution ([m] :: (keys ++ [[n]])) = true) :
    1 ≤ m ∧ 1 ≤ n ∧ m ≤ n ∧ keys.length = n.toNat := by
  have hlast : ([m] :: (keys ++ [[n]])).getLastD [] = [n] := by
    rw [← List.cons_append, List.getLastD_concat]
  simp only [checkMultisigSolution, hlast, Bool.and_eq_true, beq_iff_eq, List.headD_cons,
    List.length_cons, List.length_append, List.length_nil] at h
  exact ⟨of_decide_eq_true h.1.1.1, of_decide_eq_true h.1.1.2, of_decide_eq_true h.1.2, by omega⟩

theorem toNat_smallInteger {m : UInt8} (h : m ≤ 16) : (OP_1 - 1 + m).toNat = 80 + m.toNat := by
  have hm : m.toNat ≤ 16 := UInt8.le_iff_toNat_le.mp h
  have hopcode : OP_1 - 1 = 80 := rfl
  rw [hopcode, UInt8.toNat_add]
  change (80 + m.toNat) % 2 ^ 8 = _
  omega

theorem lt_smallInteger {m : UInt8} (h1 : 1 ≤ m) (h16 : m ≤ 16) :
    OP_PUSHDATA4 < OP_1 - 1 + m := by
  have hm : 1 ≤ m.toNat := UInt8.le_iff_toNat_le.mp h1
  rw [UInt8.lt_iff_toNat_lt, toNat_smallInteger h16]
  change 78 < _
  omega

open EvalScript in
theorem smallInteger_spec {m : UInt8} (h1 : 1 ≤ m) (h16 : m ≤ 16) :
    OP_1 - 1 + m ≤ OP_16 ∧ OP_1 - 1 + m ≠ 0x50 ∧ OP_1 - 1 + m ≠ 0xab ∧
      Encodes (pushedBy (OP_1 - 1 + m, [])) m.toNat := by
  have hall : ∀ k : Fin 17, 1 ≤ k → OP_1 - 1 + UInt8.ofNat k ≤ OP_16 ∧
      OP_1 - 1 + UInt8.ofNat k ≠ 0x50 ∧ OP_1 - 1 + UInt8.ofNat k ≠ 0xab ∧
        (pushedBy (OP_1 - 1 + UInt8.ofNat k, [])).length ≤ nMaxNumSize ∧
          CBigNum.setVch (pushedBy (OP_1 - 1 + UInt8.ofNat k, [])) = (k : Nat) := by decide
  have hm1 : 1 ≤ m.toNat := UInt8.le_iff_toNat_le.mp h1
  have hm16 : m.toNat ≤ 16 := UInt8.le_iff_toNat_le.mp h16
  have hm := hall ⟨m.toNat, by omega⟩ hm1
  rw [UInt8.ofNat_toNat] at hm
  exact ⟨hm.1, hm.2.1, hm.2.2.1, hm.2.2.2.1, hm.2.2.2.2⟩

theorem solution_multisig (h : matchTemplate
    [OP_SMALLINTEGER, OP_PUBKEYS, OP_SMALLINTEGER, OP_CHECKMULTISIG] s = some vSolutions)
    (hcheck : checkMultisigSolution vSolutions = true) : Solution s TX_MULTISIG vSolutions := by
  obtain ⟨opcodeM, vchM, next1, solutionM, rest1, hop1, hM, h1, rfl⟩ :=
    matchTemplate_cons (by decide) h
  obtain ⟨rfl, -, hopcodeM⟩ := matchOpcode_smallInteger hM
  rw [matchTemplate] at h1
  cases hop2 : getOp next1 with
  | none =>
    rw [hop2] at h1
    cases h1
  | some r =>
    obtain ⟨opcode, vch, next2⟩ := r
    rw [hop2] at h1
    dsimp only at h1
    rw [if_pos rfl] at h1
    simp only [Option.bind_eq_bind, Option.bind_eq_some_iff, Option.some.injEq] at h1
    obtain ⟨solutionN, hN, rest2, h2, rfl⟩ := h1
    obtain ⟨next3, hop3, h3⟩ := matchTemplate_exact (by decide) (by decide) h2
    obtain ⟨rfl, rfl⟩ := matchTemplate_nil h3
    have hvalid : (matchPubKeys next2.length opcode vch next2).2.1 ≠ OP_INVALIDOPCODE := by
      intro hinvalid
      rw [hinvalid] at hN
      cases hN
    obtain ⟨keys, hkeys, hrange, hreads⟩ := matchPubKeys_spec hop2 hvalid
    obtain ⟨rfl, hle, hopcodeN⟩ := matchOpcode_smallInteger hN
    generalize hr : matchPubKeys next2.length opcode vch next2 = r at *
    obtain ⟨solutions, opcodeN, vchN, pc1⟩ := r
    dsimp only at *
    subst hkeys
    obtain ⟨hm, hn, hmn, hlength⟩ := checkMultisigSolution_spec hcheck
    have hopM : opcodeM = OP_1 - 1 + decodeOP_N opcodeM := hopcodeM hm
    have hopN : opcodeN = OP_1 - 1 + decodeOP_N opcodeN := hopcodeN hn
    have hltM : OP_PUSHDATA4 < opcodeM := by
      rw [hopM]
      exact lt_smallInteger hm (UInt8.le_trans hmn hle)
    have hltN : OP_PUSHDATA4 < opcodeN := by
      rw [hopN]
      exact lt_smallInteger hn hle
    obtain rfl : vchM = [] := operand_eq_nil hop1 hltM
    obtain rfl : vchN = [] := hreads.operand_eq_nil _
      (List.mem_append_right _ (List.mem_singleton.mpr rfl)) hltN
    have hall : Reads s ((opcodeM, []) :: (keys ++ [(opcodeN, []), (OP_CHECKMULTISIG, [])])) [] := by
      have hrest := hreads.append (.cons hop3 (.nil []))
      rw [List.append_assoc] at hrest
      exact .cons hop1 hrest
    rw [hopM, hopN] at hall
    exact .multisig hm hmn hle (by simpa using hlength) hrange hall

/-- A script with a solution is of the type that `Solver` returns. -/
theorem solution_of_solver {type : txnouttype}
    (h : s.solver = some (type, vSolutions)) : Solution s type vSolutions := by
  rw [solver] at h
  split at h
  · rename_i hp2sh
    obtain ⟨rfl, rfl⟩ := Prod.mk.inj (Option.some.inj h)
    exact .scriptHash hp2sh
  · simp only [mTemplates, scanTemplates, reduceCtorEq, false_and, if_false, true_and] at h
    split at h
    · rename_i hmatch
      obtain ⟨rfl, rfl⟩ := Prod.mk.inj (Option.some.inj h)
      exact solution_pubKey hmatch
    · split at h
      · rename_i hmatch
        obtain ⟨rfl, rfl⟩ := Prod.mk.inj (Option.some.inj h)
        exact solution_pubKeyHash hmatch
      · split at h
        · rename_i hmatch
          split at h
          · cases h
          · rename_i hcheck
            obtain ⟨rfl, rfl⟩ := Prod.mk.inj (Option.some.inj h)
            exact solution_multisig hmatch (by simpa using hcheck)
        · cases h

end

end CScript

end Terracoin
