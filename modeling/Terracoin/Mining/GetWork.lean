import Terracoin.Chain.CoinbaseHeight
import Terracoin.Mining.UpdateTime
import Terracoin.Script.Interpreter
import Terracoin.Serialize.BlockStream
import Terracoin.Wallet.Accounts

/-!
# Work for miners

`getwork` hands out the header of a block template, in which a miner looks for the time and the
nonce, and takes it back. The block is found again by its merkle root, which says which coinbase was
handed out, while the template itself has been changed for the next miner. When there is a new best
block, all templates are deleted and their roots forgotten.

No call reads a template that was deleted, and what comes back is the block that was handed out
(`getwork_spec`).
-/

namespace Terracoin

open Codec
open CScript (push)

def byteReverseWords : List UInt8 → List UInt8
  | b0 :: b1 :: b2 :: b3 :: rest => b3 :: b2 :: b1 :: b0 :: byteReverseWords rest
  | rest => rest

/-- `FormatHashBlocks`: the padding of SHA-256, with the length in 32 bits. -/
def formatHashBlocks (pdata : List UInt8) : List UInt8 :=
  let blocks := 1 + (pdata.length + 8) / 64
  pdata ++ 0x80 :: (List.replicate (64 * blocks - pdata.length - 5) 0 ++
    (littleEndian 4 (8 * pdata.length)).reverse)

/-- The `pdata` of `FormatHashBuffers`. -/
def CBlockHeader.workData (pblock : CBlockHeader) : List UInt8 :=
  byteReverseWords (formatHashBlocks pblock.write)

def headerOfData (vchData : List UInt8) : Option CBlockHeader :=
  (CBlockHeader.read (byteReverseWords vchData)).map Prod.fst

/-! ## Templates -/

/-- `COINBASE_FLAGS`, which is set to `/P2SH/`. -/
def coinbaseFlags : CScript := push [0x2F, 0x50, 0x32, 0x53, 0x48, 0x2F]

/-- The coinbase of a template has one input. -/
def CBlock.withScriptSig (pblock : CBlock) (scriptSig : CScript) : CBlock :=
  { pblock with
    vtx := pblock.vtx.modifyHead fun tx =>
      { tx with vin := tx.vin.modifyHead fun txin => { txin with scriptSig := scriptSig } } }

/-- An exception of a call. -/
inductive WorkError where
  | rpcError (e : JSONRPCError)
  | runtimeError (what : String)

/-- Whether the node has peers, and whether it is still downloading blocks. -/
structure WorkNode where
  fConnected : Bool
  fInitialBlockDownload : Bool

def WorkNode.refusal (node : WorkNode) : Option WorkError :=
  if node.fConnected = false then some (.rpcError ⟨-9, "Terracoin is not connected!"⟩)
  else if node.fInitialBlockDownload then
    some (.rpcError ⟨-10, "Terracoin is downloading blocks..."⟩)
  else none

/-- What a call without data reads of the node, and how `CreateNewBlock` ends in it: with an
exception, with a null pointer or with a block. -/
structure WorkInput extends WorkNode where
  pindexBest : CBlockIndex
  nTransactionsUpdated : UInt32
  nTime : Int
  nAdjustedTime : Int
  created : Except String (Option CBlock)

/-- The static variables of `getwork` and of `IncrementExtraNonce`, and the templates in memory. -/
structure GetWork where
  memory : Nat → Option CBlock
  nNew : Nat
  mapNewBlock : uint256 → Option (Nat × CScript)
  vNewBlockTemplate : List Nat
  nTransactionsUpdatedLast : UInt32
  pindexPrev : Option CBlockIndex
  nStart : Int
  pblocktemplate : Option Nat
  nExtraNonce : UInt32
  hashPrevBlock : uint256

/-- `work` stands for the data of the block and `checkWork` for the call of `CheckWork`. -/
inductive WorkReply where
  | error (e : WorkError)
  | work (pblock : CBlock)
  | notFound
  | checkWork (pblock : CBlock)

inductive WorkCall where
  | getwork (input : WorkInput)
  | submit (node : WorkNode) (vchData : List UInt8)
  /-- The miner of the node calls `IncrementExtraNonce` with its own counter. -/
  | incrementElsewhere (hashPrevBlock : uint256)

namespace GetWork

def init : GetWork :=
  ⟨fun _ => none, 0, fun _ => none, [], 0, none, 0, none, 0, 0⟩

/-- The templates of another best block are deleted. -/
def deallocate (s : GetWork) (pindexBest : CBlockIndex) : GetWork :=
  if s.pindexPrev = some pindexBest then s
  else
    { s with
      mapNewBlock := fun _ => none
      memory := fun i => if i ∈ s.vNewBlockTemplate then none else s.memory i
      vNewBlockTemplate := [] }

/-- A new template, or why there is none. -/
def renew (s : GetWork) (input : WorkInput) : GetWork × Option WorkError :=
  let s := { s.deallocate input.pindexBest with
    pindexPrev := none
    nTransactionsUpdatedLast := input.nTransactionsUpdated
    nStart := input.nTime }
  match input.created with
  | .error what => (s, some (.runtimeError what))
  | .ok none => ({ s with pblocktemplate := none }, some (.rpcError ⟨-7, "Out of memory"⟩))
  | .ok (some pblock) =>
    ({ s with
        memory := Function.update s.memory s.nNew (some pblock)
        nNew := s.nNew + 1
        vNewBlockTemplate := s.vNewBlockTemplate ++ [s.nNew]
        pblocktemplate := some s.nNew
        pindexPrev := some input.pindexBest }, none)

def nextExtraNonce (s : GetWork) (hashPrevBlock : uint256) : UInt32 :=
  (if s.hashPrevBlock ≠ hashPrevBlock then 0 else s.nExtraNonce) + 1

section

variable [Hashing] [NodeConfig] [FloatArithmetic]

/-- What `getwork` does with its template: `none` if it reads a template that is not in memory, or
the assertion of `IncrementExtraNonce` fails. -/
def handOut (s : GetWork) (nAdjustedTime : Int) : Option (GetWork × WorkReply) := do
  let pindexPrev ← s.pindexPrev
  let i ← s.pblocktemplate
  let pblock ← s.memory i
  let header ← pblock.toCBlockHeader.updateTime pindexPrev nAdjustedTime
  let nExtraNonce := s.nextExtraNonce pblock.hashPrevBlock
  let scriptSig := CScript.ofNat (pindexPrev.nHeight + 1) ++ push (getvch nExtraNonce.toNat) ++
    coinbaseFlags
  guard (scriptSig.length ≤ 100)
  let pblock := { pblock.withScriptSig scriptSig with
    toCBlockHeader := { header with nNonce := 0 } }
  let pblock := { pblock with hashMerkleRoot := pblock.buildMerkleTree }
  pure ({ s with
    memory := Function.update s.memory i (some pblock)
    nExtraNonce := nExtraNonce
    hashPrevBlock := pblock.hashPrevBlock
    mapNewBlock := Function.update s.mapNewBlock pblock.hashMerkleRoot (some (i, scriptSig)) },
    .work pblock)

/-- `getwork` without data. -/
def getwork (s : GetWork) (input : WorkInput) : Option (GetWork × WorkReply) :=
  match input.refusal with
  | some e => some (s, .error e)
  | none =>
    if s.pindexPrev ≠ some input.pindexBest ∨
        s.nTransactionsUpdatedLast ≠ input.nTransactionsUpdated ∧ 60 < input.nTime - s.nStart then
      match s.renew input with
      | (s, some e) => some (s, .error e)
      | (s, none) => s.handOut input.nAdjustedTime
    else s.handOut input.nAdjustedTime

/-- `getwork` with data, from `ParseHex` to `CheckWork`. -/
def submit (s : GetWork) (node : WorkNode) (vchData : List UInt8) :
    Option (GetWork × WorkReply) :=
  match node.refusal with
  | some e => some (s, .error e)
  | none =>
    if vchData.length ≠ 128 then some (s, .error (.rpcError ⟨-8, "Invalid parameter"⟩))
    else do
      let pdata ← headerOfData vchData
      match s.mapNewBlock pdata.hashMerkleRoot with
      | none => some (s, .notFound)
      | some (i, scriptSig) => do
        let pblock ← s.memory i
        let pblock := { pblock.withScriptSig scriptSig with
          nTime := pdata.nTime, nNonce := pdata.nNonce }
        let pblock := { pblock with hashMerkleRoot := pblock.buildMerkleTree }
        pure ({ s with memory := Function.update s.memory i (some pblock) }, .checkWork pblock)

def step (s : GetWork) : WorkCall → Option (GetWork × List WorkReply)
  | .getwork input => (s.getwork input).map fun (s, reply) => (s, [reply])
  | .submit node vchData => (s.submit node vchData).map fun (s, reply) => (s, [reply])
  | .incrementElsewhere hashPrevBlock => some ({ s with hashPrevBlock := hashPrevBlock }, [])

/-- The calls one after the other, and their replies. -/
def run (s : GetWork) : List WorkCall → Option (GetWork × List WorkReply)
  | [] => some (s, [])
  | call :: calls => do
    let (s, replies) ← s.step call
    let (s, replies') ← s.run calls
    pure (s, replies ++ replies')

end

end GetWork

/-! ## What a miner sends back -/

theorem byteReverseWords_involutive : Function.Involutive byteReverseWords := by
  intro bytes
  fun_induction byteReverseWords bytes with
  | case1 b0 b1 b2 b3 rest ih => rw [byteReverseWords, ih]
  | case2 rest hrest => rw [byteReverseWords]; exact hrest

theorem length_byteReverseWords (bytes : List UInt8) :
    (byteReverseWords bytes).length = bytes.length := by
  fun_induction byteReverseWords bytes with
  | case1 b0 b1 b2 b3 rest ih => simp only [List.length_cons, ih]
  | case2 rest hrest => rfl

theorem length_workData (header : CBlockHeader) : header.workData.length = 128 := by
  have hlength := format_header.length header
  simp only [CBlockHeader.workData, length_byteReverseWords, formatHashBlocks, hlength,
    List.length_append, List.length_cons, List.length_replicate, List.length_reverse,
    length_littleEndian]

theorem headerOfData_workData (header : CBlockHeader) :
    headerOfData header.workData = some header := by
  rw [headerOfData, CBlockHeader.workData, byteReverseWords_involutive]
  unfold formatHashBlocks
  dsimp only
  rw [header.decodes_write]
  rfl

/-- `n` bytes are enough, and are read. -/
def EnoughFor {α : Type} (n : Nat) (read : Reader α) : Prop :=
  ∀ s : List UInt8, n ≤ s.length → ∃ a, read s = some (a, s.drop n)

theorem EnoughFor.bind {α β : Type} {read : Reader α} {next : α → Reader β} {n m : Nat}
    (h : EnoughFor n read) (h' : ∀ a, EnoughFor m (next a)) :
    EnoughFor (n + m) (read >>= next) := by
  intro s hs
  obtain ⟨a, ha⟩ := h s (by omega)
  obtain ⟨b, hb⟩ := h' a (s.drop n) (by rw [List.length_drop]; omega)
  refine ⟨b, ?_⟩
  change (read s).bind _ = _
  rw [ha, ← List.drop_drop]
  exact hb

theorem EnoughFor.pure {α : Type} (a : α) : EnoughFor 0 (pure a : Reader α) := fun _ _ => ⟨a, rfl⟩

theorem enoughFor_readLittleEndian (k : Nat) : EnoughFor k (readLittleEndian k) := by
  intro s hs
  rw [readLittleEndian_eq, if_neg (Nat.not_lt.mpr hs)]
  exact ⟨_, rfl⟩

theorem enoughFor_readUint256 : EnoughFor 32 readUint256 := by
  intro s hs
  obtain ⟨n, hn⟩ := enoughFor_readLittleEndian 32 s hs
  refine ⟨BitVec.ofNat 256 n, ?_⟩
  change (readLittleEndian 32 s).bind _ = _
  rw [hn]
  rfl

theorem enoughFor_header : EnoughFor 80 CBlockHeader.read :=
  (enoughFor_readLittleEndian 4).bind fun _ => enoughFor_readUint256.bind fun _ =>
    enoughFor_readUint256.bind fun _ => (enoughFor_readLittleEndian 4).bind fun _ =>
      (enoughFor_readLittleEndian 4).bind fun _ => (enoughFor_readLittleEndian 4).bind fun _ =>
        EnoughFor.pure _

theorem exists_headerOfData {vchData : List UInt8} (h : vchData.length = 128) :
    ∃ pdata, headerOfData vchData = some pdata := by
  obtain ⟨pdata, hread⟩ := enoughFor_header (byteReverseWords vchData)
    (by rw [length_byteReverseWords, h]; decide)
  exact ⟨pdata, by rw [headerOfData, hread, Option.map_some]⟩

/-! ## Blocks of one template -/

namespace CBlock

variable {b b' b'' : CBlock}

theorem withScriptSig_withScriptSig (b : CBlock) (scriptSig scriptSig' : CScript) :
    ((b.withScriptSig scriptSig).withScriptSig scriptSig').vtx =
      (b.withScriptSig scriptSig').vtx := by
  unfold withScriptSig
  dsimp only
  cases b.vtx with
  | nil => rfl
  | cons tx vtx =>
    rw [List.modifyHead_cons, List.modifyHead_cons, List.modifyHead_cons]
    cases htx : tx.vin with
    | nil => rfl
    | cons txin vin => rfl

theorem buildMerkleTree_congr [Hashing] (h : b.vtx = b'.vtx) :
    b.buildMerkleTree = b'.buildMerkleTree := by
  rw [buildMerkleTree, buildMerkleTree, h]

/-- The template of one block is later that of the other. -/
structure SameWork [NodeConfig] (b b' : CBlock) : Prop where
  nVersion : b'.nVersion = b.nVersion
  hashPrevBlock : b'.hashPrevBlock = b.hashPrevBlock
  nBits : NodeConfig.fTestNet = false → b'.nBits = b.nBits
  vtx : ∀ scriptSig, (b'.withScriptSig scriptSig).vtx = (b.withScriptSig scriptSig).vtx

variable [NodeConfig]

theorem SameWork.refl (b : CBlock) : SameWork b b := ⟨rfl, rfl, fun _ => rfl, fun _ => rfl⟩

theorem SameWork.trans (h : SameWork b b') (h' : SameWork b' b'') : SameWork b b'' :=
  ⟨h'.nVersion.trans h.nVersion, h'.hashPrevBlock.trans h.hashPrevBlock,
    fun hmain => (h'.nBits hmain).trans (h.nBits hmain),
    fun scriptSig => (h'.vtx scriptSig).trans (h.vtx scriptSig)⟩

end CBlock

/-! ## The templates in memory -/

namespace GetWork

open CBlock

variable {s s' s'' : GetWork} {pblock : CBlock} {p : CBlockIndex}

/-- The coinbase that `IncrementExtraNonce` makes is never too long. -/
theorem length_scriptSig_le (nHeight nExtraNonce : Nat) : (CScript.ofNat nHeight ++
    push (getvch nExtraNonce) ++ coinbaseFlags).length ≤ 100 := by
  have hheight : (CScript.ofNat nHeight).length ≤ 10 := by
    have hle := length_getvch_le nHeight
    unfold CScript.ofNat
    split
    · exact Nat.le_add_left 1 9
    · exact Nat.succ_le_succ hle
  have hnonce : (push (getvch nExtraNonce)).length ≤ 10 := by
    have hle := length_getvch_le nExtraNonce
    rw [push, if_pos (Nat.lt_of_le_of_lt hle (by decide))]
    exact Nat.succ_le_succ hle
  have hflags : coinbaseFlags.length = 7 := rfl
  rw [List.length_append, List.length_append, hflags]
  omega

section

variable [NodeConfig]

/-- No template is deleted, and each stays one for the same block. -/
def Lasting (s s' : GetWork) : Prop :=
  ∀ i b, s.memory i = some b → ∃ b', s'.memory i = some b' ∧ SameWork b b'

theorem Lasting.refl (s : GetWork) : Lasting s s := fun _ b hb => ⟨b, hb, SameWork.refl b⟩

theorem Lasting.trans (h : Lasting s s') (h' : Lasting s' s'') : Lasting s s'' := by
  intro i b hb
  obtain ⟨b', hb', hsame⟩ := h i b hb
  obtain ⟨b'', hb'', hsame'⟩ := h' i b' hb'
  exact ⟨b'', hb'', hsame.trans hsame'⟩

theorem lasting_update {i : Nat} {b b' : CBlock} (hb : s.memory i = some b) (hsame : SameWork b b')
    (hmemory : s'.memory = Function.update s.memory i (some b')) : Lasting s s' := by
  intro j c hc
  rw [hmemory]
  by_cases hj : j = i
  · subst hj
    obtain rfl := Option.some.inj (hb.symm.trans hc)
    exact ⟨b', Function.update_self .., hsame⟩
  · exact ⟨c, (Function.update_of_ne hj ..).trans hc, SameWork.refl c⟩

/-- The block that was handed out is found by its root, and its template is in memory. -/
def Saved (s : GetWork) (pblock : CBlock) : Prop :=
  ∃ i scriptSig b, s.mapNewBlock pblock.hashMerkleRoot = some (i, scriptSig) ∧
    s.memory i = some b ∧ SameWork pblock b ∧ (b.withScriptSig scriptSig).vtx = pblock.vtx

theorem Saved.lasting (h : Saved s pblock) (hlasting : Lasting s s')
    (hmap : s'.mapNewBlock pblock.hashMerkleRoot = s.mapNewBlock pblock.hashMerkleRoot) :
    Saved s' pblock := by
  obtain ⟨i, scriptSig, b, hroot, hb, hsame, hvtx⟩ := h
  obtain ⟨b', hb', hsame'⟩ := hlasting i b hb
  exact ⟨i, scriptSig, b', hmap.trans hroot, hb', hsame.trans hsame',
    (hsame'.vtx scriptSig).trans hvtx⟩

theorem updateTime_sameWork [FloatArithmetic] (b : CBlock) (p : CBlockIndex) (t : Int) :
    ∃ header : CBlockHeader, b.toCBlockHeader.updateTime p t = some header ∧
      header.nVersion = b.nVersion ∧ header.hashPrevBlock = b.hashPrevBlock ∧
      (NodeConfig.fTestNet = false → header.nBits = b.nBits) := by
  unfold CBlockHeader.updateTime
  dsimp only
  by_cases htest : NodeConfig.fTestNet = true
  · obtain ⟨nBits, hn⟩ := getNextWorkRequired_isSome p
      { b.toCBlockHeader with nTime := p.nextTime t }
    rw [if_pos htest, hn]
    exact ⟨_, rfl, rfl, rfl, fun hmain => absurd (htest.symm.trans hmain) (by decide)⟩
  · rw [if_neg htest]
    exact ⟨_, rfl, rfl, rfl, fun _ => rfl⟩

end

section

variable [Hashing]

/-- What holds between two calls. -/
structure Inv (s : GetWork) : Prop where
  fresh : ∀ i, s.nNew ≤ i → s.memory i = none
  current : s.pindexPrev ≠ none → ∃ i b, s.pblocktemplate = some i ∧ s.memory i = some b
  saved : ∀ root i scriptSig, s.mapNewBlock root = some (i, scriptSig) →
    ∃ b, s.memory i = some b ∧ (b.withScriptSig scriptSig).buildMerkleTree = root

theorem inv_init : Inv init :=
  ⟨fun _ _ => rfl, fun h => absurd rfl h, fun _ _ _ h => (by cases h)⟩

variable [NodeConfig]

/-- The invariant after a change of one template. -/
theorem Inv.update (h : Inv s) {i : Nat} {b b' : CBlock} (hb : s.memory i = some b)
    (hsame : SameWork b b') (hmemory : s'.memory = Function.update s.memory i (some b'))
    (hnew : s'.nNew = s.nNew) (hprev : s'.pindexPrev = s.pindexPrev)
    (htemplate : s'.pblocktemplate = s.pblocktemplate)
    (hmap : ∀ root e, s'.mapNewBlock root = some e → s.mapNewBlock root = some e ∨
      ∃ scriptSig, e = (i, scriptSig) ∧ (b'.withScriptSig scriptSig).buildMerkleTree = root) :
    Inv s' := by
  have hlasting : Lasting s s' := lasting_update hb hsame hmemory
  refine ⟨fun j hj => ?_, fun hset => ?_, fun root j scriptSig hroot => ?_⟩
  · have hnone := h.fresh j (hnew ▸ hj)
    rw [hmemory, Function.update_of_ne, hnone]
    rintro rfl
    rw [hnone] at hb
    cases hb
  · obtain ⟨j, c, hj, hc⟩ := h.current (hprev ▸ hset)
    obtain ⟨c', hc', -⟩ := hlasting j c hc
    exact ⟨j, c', htemplate.trans hj, hc'⟩
  · rcases hmap root _ hroot with hold | ⟨scriptSig', he, hbuild⟩
    · obtain ⟨c, hc, hbuild⟩ := h.saved root j scriptSig hold
      obtain ⟨c', hc', hsame'⟩ := hlasting j c hc
      exact ⟨c', hc', (buildMerkleTree_congr (hsame'.vtx scriptSig)).trans hbuild⟩
    · obtain ⟨rfl, rfl⟩ := Prod.mk.inj he
      exact ⟨b', by rw [hmemory, Function.update_self], hbuild⟩

variable [FloatArithmetic]

/-- One block is handed out, and found again. -/
theorem handOut_spec (h : Inv s) (hp : s.pindexPrev = some p) (t : Int) :
    ∃ s' b, s.handOut t = some (s', .work b) ∧ Inv s' ∧ Lasting s s' ∧ Saved s' b ∧
      s'.pindexPrev = some p ∧
      ∀ root, root ≠ b.hashMerkleRoot → s'.mapNewBlock root = s.mapNewBlock root := by
  obtain ⟨i, b, hi, hb⟩ := h.current (by rw [hp]; exact Option.some_ne_none p)
  obtain ⟨header, hheader, hversion, hprev, hbits⟩ := updateTime_sameWork b p t
  have hlength := length_scriptSig_le (p.nHeight + 1) (s.nextExtraNonce b.hashPrevBlock).toNat
  unfold handOut
  simp only [hp, hi, hb, hheader, hlength, Option.bind_eq_bind, Option.bind_some, guard_true,
    Option.pure_def]
  set scriptSig := CScript.ofNat (p.nHeight + 1) ++
    push (getvch (s.nextExtraNonce b.hashPrevBlock).toNat) ++ coinbaseFlags with hscriptSig
  set b1 : CBlock := { b.withScriptSig scriptSig with
    toCBlockHeader := { header with nNonce := 0 } } with hb1
  set b2 : CBlock := { b1 with hashMerkleRoot := b1.buildMerkleTree } with hb2
  have hvtx : ∀ scriptSig', (b2.withScriptSig scriptSig').vtx = (b.withScriptSig scriptSig').vtx :=
    withScriptSig_withScriptSig b scriptSig
  have hsame : SameWork b b2 := ⟨hversion, hprev, hbits, hvtx⟩
  refine ⟨_, b2, rfl, ?_, lasting_update hb hsame rfl, ?_, rfl, ?_⟩
  · refine h.update hb hsame rfl rfl hp.symm hi.symm fun root e he => ?_
    change Function.update s.mapNewBlock b2.hashMerkleRoot _ root = some e at he
    by_cases hroot : root = b2.hashMerkleRoot
    · subst hroot
      rw [Function.update_self] at he
      refine .inr ⟨scriptSig, (Option.some.inj he).symm, ?_⟩
      exact buildMerkleTree_congr (hvtx scriptSig)
    · rw [Function.update_of_ne hroot] at he
      exact .inl he
  · exact ⟨i, scriptSig, b2, Function.update_self .., Function.update_self .., SameWork.refl b2,
      hvtx scriptSig⟩
  · exact fun root hroot => Function.update_of_ne hroot ..

omit [NodeConfig] [FloatArithmetic] in
/-- What is left when the templates are deleted; a best block that has not changed leaves all. -/
theorem deallocate_spec (h : Inv s) (p : CBlockIndex) :
    Inv { s.deallocate p with pindexPrev := none } ∧
      (∀ root e, (s.deallocate p).mapNewBlock root = some e → s.mapNewBlock root = some e) ∧
      (s.pindexPrev = some p → s.deallocate p = s) := by
  unfold deallocate
  by_cases hp : s.pindexPrev = some p
  · rw [if_pos hp]
    exact ⟨⟨h.fresh, fun hset => absurd rfl hset, h.saved⟩, fun _ _ he => he, fun _ => rfl⟩
  · rw [if_neg hp]
    refine ⟨⟨fun i hi => ?_, fun hset => absurd rfl hset, fun _ _ _ he => (by cases he)⟩,
      fun _ _ he => (by cases he), fun hset => absurd hset hp⟩
    dsimp only
    split
    · rfl
    · exact h.fresh i hi

omit [FloatArithmetic] in
theorem renew_spec (h : Inv s) (input : WorkInput) :
    Inv (s.renew input).1 ∧
      (∀ root e, (s.renew input).1.mapNewBlock root = some e → s.mapNewBlock root = some e) ∧
      ((s.renew input).2 = none → (s.renew input).1.pindexPrev = some input.pindexBest) ∧
      (s.pindexPrev = some input.pindexBest →
        (s.renew input).1.mapNewBlock = s.mapNewBlock ∧ Lasting s (s.renew input).1) ∧
      ∀ b, input.created = .ok (some b) → (s.renew input).2 = none := by
  obtain ⟨hinv, hmap, hsame⟩ := deallocate_spec h input.pindexBest
  have hkept : s.pindexPrev = some input.pindexBest →
      (s.deallocate input.pindexBest).mapNewBlock = s.mapNewBlock ∧
        Lasting s (s.deallocate input.pindexBest) := by
    intro hp
    rw [hsame hp]
    exact ⟨rfl, Lasting.refl s⟩
  unfold renew
  rcases hcreated : input.created with what | _ | pblock
  · -- the pointer of before stays, but is not read again
    exact ⟨⟨hinv.fresh, fun hset => absurd rfl hset, hinv.saved⟩, hmap, nofun, hkept, nofun⟩
  · exact ⟨⟨hinv.fresh, fun hset => absurd rfl hset, hinv.saved⟩, hmap, nofun, hkept, nofun⟩
  · -- the new template has an address of its own
    generalize s.deallocate input.pindexBest = s0 at hinv hmap hkept
    have hold : ∀ i b, s0.memory i = some b →
        Function.update s0.memory s0.nNew (some pblock) i = some b := by
      intro i b hb
      rw [Function.update_of_ne, hb]
      rintro rfl
      exact absurd ((hinv.fresh _ (Nat.le_refl _)).symm.trans hb) nofun
    refine ⟨⟨fun i hi => ?_, fun _ => ?_, fun root i scriptSig hroot => ?_⟩, hmap, fun _ => rfl,
      fun hp => ?_, fun _ _ => rfl⟩
    · exact (Function.update_of_ne (Nat.ne_of_gt hi) ..).trans
        (hinv.fresh i (Nat.le_of_succ_le hi))
    · exact ⟨_, pblock, rfl, Function.update_self ..⟩
    · obtain ⟨b, hb, hbuild⟩ := hinv.saved root i scriptSig hroot
      exact ⟨b, hold i b hb, hbuild⟩
    · obtain ⟨hroots, hlasting⟩ := hkept hp
      refine ⟨hroots, fun i b hb => ?_⟩
      obtain ⟨b', hb', hwork⟩ := hlasting i b hb
      exact ⟨b', hold i b' hb', hwork⟩

/-- What a call without data leaves behind. -/
structure Called (s : GetWork) (input : WorkInput) (s' : GetWork) (reply : WorkReply) : Prop where
  inv : Inv s'
  saved : ∀ b, reply = .work b → Saved s' b ∧ s'.pindexPrev = some input.pindexBest
  handedOut : ∀ root e, s'.mapNewBlock root = some e → s.mapNewBlock root = some e ∨
    ∃ b, reply = .work b ∧ b.hashMerkleRoot = root
  lasting : s.pindexPrev = some input.pindexBest → (∃ b, input.created = .ok (some b)) →
    s'.pindexPrev = some input.pindexBest ∧ Lasting s s' ∧
      ∀ root, (∀ b, reply = .work b → b.hashMerkleRoot ≠ root) →
        s'.mapNewBlock root = s.mapNewBlock root

theorem called_of_handOut {s1 : GetWork} {input : WorkInput} (h : Inv s1)
    (hp : s1.pindexPrev = some input.pindexBest)
    (hmap : ∀ root e, s1.mapNewBlock root = some e → s.mapNewBlock root = some e)
    (hkept : s.pindexPrev = some input.pindexBest →
      s1.mapNewBlock = s.mapNewBlock ∧ Lasting s s1) :
    ∃ s' reply, s1.handOut input.nAdjustedTime = some (s', reply) ∧ Called s input s' reply := by
  obtain ⟨s', b, hout, hinv, hlasting, hsaved, hp', hother⟩ := handOut_spec h hp input.nAdjustedTime
  refine ⟨s', .work b, hout, hinv, ?_, fun root e he => ?_, fun hset _ => ?_⟩
  · intro b' hb'
    obtain rfl := WorkReply.work.inj hb'
    exact ⟨hsaved, hp'⟩
  · by_cases hroot : root = b.hashMerkleRoot
    · exact .inr ⟨b, rfl, hroot.symm⟩
    · exact .inl (hmap root e ((hother root hroot).symm.trans he))
  · obtain ⟨hsame, hlasting1⟩ := hkept hset
    refine ⟨hp', hlasting1.trans hlasting, fun root hroot => ?_⟩
    rw [hother root (hroot b rfl).symm, hsame]

theorem getwork_called (h : Inv s) (input : WorkInput) :
    ∃ s' reply, s.getwork input = some (s', reply) ∧ Called s input s' reply := by
  unfold getwork
  cases hrefusal : input.refusal with
  | some e =>
    refine ⟨s, .error e, rfl, h, fun b hb => (by cases hb), fun _ _ he => .inl he, fun hp _ => ?_⟩
    exact ⟨hp, Lasting.refl s, fun _ _ => rfl⟩
  | none =>
    dsimp only
    split
    · obtain ⟨hinv, hmap, hp, hkept, hcreated⟩ := renew_spec h input
      generalize s.renew input = r at hinv hmap hp hkept hcreated
      obtain ⟨s1, e⟩ := r
      cases e with
      | some e =>
        refine ⟨s1, .error e, rfl, hinv, fun b hb => (by cases hb),
          fun root e he => .inl (hmap root e he), fun _ ⟨b, hb⟩ => ?_⟩
        cases hcreated b hb
      | none => exact called_of_handOut hinv (hp rfl) hmap hkept
    · next hcurrent =>
      have hp : s.pindexPrev = some input.pindexBest := by
        by_contra hne
        exact hcurrent (.inl hne)
      exact called_of_handOut h hp (fun _ _ he => he) fun _ => ⟨rfl, Lasting.refl s⟩

/-- What a call with data leaves behind: a block that is checked has a root that is known. -/
structure Submitted (s s' : GetWork) (reply : WorkReply) : Prop where
  inv : Inv s'
  lasting : Lasting s s'
  pindexPrev : s'.pindexPrev = s.pindexPrev
  mapNewBlock : s'.mapNewBlock = s.mapNewBlock
  notWork : ∀ b, reply ≠ .work b
  checked : ∀ b, reply = .checkWork b → b.hashMerkleRoot = b.buildMerkleTree ∧
    ∃ e, s.mapNewBlock b.hashMerkleRoot = some e

omit [FloatArithmetic] in
theorem Inv.submitted (h : Inv s) {reply : WorkReply} (hwork : ∀ b, reply ≠ .work b)
    (hcheck : ∀ b, reply ≠ .checkWork b) :
    ∃ s' reply', some (s, reply) = some (s', reply') ∧ Submitted s s' reply' :=
  ⟨s, reply, rfl, h, Lasting.refl s, rfl, rfl, hwork, fun b hb => absurd hb (hcheck b)⟩

omit [FloatArithmetic] in
theorem submit_submitted (h : Inv s) (node : WorkNode) (vchData : List UInt8) :
    ∃ s' reply, s.submit node vchData = some (s', reply) ∧ Submitted s s' reply := by
  unfold submit
  cases hrefusal : node.refusal with
  | some e => exact h.submitted nofun nofun
  | none =>
    dsimp only
    split
    · exact h.submitted nofun nofun
    · next hlength =>
      obtain ⟨pdata, hpdata⟩ := exists_headerOfData (not_not.mp hlength)
      rw [hpdata, Option.bind_eq_bind, Option.bind_some]
      cases hroot : s.mapNewBlock pdata.hashMerkleRoot with
      | none => exact h.submitted nofun nofun
      | some e =>
        obtain ⟨i, scriptSig⟩ := e
        obtain ⟨b, hb, hbuild⟩ := h.saved _ i scriptSig hroot
        simp only [hb, Option.bind_eq_bind, Option.bind_some, Option.pure_def]
        set b1 : CBlock := { b.withScriptSig scriptSig with
          nTime := pdata.nTime, nNonce := pdata.nNonce } with hb1
        set b2 : CBlock := { b1 with hashMerkleRoot := b1.buildMerkleTree } with hb2
        have hwork : SameWork b b2 :=
          ⟨rfl, rfl, fun _ => rfl, withScriptSig_withScriptSig b scriptSig⟩
        refine ⟨_, _, rfl, h.update hb hwork rfl rfl rfl rfl fun _ _ he => .inl he,
          lasting_update hb hwork rfl, rfl, rfl, nofun, fun b' hb' => ?_⟩
        obtain rfl := WorkReply.checkWork.inj hb'
        exact ⟨rfl, _, (congrArg s.mapNewBlock hbuild).trans hroot⟩

omit [FloatArithmetic] in
/-- A block that was handed out comes back with another time and another nonce. -/
theorem submit_saved (h : Inv s) (hsaved : Saved s pblock) {node : WorkNode}
    (hnode : node.refusal = none) (nTime nNonce : UInt32) :
    ∃ nBits, (NodeConfig.fTestNet = false → nBits = pblock.nBits) ∧
      ∃ s', s.submit node (CBlockHeader.workData
          { pblock.toCBlockHeader with nTime := nTime, nNonce := nNonce }) =
        some (s', .checkWork
          { pblock with nTime := nTime, nBits := nBits, nNonce := nNonce }) := by
  obtain ⟨i, scriptSig, b, hroot, hb, hsame, hvtx⟩ := hsaved
  obtain ⟨b', hb', hbuild⟩ := h.saved _ i scriptSig hroot
  obtain rfl := Option.some.inj (hb.symm.trans hb')
  have hblock : ({ b.withScriptSig scriptSig with
      nTime := nTime, nNonce := nNonce
      hashMerkleRoot := (b.withScriptSig scriptSig).buildMerkleTree } : CBlock) =
        { pblock with nTime := nTime, nBits := b.nBits, nNonce := nNonce } := by
    rw [CBlock.mk.injEq, CBlockHeader.mk.injEq]
    exact ⟨⟨hsame.nVersion, hsame.hashPrevBlock, hbuild, rfl, rfl, rfl⟩, hvtx⟩
  refine ⟨b.nBits, hsame.nBits, ?_⟩
  rw [← hblock]
  unfold submit
  simp only [hnode, length_workData, ne_eq, not_true_eq_false, if_false, headerOfData_workData,
    Option.bind_eq_bind, Option.bind_some, hroot, hb, Option.pure_def]
  exact ⟨_, rfl⟩

/-! ## Runs -/

theorem step_keeps (h : Inv s) (call : WorkCall) :
    ∃ s' replies, s.step call = some (s', replies) ∧ Inv s' ∧
      ∀ root e, s'.mapNewBlock root = some e → s.mapNewBlock root = some e ∨
        ∃ b, .work b ∈ replies ∧ b.hashMerkleRoot = root := by
  cases call with
  | getwork input =>
    obtain ⟨s', reply, hcall, hcalled⟩ := getwork_called h input
    refine ⟨s', [reply], by rw [step, hcall, Option.map_some], hcalled.inv, fun root e he => ?_⟩
    refine (hcalled.handedOut root e he).imp_right ?_
    rintro ⟨b, rfl, hroot⟩
    exact ⟨b, List.mem_singleton_self _, hroot⟩
  | submit node vchData =>
    obtain ⟨s', reply, hcall, hsubmitted⟩ := submit_submitted h node vchData
    refine ⟨s', [reply], by rw [step, hcall, Option.map_some], hsubmitted.inv,
      fun root e he => .inl ?_⟩
    rwa [hsubmitted.mapNewBlock] at he
  | incrementElsewhere hashPrevBlock =>
    exact ⟨_, [], rfl, ⟨h.fresh, h.current, h.saved⟩, fun _ _ he => .inl he⟩

theorem run_cons {call : WorkCall} {calls : List WorkCall} {replies replies' : List WorkReply}
    (hstep : s.step call = some (s', replies)) (hrun : s'.run calls = some (s'', replies')) :
    s.run (call :: calls) = some (s'', replies ++ replies') := by
  rw [run, hstep]
  change (s'.run calls).bind _ = _
  rw [hrun]
  rfl

/-- Every call of a run has a reply, and the roots that are known were handed out. -/
theorem run_keeps (h : Inv s) (calls : List WorkCall) :
    ∃ s' replies, s.run calls = some (s', replies) ∧ Inv s' ∧
      ∀ root e, s'.mapNewBlock root = some e → s.mapNewBlock root = some e ∨
        ∃ b, .work b ∈ replies ∧ b.hashMerkleRoot = root := by
  induction calls generalizing s with
  | nil => exact ⟨s, [], rfl, h, fun _ _ he => .inl he⟩
  | cons call calls ih =>
    obtain ⟨s1, replies1, hstep, hinv1, hmap1⟩ := step_keeps h call
    obtain ⟨s2, replies2, hrun, hinv2, hmap2⟩ := ih hinv1
    refine ⟨s2, replies1 ++ replies2, run_cons hstep hrun, hinv2, fun root e he => ?_⟩
    rcases hmap2 root e he with he1 | ⟨b, hb, hroot⟩
    · refine (hmap1 root e he1).imp_right ?_
      rintro ⟨b, hb, hroot⟩
      exact ⟨b, List.mem_append_left _ hb, hroot⟩
    · exact .inr ⟨b, List.mem_append_right _ hb, hroot⟩

/-- The calls find the best block `p`, and none of them fails to create a template. -/
def SameBest (p : CBlockIndex) (calls : List WorkCall) : Prop :=
  ∀ input, .getwork input ∈ calls → input.pindexBest = p ∧ ∃ b, input.created = .ok (some b)

theorem step_saved (h : Inv s) (hp : s.pindexPrev = some p) (hsaved : Saved s pblock)
    {call : WorkCall} (hbest : SameBest p [call]) {replies : List WorkReply}
    (hstep : s.step call = some (s', replies))
    (hroots : ∀ b, .work b ∈ replies → b.hashMerkleRoot ≠ pblock.hashMerkleRoot) :
    s'.pindexPrev = some p ∧ Saved s' pblock := by
  cases call with
  | getwork input =>
    obtain ⟨rfl, hcreated⟩ := hbest input (List.mem_singleton_self _)
    obtain ⟨s1, reply, hcall, hcalled⟩ := getwork_called h input
    rw [step, hcall, Option.map_some] at hstep
    obtain ⟨rfl, rfl⟩ := Prod.mk.inj (Option.some.inj hstep)
    obtain ⟨hp', hlasting, hmap⟩ := hcalled.lasting hp hcreated
    refine ⟨hp', hsaved.lasting hlasting (hmap _ fun b hb => hroots b ?_)⟩
    exact hb ▸ List.mem_singleton_self _
  | submit node vchData =>
    obtain ⟨s1, reply, hcall, hsubmitted⟩ := submit_submitted h node vchData
    rw [step, hcall, Option.map_some] at hstep
    obtain ⟨rfl, rfl⟩ := Prod.mk.inj (Option.some.inj hstep)
    exact ⟨hsubmitted.pindexPrev.trans hp,
      hsaved.lasting hsubmitted.lasting (congrFun hsubmitted.mapNewBlock _)⟩
  | incrementElsewhere hashPrevBlock =>
    obtain ⟨rfl, rfl⟩ := Prod.mk.inj (Option.some.inj hstep)
    exact ⟨hp, hsaved⟩

/-- While the best block stays, so does what was handed out. -/
theorem run_saved (h : Inv s) (hp : s.pindexPrev = some p) (hsaved : Saved s pblock)
    {calls : List WorkCall} (hbest : SameBest p calls) {replies : List WorkReply}
    (hrun : s.run calls = some (s', replies))
    (hroots : ∀ b, .work b ∈ replies → b.hashMerkleRoot ≠ pblock.hashMerkleRoot) :
    Saved s' pblock := by
  induction calls generalizing s replies with
  | nil =>
    obtain ⟨rfl, rfl⟩ := Prod.mk.inj (Option.some.inj hrun)
    exact hsaved
  | cons call calls ih =>
    obtain ⟨s1, replies1, hstep, hinv1, -⟩ := step_keeps h call
    obtain ⟨s2, replies2, hrun2, -⟩ := run_keeps hinv1 calls
    rw [run_cons hstep hrun2] at hrun
    obtain ⟨rfl, rfl⟩ := Prod.mk.inj (Option.some.inj hrun)
    obtain ⟨hp1, hsaved1⟩ := step_saved h hp hsaved
      (fun input hmem => hbest input (List.mem_singleton.mp hmem ▸ List.mem_cons_self))
      hstep fun b hb => hroots b (List.mem_append_left _ hb)
    exact ih hinv1 hp1 hsaved1 (fun input hmem => hbest input (List.mem_cons_of_mem _ hmem)) hrun2
      fun b hb => hroots b (List.mem_append_right _ hb)

/-- **Work.** No call of a run reads a template that was deleted or fails an assertion. The only
blocks that are checked have the root of a block that was handed out. And what was handed out stays
good: while the best block stays, templates are created, and no later block has the same root, the
data of the block with any time and any nonce makes `CheckWork` check that very block. On testnet,
its work may be that of a later time. -/
theorem getwork_spec (before : List WorkCall) (input : WorkInput) (after : List WorkCall) :
    ∃ s replies s' reply s'' replies', init.run before = some (s, replies) ∧
      s.getwork input = some (s', reply) ∧ s'.run after = some (s'', replies') ∧
      (∀ node vchData, ∃ r, s''.submit node vchData = some r ∧ ∀ b, r.2 = .checkWork b →
        b.hashMerkleRoot = b.buildMerkleTree ∧
          ∃ b', .work b' ∈ replies ++ reply :: replies' ∧ b'.hashMerkleRoot = b.hashMerkleRoot) ∧
      ∀ pblock node nTime nNonce, reply = .work pblock → SameBest input.pindexBest after →
        (∀ b, .work b ∈ replies' → b.hashMerkleRoot ≠ pblock.hashMerkleRoot) →
        node.refusal = none →
        ∃ nBits, (NodeConfig.fTestNet = false → nBits = pblock.nBits) ∧
          ∃ r, s''.submit node (CBlockHeader.workData
              { pblock.toCBlockHeader with nTime := nTime, nNonce := nNonce }) =
            some (r, .checkWork
              { pblock with nTime := nTime, nBits := nBits, nNonce := nNonce }) := by
  obtain ⟨s, replies, hbefore, hinv, hmap⟩ := run_keeps inv_init before
  obtain ⟨s', reply, hcall, hcalled⟩ := getwork_called hinv input
  obtain ⟨s'', replies', hafter, hinv', hmap'⟩ := run_keeps hcalled.inv after
  refine ⟨s, replies, s', reply, s'', replies', hbefore, hcall, hafter, ?_, ?_⟩
  · intro node vchData
    obtain ⟨s3, r, hsubmit, hsubmitted⟩ := submit_submitted hinv' node vchData
    refine ⟨(s3, r), hsubmit, fun b hb => ?_⟩
    obtain ⟨hbuild, e, he⟩ := hsubmitted.checked b hb
    refine ⟨hbuild, ?_⟩
    -- the root was handed out before, in this call, or after it
    rcases hmap' _ e he with he' | ⟨b', hb', hroot⟩
    · rcases hcalled.handedOut _ e he' with he'' | ⟨b', rfl, hroot⟩
      · rcases hmap _ e he'' with hnone | ⟨b', hb', hroot⟩
        · cases hnone
        · exact ⟨b', List.mem_append_left _ hb', hroot⟩
      · exact ⟨b', List.mem_append_right _ List.mem_cons_self, hroot⟩
    · exact ⟨b', List.mem_append_right _ (List.mem_cons_of_mem _ hb'), hroot⟩
  · intro pblock node nTime nNonce hreply hbest hroots hnode
    obtain ⟨hsaved, hp⟩ := hcalled.saved pblock hreply
    have hlast := run_saved hcalled.inv hp hsaved hbest hafter hroots
    exact submit_saved hinv' hlast hnode nTime nNonce

end

end GetWork

end Terracoin
