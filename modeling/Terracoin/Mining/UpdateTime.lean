import Terracoin.Chain.Retarget
import Mathlib.Tactic.NormNum

/-!
# The header of a block template

`CreateNewBlock` fills in the time and the work of a template, and `UpdateTime` moves the time
forward while the template is being solved. On testnet it computes the work again. On mainnet it
does not, although the work of a block there depends on its time as well: a template that is made
within 20 minutes of the tip and updated later keeps the work of a block in time
(`updateTime_spec`).
-/

namespace Terracoin

/-- The time of a block after `pindexPrev` at the adjusted time `nAdjustedTime`, in the 32 bits of
`nTime`. -/
def CBlockIndex.nextTime (pindexPrev : CBlockIndex) (nAdjustedTime : Int) : UInt32 :=
  UInt32.ofNat (max (pindexPrev.getMedianTimePast + 1) nAdjustedTime).toNat

section

variable [NodeConfig] [FloatArithmetic]

def CBlockHeader.updateTime (pindexPrev : CBlockIndex) (pblock : CBlockHeader)
    (nAdjustedTime : Int) : Option CBlockHeader :=
  let pblock := { pblock with nTime := pindexPrev.nextTime nAdjustedTime }
  if NodeConfig.fTestNet then do
    let nBits ← getNextWorkRequired pindexPrev pblock
    pure { pblock with nBits := nBits }
  else some pblock

def CBlockHeader.fillIn [Hashing] (pindexPrev : CBlockIndex) (pblock : CBlockHeader)
    (nAdjustedTime : Int) : Option CBlockHeader := do
  let pblock := { pblock with hashPrevBlock := pindexPrev.getBlockHash }
  let pblock ← pblock.updateTime pindexPrev nAdjustedTime
  let nBits ← getNextWorkRequired pindexPrev pblock
  pure { pblock with nBits := nBits, nNonce := 0 }

/-- `CreateNewBlock` at the time `nAdjustedTime`, then `UpdateTime` at the later times. -/
def CBlockHeader.template [Hashing] (pindexPrev : CBlockIndex) (pblock : CBlockHeader)
    (nAdjustedTime : Int) (later : List Int) : Option CBlockHeader := do
  let pblock ← pblock.fillIn pindexPrev nAdjustedTime
  later.foldlM (CBlockHeader.updateTime pindexPrev) pblock

/-- When two blocks after `p` need the same work on mainnet. -/
theorem getNextWorkRequired_eq_iff {p : CBlockIndex} {b b' : CBlockHeader}
    (hmain : NodeConfig.fTestNet = false) :
    getNextWorkRequired p b = getNextWorkRequired p b' ↔
      p.nHeight ≤ 101631 ∨ (LongAfter p b.nTime ↔ LongAfter p b'.nTime) ∨
        emaWork p = some (loweredWork p) := by
  by_cases hema : EmaActive p
  · have hheight : ¬ p.nHeight ≤ 101631 := by
      rcases hema with ⟨ht, -⟩ | h
      · rw [hmain] at ht
        cases ht
      · omega
    rw [getNextWorkRequired_of_emaActive hema hmain, getNextWorkRequired_of_emaActive hema hmain]
    by_cases h1 : LongAfter p b.nTime <;> by_cases h2 : LongAfter p b'.nTime
    · simp [h1, h2]
    · simp [h1, h2, hheight, eq_comm]
    · simp [h1, h2, hheight]
    · simp [h1, h2]
  · have hheight : p.nHeight ≤ 101631 := by
      by_contra h
      exact hema (.inr (by omega))
    simp [getNextWorkRequired_of_not_emaActive b b' hema, hheight]

/-! ## The state of a template -/

/-- The template after its last update at the time `nLast`: the work is that of a block at the
time `nWork`. -/
structure CBlockHeader.TemplateAt (pindexPrev : CBlockIndex) (nWork nLast : Int)
    (b : CBlockHeader) : Prop where
  nTime : b.nTime = pindexPrev.nextTime nLast
  nBits : getNextWorkRequired pindexPrev { b with nTime := pindexPrev.nextTime nWork } =
    some b.nBits

namespace CBlockHeader

variable {p : CBlockIndex} {b : CBlockHeader} {nWork nLast t : Int}

theorem updateTime_of_testnet (h : NodeConfig.fTestNet = true) :
    ∃ b', b.updateTime p t = some b' ∧ TemplateAt p t t b' := by
  obtain ⟨nBits, hn⟩ := getNextWorkRequired_isSome p { b with nTime := p.nextTime t }
  refine ⟨{ b with nTime := p.nextTime t, nBits := nBits }, ?_, rfl, ?_⟩
  · unfold updateTime
    rw [if_pos h]
    show (getNextWorkRequired p _ >>= _) = _
    rw [hn]
    rfl
  · exact (getNextWorkRequired_congr rfl).trans hn

theorem updateTime_of_mainnet (h : NodeConfig.fTestNet = false) (hb : TemplateAt p nWork nLast b) :
    ∃ b', b.updateTime p t = some b' ∧ TemplateAt p nWork t b' := by
  refine ⟨{ b with nTime := p.nextTime t }, ?_, rfl, ?_⟩
  · unfold updateTime
    rw [if_neg (by simp [h])]
  · exact (getNextWorkRequired_congr rfl).trans hb.nBits

theorem fillIn_templateAt [Hashing] :
    ∃ b', b.fillIn p t = some b' ∧ TemplateAt p t t b' := by
  obtain ⟨b1, h1, htime⟩ : ∃ b1, updateTime p { b with hashPrevBlock := p.getBlockHash } t = some b1 ∧
      b1.nTime = p.nextTime t := by
    by_cases h : NodeConfig.fTestNet = true
    · obtain ⟨b1, h1, hb1⟩ := updateTime_of_testnet (b := { b with hashPrevBlock := p.getBlockHash })
        (p := p) (t := t) h
      exact ⟨b1, h1, hb1.nTime⟩
    · refine ⟨{ b with hashPrevBlock := p.getBlockHash, nTime := p.nextTime t }, ?_, rfl⟩
      unfold updateTime
      rw [if_neg h]
  obtain ⟨nBits, hn⟩ := getNextWorkRequired_isSome p b1
  refine ⟨{ b1 with nBits := nBits, nNonce := 0 }, ?_, htime, ?_⟩
  · unfold fillIn
    dsimp only
    rw [h1]
    show (getNextWorkRequired p b1 >>= _) = _
    rw [hn]
    rfl
  · exact (getNextWorkRequired_congr htime.symm).trans hn

/-- On testnet the work is always that of the last update, on mainnet that of the first time. -/
theorem foldlM_updateTime (hb : TemplateAt p nWork nLast b)
    (hwork : NodeConfig.fTestNet = true → nWork = nLast) (later : List Int) :
    ∃ b', later.foldlM (updateTime p) b = some b' ∧
      TemplateAt p (if NodeConfig.fTestNet then later.getLastD nLast else nWork)
        (later.getLastD nLast) b' := by
  induction later generalizing b nWork nLast with
  | nil =>
    refine ⟨b, rfl, ?_⟩
    show TemplateAt p (if NodeConfig.fTestNet then nLast else nWork) nLast b
    split
    · rename_i h
      exact hwork h ▸ hb
    · exact hb
  | cons t later ih =>
    rw [List.foldlM_cons, List.getLastD_cons]
    by_cases h : NodeConfig.fTestNet = true
    · obtain ⟨b1, h1, hb1⟩ := updateTime_of_testnet (b := b) (p := p) (t := t) h
      obtain ⟨b2, h2, hb2⟩ := ih hb1 (fun _ => rfl)
      refine ⟨b2, by rw [h1]; exact h2, ?_⟩
      rw [if_pos h] at hb2 ⊢
      exact hb2
    · obtain ⟨b1, h1, hb1⟩ := updateTime_of_mainnet (t := t) (Bool.eq_false_iff.mpr h) hb
      obtain ⟨b2, h2, hb2⟩ := ih hb1 (fun h' => absurd h' h)
      exact ⟨b2, by rw [h1]; exact h2, hb2⟩

theorem template_templateAt [Hashing] (nAdjustedTime : Int) (later : List Int) :
    ∃ b', template p b nAdjustedTime later = some b' ∧
      TemplateAt p
        (if NodeConfig.fTestNet then later.getLastD nAdjustedTime else nAdjustedTime)
        (later.getLastD nAdjustedTime) b' := by
  obtain ⟨b1, h1, hb1⟩ := fillIn_templateAt (b := b) (p := p) (t := nAdjustedTime)
  obtain ⟨b2, h2, hb2⟩ := foldlM_updateTime hb1 (fun _ => rfl) later
  exact ⟨b2, by rw [template, h1]; exact h2, hb2⟩

theorem TemplateAt.acceptable_iff (h : TemplateAt p nWork nLast b) :
    b.Acceptable p ↔ p.getMedianTimePast < (p.nextTime nLast).toNat ∧
      getNextWorkRequired p b = getNextWorkRequired p { b with nTime := p.nextTime nWork } := by
  unfold Acceptable getBlockTime
  rw [h.nBits, h.nTime]
  exact and_comm

end CBlockHeader

/-- After `CreateNewBlock` and any updates, `AcceptBlock` takes the work and the time of the
template exactly if the time in 32 bits still follows the median time, and the work of the first
time is that of the last one: on testnet, before the moving average, while both times or neither
are more than 20 minutes after the tip, and where that makes no difference. -/
theorem updateTime_spec [Hashing] (pindexPrev : CBlockIndex) (pblock : CBlockHeader)
    (nAdjustedTime : Int) (later : List Int) :
    (∃ b, pblock.template pindexPrev nAdjustedTime later = some b ∧ b.Acceptable pindexPrev) ↔
      pindexPrev.getMedianTimePast <
        (pindexPrev.nextTime (later.getLastD nAdjustedTime)).toNat ∧
      (NodeConfig.fTestNet = true ∨ pindexPrev.nHeight ≤ 101631 ∨
        (LongAfter pindexPrev (pindexPrev.nextTime nAdjustedTime) ↔
          LongAfter pindexPrev (pindexPrev.nextTime (later.getLastD nAdjustedTime))) ∨
        emaWork pindexPrev = some (loweredWork pindexPrev)) := by
  obtain ⟨b, hb, hat⟩ := CBlockHeader.template_templateAt (p := pindexPrev) (b := pblock)
    nAdjustedTime later
  have hexists : (∃ b, pblock.template pindexPrev nAdjustedTime later = some b ∧
      b.Acceptable pindexPrev) ↔ b.Acceptable pindexPrev := by
    constructor
    · rintro ⟨b', hb', h⟩
      obtain rfl := Option.some.inj (hb.symm.trans hb')
      exact h
    · exact fun h => ⟨b, hb, h⟩
  rw [hexists, hat.acceptable_iff]
  refine and_congr_right fun _ => ?_
  by_cases htest : NodeConfig.fTestNet = true
  · rw [if_pos htest]
    exact iff_of_true (getNextWorkRequired_congr hat.nTime) (.inl htest)
  · rw [if_neg htest, getNextWorkRequired_eq_iff (Bool.eq_false_iff.mpr htest), hat.nTime]
    simp [htest, iff_comm]

end

/-! ## A template that outlives the 20 minutes -/

namespace MainnetSample

/-- A chain with a block every two minutes. -/
def steady : CBlockIndex := spaced 120 (fun _ => 0x1b0404cb) 120000

theorem steady_emaWork : emaWork steady = some 0x1b0404cb := by
  have hspan : emaTimespan 120000 (List.replicate 2160 ((120 : Nat) : Int)) = 120 := by
    have haverage := average_replicate 0.06 2160 ((120 : Nat) : Int)
    refine emaTimespan_eq (if_pos (by decide)).symm (by decide) (by decide) ?_ ?_
    · rw [haverage]
      norm_num
    · rw [haverage]
      norm_num
  unfold emaWork steady
  rw [spaced_nHeight, spaced_blockDurations (by decide) (by decide) (by decide) (by decide)]
  show some (getCompact (limitWork 120000 _)) = _
  rw [hspan, spaced_nBits]
  decide

theorem steady_loweredWork : loweredWork steady = 0x1b080996 := by
  unfold loweredWork steady
  dsimp only
  rw [spaced_nHeight, spaced_nBits]
  decide

theorem steady_nextTime {t : Nat} (ht : 14400000 < t) :
    steady.nextTime (1370000000 + t) = (header t 0).nTime := by
  have hmedian : steady.getMedianTimePast ≤ 1370000000 + 120 * 120000 :=
    spaced_getMedianTimePast (by decide)
  unfold steady at hmedian
  unfold CBlockIndex.nextTime steady
  rw [max_eq_right (by omega)]
  rfl

theorem steady_longAfter {t : Nat} (ht : t ≤ 10 ^ 8) :
    LongAfter steady (header t 0).nTime ↔ 14401200 < t := by
  unfold LongAfter steady
  rw [spaced_getBlockTime (by decide), header_nTime ht]
  unfold perBlockTargetTimespan
  omega

/-- A template made ten minutes after the tip and updated ten minutes and a second later keeps the
work of a block in time, and `AcceptBlock` asks for the lowered one. -/
theorem not_updateTime_spec : ¬ ∀ (pindexPrev : CBlockIndex) (pblock : CBlockHeader)
    (nAdjustedTime : Int) (later : List Int), (nAdjustedTime :: later).Pairwise (· ≤ ·) →
    ∃ b, pblock.template pindexPrev nAdjustedTime later = some b ∧ b.Acceptable pindexPrev := by
  intro h
  have htip : ¬ steady.nHeight ≤ 101631 := by
    rw [steady, spaced_nHeight]
    decide
  obtain ⟨b, hb, hacc⟩ := h steady (header 0 0) (1370000000 + (14400600 : Nat))
    [1370000000 + (14401201 : Nat)] (by decide)
  obtain ⟨b', hb', hat⟩ := CBlockHeader.template_templateAt (p := steady) (b := header 0 0)
    (1370000000 + (14400600 : Nat)) [1370000000 + (14401201 : Nat)]
  obtain rfl := Option.some.inj (hb.symm.trans hb')
  rw [hat.acceptable_iff, getNextWorkRequired_eq_iff rfl, hat.nTime] at hacc
  change _ ∧ (_ ∨ (LongAfter _ (steady.nextTime (1370000000 + (14401201 : Nat))) ↔
    LongAfter _ (steady.nextTime (1370000000 + (14400600 : Nat)))) ∨ _) at hacc
  rw [steady_nextTime (by decide), steady_nextTime (by decide), steady_longAfter (by decide),
    steady_longAfter (by decide), steady_emaWork, steady_loweredWork] at hacc
  rcases hacc.2 with h | h | h
  · exact htip h
  · revert h
    decide
  · revert h
    decide

end MainnetSample

end Terracoin
