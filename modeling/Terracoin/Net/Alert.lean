import Terracoin.Net.Message
import Terracoin.Lib.Run
import Std.Data.TreeMap.Lemmas

/-!
# Alerts

`CAlert::ProcessAlert` and `mapAlerts`. The highest alert number is reserved for a compromised
alert key: such a final alert cancels every alert below it and never expires, so while there is one
in `mapAlerts` no other kind of alert gets in (`Consistent`).

The loop that cancels alerts runs before the test whether the new alert is cancelled itself, so an
alert that cancels the highest number removes a final alert although that one would have cancelled
it. Exactly then a final alert is lost (`processAlert_spec`).
-/

namespace Terracoin

open Std (TreeMap)

/-- `std::numeric_limits<int>::max()`. -/
def maxInt : Int32 := 2147483647

/-- `CUnsignedAlert`, without the texts that no decision depends on. -/
structure CUnsignedAlert where
  nExpiration : Int
  nID : Int32
  nCancel : Int32
  setCancel : List Int32
  nMinVer : Int32
  nMaxVer : Int32
  setSubVer : List String
  nPriority : Int32
  strStatusBar : String
deriving DecidableEq, Repr

/-- An alert as it was signed, with what is read from `vchMsg`. -/
structure CAlert extends CUnsignedAlert where
  vchMsg : List UInt8
  vchSig : List UInt8
deriving DecidableEq, Repr

/-- The alert key, and the stream format of `CUnsignedAlert`. -/
class AlertFormat where
  /-- `key.Verify(Hash(vchMsg.begin(), vchMsg.end()), vchSig)` with the alert key. -/
  verify : List UInt8 → List UInt8 → Bool
  /-- Reading `vchMsg`; it throws if this fails. -/
  unserialize : List UInt8 → Option CUnsignedAlert

/-- What `GetAdjustedTime()` returns in the course of a call: at its beginning, and whenever an
entry of the map is asked. All of it is before the time that an `int` can hold. -/
structure AlertClock where
  start : Int
  /-- In `Cancels(alert)`. -/
  cancel : uint256 → Int
  /-- In `alert.IsInEffect()`. -/
  expire : uint256 → Int
  /-- In `alert.Cancels(*this)`. -/
  check : uint256 → Int
  start_lt : start < maxInt.toInt
  cancel_lt : ∀ hash, cancel hash < maxInt.toInt
  expire_lt : ∀ hash, expire hash < maxInt.toInt
  check_lt : ∀ hash, check hash < maxInt.toInt

abbrev MapAlerts := TreeMap uint256 CAlert

namespace CAlert

def getHash [ByteHashing] (alert : CAlert) : uint256 := ByteHashing.hash alert.vchMsg

def isInEffect (alert : CAlert) (nAdjustedTime : Int) : Bool := nAdjustedTime < alert.nExpiration

def cancels (self : CAlert) (nAdjustedTime : Int) (alert : CAlert) : Bool :=
  if !self.isInEffect nAdjustedTime then false
  else decide (alert.nID ≤ self.nCancel) || self.setCancel.contains alert.nID

/-- `CheckSignature`, with the alert as it is read from the message. -/
def checkSignature [AlertFormat] (vchMsg vchSig : List UInt8) : Option CAlert :=
  if AlertFormat.verify vchMsg vchSig then
    (AlertFormat.unserialize vchMsg).map fun alert => ⟨alert, vchMsg, vchSig⟩
  else none

/-- The form that an alert with the highest number must have. -/
def hasFinalForm (alert : CAlert) : Bool :=
  decide (alert.nExpiration = maxInt.toInt) && decide (alert.nCancel = maxInt - 1) &&
    decide (alert.nMinVer = 0) && decide (alert.nMaxVer = maxInt) && alert.setSubVer.isEmpty &&
    decide (alert.nPriority = maxInt) &&
    decide (alert.strStatusBar = "URGENT: Alert key compromised, upgrade required")

/-- The alert of a message that gets as far as `mapAlerts`. -/
def admitted [AlertFormat] (now : AlertClock) (vchMsg vchSig : List UInt8) : Option CAlert :=
  (checkSignature vchMsg vchSig).filter fun alert =>
    alert.isInEffect now.start && (decide (alert.nID ≠ maxInt) || alert.hasFinalForm)

/-- Cancel previous alerts: the loop of `ProcessAlert` over `mapAlerts`. -/
def cancelPrevious (now : AlertClock) (self : CAlert) (mapAlerts : MapAlerts) : MapAlerts :=
  mapAlerts.filter fun hash alert =>
    !self.cancels (now.cancel hash) alert && alert.isInEffect (now.expire hash)

/-- `ProcessAlert`: `mapAlerts` afterwards, and whether the alert was accepted. -/
def processAlert [ByteHashing] [AlertFormat] (now : AlertClock) (mapAlerts : MapAlerts)
    (vchMsg vchSig : List UInt8) : MapAlerts × Bool :=
  match admitted now vchMsg vchSig with
  | none => (mapAlerts, false)
  | some alert =>
    let mapAlerts := cancelPrevious now alert mapAlerts
    -- check if this alert has been cancelled
    if mapAlerts.toList.any fun item => item.2.cancels (now.check item.1) alert then
      (mapAlerts, false)
    else
      (mapAlerts.insertIfNew alert.getHash alert, true)

/-! ## Final alerts -/

def IsFinal (alert : CAlert) : Prop := alert.nID = maxInt

instance (alert : CAlert) : Decidable alert.IsFinal := inferInstanceAs (Decidable (_ = _))

variable {alert other : CAlert} {t : Int}

theorem le_maxInt (n : Int32) : n ≤ maxInt := Int32.le_iff_toInt_le.mpr (by
  have := n.toInt_le
  exact this)

theorem le_pred_maxInt {n : Int32} (h : n ≠ maxInt) : n ≤ maxInt - 1 := by
  rw [Int32.le_iff_toInt_le]
  have hle := Int32.le_iff_toInt_le.mp (le_maxInt n)
  have hne : n.toInt ≠ maxInt.toInt := fun h' => h (Int32.toInt_inj.mp h')
  have hmax : maxInt.toInt = 2147483647 := rfl
  have hpred : (maxInt - 1).toInt = 2147483646 := rfl
  omega

/-- What holds of every alert in `mapAlerts`: its fields are those of its message, and it has the
required form if its number is the highest. -/
structure Admissible [AlertFormat] (alert : CAlert) : Prop where
  unserialize : AlertFormat.unserialize alert.vchMsg = some alert.toCUnsignedAlert
  form : alert.IsFinal → alert.hasFinalForm = true

theorem cancels_congr (h : alert.nID = other.nID) (self : CAlert) :
    self.cancels t alert = self.cancels t other := by
  rw [cancels, cancels, h]

section

variable [AlertFormat]

theorem admitted_spec {now : AlertClock} {vchMsg vchSig : List UInt8}
    (h : admitted now vchMsg vchSig = some alert) : alert.Admissible ∧ alert.vchMsg = vchMsg := by
  obtain ⟨hread, htest⟩ := Option.filter_eq_some_iff.mp h
  rw [Bool.and_eq_true, Bool.or_eq_true, decide_eq_true_eq] at htest
  rw [checkSignature] at hread
  split at hread
  · obtain ⟨unsigned, hunsigned, rfl⟩ := Option.map_eq_some_iff.mp hread
    exact ⟨⟨hunsigned, fun hfinal => htest.2.resolve_left fun hne => hne hfinal⟩, rfl⟩
  · cases hread

namespace Admissible

theorem toCUnsignedAlert_eq (h : alert.Admissible) (h' : other.Admissible) (hmsg : alert.vchMsg = other.vchMsg) :
    alert.toCUnsignedAlert = other.toCUnsignedAlert := by
  have heq := h.unserialize
  rw [hmsg, h'.unserialize] at heq
  exact (Option.some.inj heq).symm

theorem isInEffect (h : alert.Admissible) (hfinal : alert.IsFinal) (ht : t < maxInt.toInt) :
    alert.isInEffect t = true := by
  have hform := h.form hfinal
  simp only [hasFinalForm, Bool.and_eq_true, decide_eq_true_eq] at hform
  rw [CAlert.isInEffect, decide_eq_true_eq, hform.1.1.1.1.1.1]
  exact ht

theorem cancels (h : alert.Admissible) (hfinal : alert.IsFinal) (ht : t < maxInt.toInt)
    (hother : ¬ other.IsFinal) : alert.cancels t other = true := by
  have hform := h.form hfinal
  simp only [hasFinalForm, Bool.and_eq_true, decide_eq_true_eq] at hform
  have hle : other.nID ≤ alert.nCancel := hform.1.1.1.1.1.2 ▸ le_pred_maxInt hother
  rw [CAlert.cancels, h.isInEffect hfinal ht, Bool.not_true, if_neg Bool.false_ne_true,
    decide_eq_true hle, Bool.true_or]

end Admissible

end

/-! ## The map after an alert -/

theorem getElem?_cancelPrevious {now : AlertClock} {self : CAlert} {m : MapAlerts}
    {hash : uint256} : (cancelPrevious now self m)[hash]? = some alert ↔
      m[hash]? = some alert ∧ self.cancels (now.cancel hash) alert = false ∧
        alert.isInEffect (now.expire hash) = true := by
  rw [cancelPrevious, TreeMap.getElem?_filter', Option.filter_eq_some_iff, Bool.and_eq_true,
    Bool.not_eq_true']

theorem getElem?_insertIfNew {m : MapAlerts} {self : CAlert} {hash key : uint256}
    (h : (m.insertIfNew key self)[hash]? = some alert) :
    m[hash]? = some alert ∨ (hash = key ∧ alert = self) := by
  rw [TreeMap.getElem?_insertIfNew] at h
  split at h
  · next hnew =>
    exact .inr ⟨(Std.LawfulEqCmp.eq_of_compare hnew.1).symm, (Option.some.inj h).symm⟩
  · exact .inl h

section

variable [ByteHashing] [AlertFormat]

/-- All that a call can do. -/
inductive Outcome (now : AlertClock) (m : MapAlerts) (vchMsg vchSig : List UInt8) :
    MapAlerts → Prop
  | ignored : admitted now vchMsg vchSig = none → Outcome now m vchMsg vchSig m
  | cancelled (self : CAlert) (hash : uint256) (alert : CAlert) :
    admitted now vchMsg vchSig = some self →
    (cancelPrevious now self m)[hash]? = some alert → alert.cancels (now.check hash) self = true →
    Outcome now m vchMsg vchSig (cancelPrevious now self m)
  | accepted (self : CAlert) : admitted now vchMsg vchSig = some self →
    (∀ (hash : uint256) (alert : CAlert), (cancelPrevious now self m)[hash]? = some alert →
      alert.cancels (now.check hash) self = false) →
    Outcome now m vchMsg vchSig ((cancelPrevious now self m).insertIfNew self.getHash self)

theorem processAlert_outcome (now : AlertClock) (m : MapAlerts) (vchMsg vchSig : List UInt8) :
    Outcome now m vchMsg vchSig (processAlert now m vchMsg vchSig).1 := by
  rw [processAlert]
  cases h : admitted now vchMsg vchSig with
  | none => exact .ignored h
  | some self =>
    dsimp only
    split
    case isTrue hany =>
      obtain ⟨⟨hash, alert⟩, hmem, hcancels⟩ := List.any_eq_true.mp hany
      exact .cancelled self hash alert h (TreeMap.mem_toList_iff_getElem?_eq_some.mp hmem) hcancels
    case isFalse hany =>
      refine .accepted self h fun hash alert halert => ?_
      have hmem := TreeMap.mem_toList_iff_getElem?_eq_some.mpr halert
      by_contra hcancels
      exact hany (List.any_eq_true.mpr ⟨_, hmem, Bool.not_eq_false _ ▸ hcancels⟩)

/-- While a final alert is in the map, there is no other kind. -/
structure Consistent (m : MapAlerts) : Prop where
  admissible : ∀ (hash : uint256) (alert : CAlert), m[hash]? = some alert → alert.Admissible
  onlyFinal : ∀ (hash : uint256) (alert : CAlert) (hash' : uint256)
    (other : CAlert), m[hash]? = some alert →
    alert.IsFinal → m[hash']? = some other → other.IsFinal

omit [ByteHashing] in
theorem consistent_empty : Consistent ∅ :=
  ⟨fun hash alert h => by simp at h, fun hash alert hash' other h => by simp at h⟩

abbrev AlertMessage := AlertClock × List UInt8 × List UInt8

def step (m : MapAlerts) (msg : AlertMessage) : Option MapAlerts :=
  some (processAlert msg.1 m msg.2.1 msg.2.2).1

omit [ByteHashing] in
theorem Consistent.cancelPrevious {m : MapAlerts} (hm : Consistent m) (now : AlertClock)
    (self : CAlert) : Consistent (cancelPrevious now self m) where
  admissible hash alert h := hm.admissible hash alert (getElem?_cancelPrevious.mp h).1
  onlyFinal hash alert hash' other h hfinal h' :=
    hm.onlyFinal hash alert hash' other (getElem?_cancelPrevious.mp h).1 hfinal
      (getElem?_cancelPrevious.mp h').1

theorem Consistent.outcome {now : AlertClock} {m m' : MapAlerts} {vchMsg vchSig : List UInt8}
    (hm : Consistent m) (h : Outcome now m vchMsg vchSig m') : Consistent m' := by
  cases h with
  | ignored => exact hm
  | cancelled self => exact hm.cancelPrevious now self
  | accepted self hself hnone =>
    have hm1 := hm.cancelPrevious now self
    obtain ⟨hadm, -⟩ := admitted_spec hself
    -- what a final alert leaves in the map is final
    have hleft : self.IsFinal → ∀ (hash : uint256) (alert : CAlert),
        (CAlert.cancelPrevious now self m)[hash]? = some alert → alert.IsFinal := by
      intro hfinal hash alert halert
      by_contra hother
      have hkept := (getElem?_cancelPrevious.mp halert).2.1
      rw [hadm.cancels hfinal (now.cancel_lt hash) hother] at hkept
      cases hkept
    -- a final alert in the map lets in only final ones
    have hnew : ∀ (hash : uint256) (alert : CAlert), (CAlert.cancelPrevious now self m)[hash]? = some alert →
        alert.IsFinal → self.IsFinal := by
      intro hash alert halert hfinal
      by_contra hother
      have hcancels := hnone hash alert halert
      rw [(hm1.admissible hash alert halert).cancels hfinal (now.check_lt hash) hother] at hcancels
      cases hcancels
    constructor
    · intro hash alert halert
      rcases getElem?_insertIfNew halert with hold | ⟨-, rfl⟩
      · exact hm1.admissible hash alert hold
      · exact hadm
    · intro hash alert hash' other halert hfinal hother
      rcases getElem?_insertIfNew halert with hold | ⟨-, rfl⟩ <;>
        rcases getElem?_insertIfNew hother with hold' | ⟨-, rfl⟩
      · exact hm1.onlyFinal hash alert hash' other hold hfinal hold'
      · exact hnew hash alert hold hfinal
      · exact hleft hfinal hash' other hold'
      · exact hfinal

theorem Consistent.step (m : MapAlerts) (msg : AlertMessage) (m' : MapAlerts) (hm : Consistent m)
    (h : step m msg = some m') : Consistent m' := by
  obtain rfl := Option.some.inj h
  exact hm.outcome (processAlert_outcome _ _ _ _)

/-! ## A final alert stays -/

/-- The final alert is in the map, and no alert with a lower number is. -/
structure Kept (final : CAlert) (m : MapAlerts) : Prop where
  held : ∃ alert, m[final.getHash]? = some alert ∧ alert.vchMsg = final.vchMsg
  onlyFinal : ∀ (hash : uint256) (alert : CAlert), m[hash]? = some alert → alert.IsFinal

/-- The alert of the message does not cancel the final alert, unless it is the same one. -/
def Spares (final : CAlert) (_ : MapAlerts) (msg : AlertMessage) : Prop :=
  ∀ alert, admitted msg.1 msg.2.1 msg.2.2 = some alert →
    alert.cancels (msg.1.cancel final.getHash) final = false ∨ alert.vchMsg = final.vchMsg

variable {final : CAlert}

omit [AlertFormat] in
theorem Kept.mono {m m' : MapAlerts} (h : Kept final m)
    (hheld : ∃ alert, m'[final.getHash]? = some alert ∧ alert.vchMsg = final.vchMsg)
    (hsub : ∀ (hash : uint256) (alert : CAlert), m'[hash]? = some alert → m[hash]? = some alert) : Kept final m' :=
  ⟨hheld, fun hash alert halert => h.onlyFinal hash alert (hsub hash alert halert)⟩

/-- What is in the place of the final alert once the loop has cancelled alerts. -/
theorem Kept.held_cancelPrevious {m : MapAlerts} (hfinal : final.Admissible) (hm : Consistent m)
    (h : Kept final m) (now : AlertClock) (self : CAlert) :
    (∃ alert, (cancelPrevious now self m)[final.getHash]? = some alert ∧
      alert.vchMsg = final.vchMsg) ↔ self.cancels (now.cancel final.getHash) final = false := by
  obtain ⟨held, hheld, hmsg⟩ := h.held
  have hadm := hm.admissible _ _ hheld
  have hid : held.nID = final.nID := congrArg CUnsignedAlert.nID (hadm.toCUnsignedAlert_eq hfinal hmsg)
  have heffect := hadm.isInEffect (h.onlyFinal _ _ hheld) (now.expire_lt final.getHash)
  constructor
  · rintro ⟨alert, halert, -⟩
    obtain ⟨halert, hcancels, -⟩ := getElem?_cancelPrevious.mp halert
    obtain rfl := Option.some.inj (hheld.symm.trans halert)
    rwa [cancels_congr hid] at hcancels
  · intro hcancels
    rw [← cancels_congr hid] at hcancels
    exact ⟨held, getElem?_cancelPrevious.mpr ⟨hheld, hcancels, heffect⟩, hmsg⟩

theorem Kept.cancelPrevious_of_cancels {m : MapAlerts} (hfinal : final.IsFinal) (h : Kept final m)
    {now : AlertClock} {self : CAlert} (hself : self.Admissible) (hself' : self.IsFinal)
    (hcancels : self.cancels (now.cancel final.getHash) final = true) (hash : uint256)
    (alert : CAlert) : (cancelPrevious now self m)[hash]? ≠ some alert := by
  intro halert
  obtain ⟨hheld, hnot, -⟩ := getElem?_cancelPrevious.mp halert
  have hid : alert.nID = final.nID := (h.onlyFinal hash alert hheld).trans hfinal.symm
  rw [cancels_congr hid] at hnot
  simp only [CAlert.cancels, hself.isInEffect hself' (now.cancel_lt _), Bool.not_true,
    Bool.false_eq_true, if_false] at hnot hcancels
  rw [hnot] at hcancels
  cases hcancels

theorem Kept.outcome_iff {now : AlertClock} {m m' : MapAlerts} {vchMsg vchSig : List UInt8}
    (hadm : final.Admissible) (hfinal : final.IsFinal) (hm : Consistent m) (h : Kept final m)
    (hout : Outcome now m vchMsg vchSig m') :
    Kept final m' ↔ Spares final m (now, vchMsg, vchSig) := by
  have hsub : ∀ self (hash : uint256) (alert : CAlert), (CAlert.cancelPrevious now self m)[hash]? = some alert →
      m[hash]? = some alert := fun self hash alert halert => (getElem?_cancelPrevious.mp halert).1
  have hspares : ∀ self, admitted now vchMsg vchSig = some self →
      (Spares final m (now, vchMsg, vchSig) ↔
        self.cancels (now.cancel final.getHash) final = false ∨ self.vchMsg = final.vchMsg) := by
    intro self hself
    constructor
    · exact fun hall => hall self hself
    · intro hself' alert halert
      obtain rfl := Option.some.inj (hself.symm.trans halert)
      exact hself'
  have hown : ∀ self : CAlert, self.Admissible → self.vchMsg = final.vchMsg → self.IsFinal :=
    fun self hself hmsg => (congrArg CUnsignedAlert.nID (hself.toCUnsignedAlert_eq hadm hmsg)).trans hfinal
  cases hout with
  | ignored hnone =>
    refine ⟨fun _ alert halert => ?_, fun _ => h⟩
    rw [hnone] at halert
    cases halert
  | cancelled self hash alert hself halert hcancels =>
    rw [hspares self hself]
    constructor
    · exact fun hkept => .inl ((h.held_cancelPrevious hadm hm now self).mp hkept.held)
    · intro hself'
      have hnot : self.cancels (now.cancel final.getHash) final = false := by
        rcases hself' with hnot | hmsg
        · exact hnot
        · by_contra hc
          obtain ⟨hadm', -⟩ := admitted_spec hself
          exact h.cancelPrevious_of_cancels hfinal hadm' (hown self hadm' hmsg)
            (Bool.not_eq_false _ ▸ hc) hash alert halert
      exact h.mono ((h.held_cancelPrevious hadm hm now self).mpr hnot) (hsub self)
  | accepted self hself hnone =>
    rw [hspares self hself]
    obtain ⟨hadm', -⟩ := admitted_spec hself
    constructor
    · intro hkept
      obtain ⟨alert, halert, hmsg⟩ := hkept.held
      rcases getElem?_insertIfNew halert with hold | ⟨-, rfl⟩
      · exact .inl ((h.held_cancelPrevious hadm hm now self).mp ⟨alert, hold, hmsg⟩)
      · exact .inr hmsg
    · intro hself'
      by_cases hnot : self.cancels (now.cancel final.getHash) final = false
      · -- the final alert is still there, and has not cancelled the new one
        obtain ⟨held, hheld, hmsg⟩ := (h.held_cancelPrevious hadm hm now self).mpr hnot
        have hnew : self.IsFinal := by
          by_contra hother
          have hcancels := hnone _ held hheld
          rw [(hm.admissible _ _ (hsub self _ _ hheld)).cancels
            (h.onlyFinal _ _ (hsub self _ _ hheld)) (now.check_lt _) hother] at hcancels
          cases hcancels
        refine ⟨⟨held, ?_, hmsg⟩, fun hash alert halert => ?_⟩
        · have hmem := TreeMap.mem_iff_isSome_getElem?.mpr (Option.isSome_of_eq_some hheld)
          rw [TreeMap.getElem?_insertIfNew, if_neg ?_, hheld]
          rintro ⟨heq, habsent⟩
          exact habsent (Std.LawfulEqCmp.eq_of_compare heq ▸ hmem)
        · rcases getElem?_insertIfNew halert with hold | ⟨-, rfl⟩
          · exact h.onlyFinal hash alert (hsub self hash alert hold)
          · exact hnew
      · -- the same alert again: it has removed every alert of the map, and is added anew
        have hmsg := hself'.resolve_left hnot
        have hnew := hown self hadm' hmsg
        have hempty := h.cancelPrevious_of_cancels hfinal hadm' hnew (Bool.not_eq_false _ ▸ hnot)
        refine ⟨⟨self, ?_, hmsg⟩, fun hash alert halert => ?_⟩
        · have hhash : self.getHash = final.getHash := congrArg ByteHashing.hash hmsg
          rw [TreeMap.getElem?_insertIfNew, if_pos]
          refine ⟨hhash ▸ Std.ReflCmp.compare_self, fun hmem => ?_⟩
          obtain ⟨alert, halert⟩ :=
            Option.isSome_iff_exists.mp (TreeMap.mem_iff_isSome_getElem?.mp hmem)
          exact hempty _ alert halert
        · rcases getElem?_insertIfNew halert with hold | ⟨-, rfl⟩
          · exact absurd hold (hempty hash alert)
          · exact hnew

/-- From any alerts on, a final alert in the map stays there, with no alert of a lower number,
exactly as long as no alert that cancels it is processed. -/
theorem processAlert_spec (before : List AlertMessage) (m : MapAlerts)
    (hbefore : Run.run step ∅ before = some m) (final : CAlert)
    (hheld : m[final.getHash]? = some final) (hfinal : final.IsFinal)
    (msgs : List AlertMessage) :
    Run.Throughout (Kept final) step m msgs ↔ Run.Meets (Spares final) step m msgs := by
  have hm : Consistent m := Run.run_invariant (fun m msg _ m' => Consistent.step m msg m')
    consistent_empty hbefore
  have hadm := hm.admissible _ _ hheld
  have hrun : ∃ m', Run.run step m msgs = some m' := by
    clear hbefore hheld hm
    induction msgs generalizing m with
    | nil => exact ⟨m, rfl⟩
    | cons msg msgs ih => exact ih _
  obtain ⟨m', hrun⟩ := hrun
  refine Run.throughout_iff_meets Consistent.step (fun m1 msg m2 hm1 hkept h => ?_) hm
    ⟨⟨final, hheld, rfl⟩, fun hash alert => hm.onlyFinal _ final hash alert hheld hfinal⟩ hrun
  obtain rfl := Option.some.inj h
  exact hkept.outcome_iff hadm hfinal hm1 (processAlert_outcome _ _ _ _)

end

namespace AlertSample

def finalAlert : CUnsignedAlert :=
  ⟨maxInt.toInt, maxInt, maxInt - 1, [], 0, maxInt, [], maxInt,
    "URGENT: Alert key compromised, upgrade required"⟩

/-- An alert with a low number that cancels all numbers. -/
def noPanic : CUnsignedAlert := ⟨2000000000, 5, maxInt, [], 0, maxInt, [], 0, ""⟩

scoped instance hashing : ByteHashing := ⟨fun bytes => (bytes.headD 0).toNat⟩

/-- One byte stands for each of the two alerts. -/
scoped instance format : AlertFormat where
  verify _ _ := true
  unserialize vchMsg :=
    if vchMsg = [1] then some finalAlert else if vchMsg = [2] then some noPanic else none

def clock : AlertClock :=
  ⟨1700000000, fun _ => 1700000000, fun _ => 1700000000, fun _ => 1700000000, by decide,
    fun _ => by decide, fun _ => by decide, fun _ => by decide⟩

def compromised : CAlert := ⟨finalAlert, [1], []⟩

/-- The map once the final alert is accepted. -/
def held : MapAlerts := (processAlert clock ∅ [1] []).1

theorem processAlert_spec_sample :
    Run.Throughout (Kept compromised) step held [(clock, [2], [])] ↔
      Run.Meets (Spares compromised) step held [(clock, [2], [])] :=
  processAlert_spec [(clock, [1], [])] held rfl compromised (by decide +kernel) rfl _

/-- An alert that cancels the highest number replaces a final alert. -/
theorem not_processAlert_spec : held[compromised.getHash]? = some compromised ∧
    (processAlert clock held [2] []).1[compromised.getHash]? = none ∧
    (processAlert clock held [2] []).1.toList.map (fun item => item.2.nID) = [5] := by
  decide +kernel

end AlertSample

end CAlert

end Terracoin
