import Terracoin.Serialize.MapValue

/-!
# Accounting entries as bytes

A `CAccountingEntry` has no field of its own for its map and its order position in the bytes it is
written as: they go behind a zero byte at the end of the comment, and every walk takes them off
again. A comment that holds a zero byte itself is cut off there, by writing as well as by reading.
An entry survives exactly if its comment holds none and neither string is longer than `MAX_SIZE`
(`survives_iff`).
-/

namespace Terracoin

open Codec

def SER_GETHASH : Int32 := 4

structure CAccountingEntry where
  strAccount : Text
  nCreditDebit : Int64
  nTime : Int64
  strOtherAccount : Text
  strComment : Text
  mapValue : mapValue_t
  nOrderPos : Int64
  nEntryNo : UInt64
  ssExtra : Text

namespace CAccountingEntry

/-! ## The walks -/

def trailer (e : CAccountingEntry) : Text :=
  let mapValue := writeOrderPos e.nOrderPos e.mapValue
  if mapValue.isEmpty && e.ssExtra.isEmpty then [] else 0 :: (mapValue_t.write mapValue ++ e.ssExtra)

def beforeWrite (e : CAccountingEntry) : CAccountingEntry :=
  { e with
    mapValue := writeOrderPos e.nOrderPos e.mapValue
    strComment := e.strComment ++ e.trailer }

def afterWalk (e : CAccountingEntry) : CAccountingEntry :=
  { e with
    strComment := e.strComment.takeWhile (· ≠ 0)
    mapValue := e.mapValue.erase orderPosKey }

def writeVersion (nType nVersion : Int32) : List UInt8 :=
  if nType &&& SER_GETHASH = 0 then writeUnsigned nVersion.toUInt32 else []

def readVersion (nType : Int32) : Reader Unit :=
  if nType &&& SER_GETHASH = 0 then (fun _ => ()) <$> readUnsignedInt else pure ()

/-- The bytes written and the entry that is left. -/
def serialize (nType nVersion : Int32) (e : CAccountingEntry) : List UInt8 × CAccountingEntry :=
  let me := e.beforeWrite
  (writeVersion nType nVersion ++ (writeInt64 me.nCreditDebit ++ (writeInt64 me.nTime ++
    (Text.write me.strOtherAccount ++ Text.write me.strComment))), me.afterWalk)

/-- The number of bytes and the entry that is left. -/
def getSerializeSize (nType : Int32) (e : CAccountingEntry) : UInt32 × CAccountingEntry :=
  let me := e.beforeWrite
  ((if nType &&& SER_GETHASH = 0 then 4 else 0) + 8 + 8 +
    UInt32.ofNat (Text.getSerializeSize me.strOtherAccount) +
    UInt32.ofNat (Text.getSerializeSize me.strComment), me.afterWalk)

/-- The map and what comes after it, from behind the first zero byte of the comment. -/
def readTrailer (strComment ssExtra : Text) : Option (mapValue_t × Text) :=
  match strComment.dropWhile (· ≠ 0) with
  | [] => some (∅, ssExtra)
  | _ :: ss => mapValue_t.read ss

/-- The object `me` is read into. -/
def unserialize (nType : Int32) (me : CAccountingEntry) : Reader CAccountingEntry := do
  readVersion nType
  let nCreditDebit ← readInt64
  let nTime ← readInt64
  let strOtherAccount ← Text.read
  let strComment ← Text.read
  let (mapValue, ssExtra) ← StateT.lift (readTrailer strComment me.ssExtra)
  pure (afterWalk { me with
    nCreditDebit, nTime, strOtherAccount, strComment, mapValue
    nOrderPos := readOrderPos mapValue
    ssExtra })

/-! ## Writing -/

theorem takeWhile_ne_zero {s : Text} : s.takeWhile (· ≠ 0) = s ↔ 0 ∉ s := by
  rw [List.takeWhile_eq_self_iff]
  constructor
  · intro h hmem
    exact absurd (h 0 hmem) (by decide)
  · intro h c hc
    exact decide_eq_true fun heq => h (heq ▸ hc)

theorem takeWhile_append_zero (s s' : Text) :
    (s ++ 0 :: s').takeWhile (· ≠ 0) = s.takeWhile (· ≠ 0) := by
  induction s with
  | nil => rfl
  | cons c s ih => rw [List.cons_append, List.takeWhile_cons, List.takeWhile_cons, ih]

theorem dropWhile_append_zero {s : Text} (h : 0 ∉ s) (s' : Text) :
    (s ++ 0 :: s').dropWhile (· ≠ 0) = 0 :: s' := by
  have hs : ∀ c ∈ s, decide (c ≠ 0) = true := by
    intro c hc
    exact decide_eq_true fun heq => h (heq ▸ hc)
  rw [List.dropWhile_append_of_pos hs]
  rfl

theorem trailer_eq (e : CAccountingEntry) :
    e.trailer = [] ∧ writeOrderPos e.nOrderPos e.mapValue = ∅ ∧ e.ssExtra = [] ∨
    e.trailer =
      0 :: (mapValue_t.write (writeOrderPos e.nOrderPos e.mapValue) ++ e.ssExtra) := by
  rw [trailer]
  split
  · next h =>
    obtain ⟨hmap, hextra⟩ := (Bool.and_eq_true _ _).mp h
    exact .inl ⟨rfl, Std.ExtTreeMap.isEmpty_iff.mp hmap, List.isEmpty_iff.mp hextra⟩
  · exact .inr rfl

theorem afterWalk_beforeWrite {e : CAccountingEntry} (hn : orderPosKey ∉ e.mapValue) :
    e.beforeWrite.afterWalk = { e with strComment := e.strComment.takeWhile (· ≠ 0) } := by
  have hcomment : (e.strComment ++ e.trailer).takeWhile (· ≠ 0) =
      e.strComment.takeWhile (· ≠ 0) := by
    rcases trailer_eq e with ⟨h, -⟩ | h
    · rw [h, List.append_nil]
    · rw [h, takeWhile_append_zero]
  rw [afterWalk, beforeWrite]
  dsimp only
  rw [hcomment, erase_writeOrderPos hn]

theorem afterWalk_beforeWrite_eq {e : CAccountingEntry} (hn : orderPosKey ∉ e.mapValue) :
    e.beforeWrite.afterWalk = e ↔ 0 ∉ e.strComment := by
  rw [afterWalk_beforeWrite hn, ← takeWhile_ne_zero]
  constructor
  · intro h
    exact congrArg strComment h
  · intro h
    rw [h]

/-! ## Reading back -/

/-- How many bytes the map, the order position and the extra bytes add to the comment. -/
def trailerSize (e : CAccountingEntry) : Nat :=
  if e.mapValue.isEmpty && e.nOrderPos == -1 && e.ssExtra.isEmpty then 0
  else 1 + mapValue_t.getSerializeSize (writeOrderPos e.nOrderPos e.mapValue) + e.ssExtra.length

theorem length_trailer (e : CAccountingEntry) : e.trailer.length = e.trailerSize := by
  have hempty : (writeOrderPos e.nOrderPos e.mapValue).isEmpty =
      (e.mapValue.isEmpty && e.nOrderPos == -1) := by
    rw [writeOrderPos]
    split
    · next h => rw [beq_iff_eq.mpr h, Bool.and_true]
    · next h =>
      rw [beq_eq_false_iff_ne.mpr h, Bool.and_false]
      exact Bool.eq_false_iff.mpr fun hempty =>
        Std.ExtTreeMap.insert_ne_empty (Std.ExtTreeMap.isEmpty_iff.mp hempty)
  rw [trailer, trailerSize, hempty]
  split
  · rfl
  · rw [List.length_cons, List.length_append, length_mapValue]
    omega

/-- The comment has no zero byte, and neither string is longer than `MAX_SIZE` as it is written. -/
structure Storable (e : CAccountingEntry) : Prop where
  noZero : 0 ∉ e.strComment
  other : e.strOtherAccount.length ≤ maxSize
  comment : e.strComment.length + e.trailerSize ≤ maxSize

theorem decodes_version (nType nVersion : Int32) :
    Decodes (readVersion nType) (writeVersion nType nVersion) () := by
  rw [readVersion, writeVersion]
  split
  · exact (format_unsigned.decodes nVersion.toUInt32 trivial).map fun _ => ()
  · exact Decodes.pure ()

/-- What comes after a comment without a zero byte is taken apart again. -/
theorem readTrailer_append {e : CAccountingEntry} (h : e.Storable) :
    readTrailer (e.strComment ++ e.trailer) [] =
      some (writeOrderPos e.nOrderPos e.mapValue, e.ssExtra) := by
  rw [readTrailer]
  rcases trailer_eq e with ⟨htrailer, hmap, hextra⟩ | htrailer
  · have hdrop : e.strComment.dropWhile (· ≠ 0) = [] :=
      List.dropWhile_eq_nil_iff.mpr fun c hc => decide_eq_true fun heq => h.noZero (heq ▸ hc)
    rw [htrailer, List.append_nil, hdrop, hmap, hextra]
  · have hfits : (writeOrderPos e.nOrderPos e.mapValue).Fits := by
      apply mapValue_fits
      have hlen := h.comment
      rw [← length_trailer, htrailer, List.length_cons, List.length_append, length_mapValue] at hlen
      omega
    rw [htrailer, dropWhile_append_zero h.noZero]
    exact decodes_mapValue hfits e.ssExtra

/-- An entry is read back into an object that has no extra bytes of its own. -/
theorem decodes_serialize {e : CAccountingEntry} (hn : orderPosKey ∉ e.mapValue) (h : e.Storable)
    (nType nVersion : Int32) {me : CAccountingEntry} (hextra : me.ssExtra = []) :
    Decodes (unserialize nType me) (serialize nType nVersion e).1
      { e with strAccount := me.strAccount, nEntryNo := me.nEntryNo } := by
  have hcomment : e.beforeWrite.strComment.length ≤ maxSize := by
    rw [beforeWrite, List.length_append, length_trailer]
    exact h.comment
  refine Decodes.bind (decodes_version nType nVersion) ?_
  refine Decodes.bind (decodes_writeInt64 _) ?_
  refine Decodes.bind (decodes_writeInt64 _) ?_
  refine Decodes.bind (format_text.decodes _ h.other) ?_
  rw [← List.append_nil (Text.write _)]
  refine Decodes.bind (format_text.decodes _ hcomment) ?_
  have hafter := (afterWalk_beforeWrite_eq hn).mpr h.noZero
  have hresult : (afterWalk { e.beforeWrite with
      strAccount := me.strAccount, nEntryNo := me.nEntryNo }) =
      { e with strAccount := me.strAccount, nEntryNo := me.nEntryNo } := by
    conv_rhs => rw [← hafter]
    rfl
  rw [hextra, show e.beforeWrite.strComment = e.strComment ++ e.trailer from rfl,
    readTrailer_append h, ← hresult]
  intro rest
  change some (afterWalk { e.beforeWrite with
    strAccount := me.strAccount, nEntryNo := me.nEntryNo
    nOrderPos := readOrderPos (writeOrderPos e.nOrderPos e.mapValue) }, rest) = _
  rw [readOrderPos_writeOrderPos hn]
  rfl

/-! ## Strings that are too long -/

theorem readLittleEndian_leaves {k n m : Nat} {rest rest' : List UInt8}
    (h : readLittleEndian k (littleEndian k n ++ rest) = some (m, rest')) : rest' = rest := by
  obtain ⟨used, hused, -, hlen⟩ := takes_littleEndian k _ _ _ h
  exact (List.append_inj hused ((length_littleEndian k n).trans hlen.symm)).2.symm

/-- However long a string is, reading its length takes the bytes of the length. -/
theorem readCompactSize_leaves {nSize n : Nat} {rest rest' : List UInt8}
    (h : readCompactSize (writeCompactSize nSize ++ rest) = some (n, rest')) :
    rest' = rest ∧ n ≤ maxSize := by
  obtain ⟨chSize, s, hbyte, hafter⟩ := bind_eq_some.mp h
  obtain ⟨m, s', hread, hcheck⟩ := bind_eq_some.mp hafter
  change checkMaxSize m s' = _ at hcheck
  have hleaves : s' = rest := by
    rw [writeCompactSize] at hbyte
    split at hbyte
    · next hlt =>
      cases hbyte
      have hsmall : UInt8.ofNat nSize < 253 := by
        rw [UInt8.lt_iff_toNat_lt, UInt8.toNat_ofNat']
        exact Nat.lt_of_le_of_lt (Nat.mod_le _ _) hlt
      rw [readCompactSizeAfter, if_pos hsmall] at hread
      cases hread
      rfl
    · split at hbyte
      · cases hbyte
        exact readLittleEndian_leaves hread
      · split at hbyte
        · cases hbyte
          exact readLittleEndian_leaves hread
        · cases hbyte
          exact readLittleEndian_leaves hread
  rw [checkMaxSize] at hcheck
  split at hcheck
  · cases hcheck
  · next hmax =>
    cases hcheck
    exact ⟨hleaves, Nat.le_of_not_lt hmax⟩

theorem length_le_of_read {str str' : Text} (h : Text.read (Text.write str) = some (str', [])) :
    str.length ≤ maxSize := by
  obtain ⟨n, s, hsize, hbytes⟩ := bind_eq_some.mp h
  obtain ⟨rfl, hn⟩ := readCompactSize_leaves hsize
  change readBytes n s = _ at hbytes
  rw [readBytes] at hbytes
  split at hbytes
  · cases hbytes
  · rw [Option.some.injEq, Prod.mk.injEq, List.drop_eq_nil_iff] at hbytes
    exact hbytes.2.trans hn

/-- The property of the walks over an entry: it is left as it was, and the bytes are read back, with
nothing left over, as an entry that is written as the same bytes. -/
structure Survives (nType nVersion : Int32) (e : CAccountingEntry) : Prop where
  serialize_unchanged : (serialize nType nVersion e).2 = e
  getSerializeSize_unchanged : (getSerializeSize nType e).2 = e
  readBack : ∀ me : CAccountingEntry, me.ssExtra = [] →
    ∃ e', unserialize nType me (serialize nType nVersion e).1 = some (e', []) ∧
      (e'.nCreditDebit = e.nCreditDebit ∧ e'.nTime = e.nTime ∧
        e'.strOtherAccount = e.strOtherAccount ∧ e'.strComment = e.strComment ∧
        e'.mapValue = e.mapValue ∧ e'.nOrderPos = e.nOrderPos) ∧
      (serialize nType nVersion e').1 = (serialize nType nVersion e).1

theorem Storable.survives {e : CAccountingEntry} (hn : orderPosKey ∉ e.mapValue)
    (h : e.Storable) (nType nVersion : Int32) : Survives nType nVersion e where
  serialize_unchanged := (afterWalk_beforeWrite_eq hn).mpr h.noZero
  getSerializeSize_unchanged := (afterWalk_beforeWrite_eq hn).mpr h.noZero
  readBack me hextra := by
    have hread := decodes_serialize hn h nType nVersion hextra []
    rw [List.append_nil] at hread
    exact ⟨_, hread, ⟨rfl, rfl, rfl, rfl, rfl, rfl⟩, rfl⟩

theorem reads_of_unserialize {nType nVersion : Int32} {e me e' : CAccountingEntry}
    (h : unserialize nType me (serialize nType nVersion e).1 = some (e', [])) :
    ∃ strOtherAccount strComment s,
      Text.read (Text.write e.strOtherAccount ++ Text.write (e.strComment ++ e.trailer)) =
        some (strOtherAccount, s) ∧
      Text.read s = some (strComment, []) ∧ e'.strOtherAccount = strOtherAccount := by
  obtain ⟨version, s1, hversion, h⟩ := bind_eq_some.mp h
  obtain ⟨-, rfl⟩ := (decodes_version nType nVersion).eq hversion
  obtain ⟨nCreditDebit, s2, hcredit, h⟩ := bind_eq_some.mp h
  obtain ⟨-, rfl⟩ := (decodes_writeInt64 _).eq hcredit
  obtain ⟨nTime, s3, htime, h⟩ := bind_eq_some.mp h
  obtain ⟨-, rfl⟩ := (decodes_writeInt64 _).eq htime
  obtain ⟨strOtherAccount, s4, hother, h⟩ := bind_eq_some.mp h
  obtain ⟨strComment, s5, hcomment, h⟩ := bind_eq_some.mp h
  obtain ⟨⟨mapValue, ssExtra⟩, s6, htrailer, h⟩ := bind_eq_some.mp h
  cases h
  obtain ⟨p, -, hp⟩ := Option.bind_eq_some_iff.mp htrailer
  cases hp
  exact ⟨strOtherAccount, strComment, s4, hother, hcomment, rfl⟩

theorem Survives.storable {nType nVersion : Int32} {e : CAccountingEntry}
    (hn : orderPosKey ∉ e.mapValue) (h : Survives nType nVersion e) : e.Storable := by
  obtain ⟨e', hread, hsame, -⟩ := h.readBack { e with ssExtra := [] } rfl
  obtain ⟨strOtherAccount, strComment, s, hother, hcomment, heq⟩ := reads_of_unserialize hread
  have hlen : e.strOtherAccount.length ≤ maxSize := by
    obtain ⟨-, -, hle, -⟩ := takes_text _ _ _ hother
    rwa [← heq, hsame.2.2.1] at hle
  refine ⟨(afterWalk_beforeWrite_eq hn).mp h.serialize_unchanged, hlen, ?_⟩
  have hs := (format_text.decodes _ hlen).eq hother
  rw [← hs.2] at hcomment
  rw [← length_trailer, ← List.length_append]
  exact length_le_of_read hcomment

/-- Walks over an entry whose map has no order position leave it as it was and read it back exactly
if its comment holds no zero byte and neither string is longer than `MAX_SIZE`. -/
theorem survives_iff (nType nVersion : Int32) (e : CAccountingEntry)
    (hn : orderPosKey ∉ e.mapValue) : Survives nType nVersion e ↔ e.Storable :=
  ⟨Survives.storable hn, fun h => h.survives hn nType nVersion⟩

namespace Sample

def zeroComment : CAccountingEntry where
  strAccount := []
  nCreditDebit := 0
  nTime := 0
  strOtherAccount := []
  strComment := [97, 0, 98]
  mapValue := ∅
  nOrderPos := -1
  nEntryNo := 0
  ssExtra := []

/-- Writing cuts the comment off. -/
theorem not_survives : ¬ ∀ nType nVersion e, orderPosKey ∉ e.mapValue → Survives nType nVersion e := by
  intro h
  have hn : orderPosKey ∉ zeroComment.mapValue := Std.ExtTreeMap.not_mem_empty
  have hcomment := congrArg strComment (h 0 0 zeroComment hn).serialize_unchanged
  exact absurd hcomment (by decide)

/-- An entry with a position and a comment. -/
def noZeroComment : CAccountingEntry :=
  { zeroComment with strComment := [97, 98], nOrderPos := 7 }

theorem storable_noZeroComment : noZeroComment.Storable where
  noZero := by decide
  other := by decide
  comment := by decide +kernel

theorem survives_iff_sample : Survives 0 0 noZeroComment :=
  (survives_iff 0 0 noZeroComment Std.ExtTreeMap.not_mem_empty).mpr storable_noZeroComment

end Sample

end CAccountingEntry

end Terracoin
