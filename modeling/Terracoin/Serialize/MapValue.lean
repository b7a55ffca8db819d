import Std.Data.ExtTreeMap.Lemmas
import Terracoin.Serialize.Text
import Terracoin.Serialize.Transaction

/-!
# Strings and maps as bytes

The wallet stores what has no field of its own in a map from strings to strings. Its elements are
written in the order of their keys, and read back they make the same map (`decodes_mapValue`). An
order position is such an element: it is put into the map before the map is written and taken out
of it after it was read.
-/

namespace Terracoin

open Codec

/-! ## Strings -/

/-- `Serialize` of a `std::string`. -/
def Text.write (str : Text) : List UInt8 := writeCompactSize str.length ++ str

def Text.read : Reader Text := do
  let nSize ← readCompactSize
  readBytes nSize

def Text.getSerializeSize (str : Text) : Nat := getSizeOfCompactSize str.length + str.length

theorem takes_readBytes (n : Nat) : Takes (readBytes n) fun str m => str.length = n ∧ m = n := by
  intro s str rest hread
  rw [readBytes] at hread
  split at hread
  · cases hread
  · next hlen =>
    cases hread
    have htake : (s.take n).length = n := by
      rw [List.length_take]
      omega
    exact ⟨s.take n, (List.take_append_drop n s).symm, htake, htake⟩

theorem takes_text : Takes Text.read
    fun str n => str.length ≤ maxSize ∧ Text.getSerializeSize str ≤ n := by
  have hsize : Takes readCompactSize
      fun nSize n => nSize ≤ maxSize ∧ getSizeOfCompactSize nSize ≤ n := by
    intro s nSize rest hread
    obtain ⟨used, hs, hle⟩ := takes_compactSize s nSize rest hread
    refine ⟨used, hs, ?_, hle⟩
    obtain ⟨chSize, s1, -, hafter⟩ := bind_eq_some.mp hread
    obtain ⟨n, s2, -, hcheck⟩ := bind_eq_some.mp hafter
    change checkMaxSize n s2 = _ at hcheck
    rw [checkMaxSize] at hcheck
    split at hcheck
    · cases hcheck
    · next hmax =>
      cases hcheck
      exact Nat.le_of_not_lt hmax
  refine .bind hsize fun nSize n hn => (takes_readBytes nSize).mono ?_
  rintro str m ⟨rfl, rfl⟩
  exact ⟨hn.1, Nat.add_le_add_right hn.2 _⟩

theorem format_text :
    Format (fun str => str.length ≤ maxSize) Text.write Text.read Text.getSerializeSize where
  decodes str h := Decodes.bind (decodes_writeCompactSize h) (Decodes.bytes str)
  length str := by
    rw [Text.write, List.length_append, length_writeCompactSize, Text.getSerializeSize]
  takes := takes_text.mono fun _ _ h => h.2

def writePair {α β : Type} (write : α → List UInt8) (write' : β → List UInt8) (item : α × β) :
    List UInt8 :=
  write item.1 ++ write' item.2

def readPair {α β : Type} (read : Reader α) (read' : Reader β) : Reader (α × β) := do
  let first ← read
  let second ← read'
  pure (first, second)

theorem format_pair {α β : Type} {fits : α → Prop} {fits' : β → Prop} {write : α → List UInt8}
    {write' : β → List UInt8} {read : Reader α} {read' : Reader β} {size : α → Nat}
    {size' : β → Nat} (h : Format fits write read size) (h' : Format fits' write' read' size') :
    Format (fun item => fits item.1 ∧ fits' item.2) (writePair write write')
      (readPair read read') fun item => size item.1 + size' item.2 where
  decodes item hfits := by
    refine Decodes.bind (h.decodes item.1 hfits.1) ?_
    rw [← List.append_nil (write' item.2)]
    exact Decodes.bind (h'.decodes item.2 hfits.2) (Decodes.pure _)
  length item := by
    rw [writePair, List.length_append, h.length, h'.length]
  takes := .bind h.takes fun _ _ h1 => .bind h'.takes fun _ _ h2 => .pure (Nat.add_le_add h1 h2)

/-! ## Maps -/

abbrev mapValue_t := Std.ExtTreeMap Text Text

namespace mapValue_t

def write (m : mapValue_t) : List UInt8 :=
  writeCompactSize m.size ++ m.toList.flatMap (writePair Text.write Text.write)

/-- An item whose key is in the map already is dropped. -/
def read : Reader mapValue_t := do
  let nSize ← readCompactSize
  readLoop (fun m => do
    let item ← readPair Text.read Text.read
    pure (m.insertIfNew item.1 item.2)) nSize ∅

def getSerializeSize (m : mapValue_t) : Nat :=
  vectorSize (fun item => Text.getSerializeSize item.1 + Text.getSerializeSize item.2) m.toList

/-- Neither the map nor a string in it is longer than `MAX_SIZE`. -/
def Fits (m : mapValue_t) : Prop :=
  m.size ≤ maxSize ∧ ∀ item ∈ m.toList, item.1.length ≤ maxSize ∧ item.2.length ≤ maxSize

end mapValue_t

/-- Inserting items with different keys that are all new. -/
theorem foldl_insertIfNew {items : List (Text × Text)} {m : mapValue_t}
    (hkeys : items.Pairwise fun a b => a.1 ≠ b.1) (hnew : ∀ item ∈ items, item.1 ∉ m)
    (k v : Text) :
    (items.foldl (fun m item => m.insertIfNew item.1 item.2) m)[k]? = some v ↔
      (k, v) ∈ items ∨ m[k]? = some v := by
  induction items generalizing m with
  | nil => simp
  | cons item items ih =>
    obtain ⟨hitem, hkeys⟩ := List.pairwise_cons.mp hkeys
    have hinsert : ∀ k, k ∈ m.insertIfNew item.1 item.2 ↔ item.1 = k ∨ k ∈ m := by
      intro k
      rw [Std.ExtTreeMap.mem_insertIfNew, Std.LawfulEqCmp.compare_eq_iff_eq]
    have hnew' : ∀ other ∈ items, other.1 ∉ m.insertIfNew item.1 item.2 := by
      intro other hother hmem
      rcases (hinsert other.1).mp hmem with heq | hmem
      · exact hitem other hother heq
      · exact hnew other (List.mem_cons_of_mem _ hother) hmem
    rw [List.foldl_cons, ih hkeys hnew', List.mem_cons, Std.ExtTreeMap.getElem?_insertIfNew]
    have hm := hnew item List.mem_cons_self
    by_cases hk : item.1 = k
    · subst hk
      have hnone : m[item.1]? = none := Std.ExtTreeMap.getElem?_eq_none hm
      rw [if_pos ⟨Std.ReflCmp.compare_self, hm⟩, hnone]
      constructor
      · rintro (h | h)
        · exact .inl (.inr h)
        · exact .inl (.inl (by rw [← Option.some_inj.mp h]))
      · rintro ((h | h) | h)
        · exact .inr (by rw [← h])
        · exact .inl h
        · cases h
    · rw [if_neg fun h => hk (Std.LawfulEqCmp.eq_of_compare h.1)]
      constructor
      · rintro (h | h)
        · exact .inl (.inr h)
        · exact .inr h
      · rintro ((h | h) | h)
        · exact absurd (by rw [← h]) hk
        · exact .inl h
        · exact .inr h

theorem foldl_insertIfNew_toList (m : mapValue_t) :
    m.toList.foldl (fun m item => m.insertIfNew item.1 item.2) ∅ = m := by
  apply Std.ExtTreeMap.ext_getElem?
  intro k
  apply Option.ext
  intro v
  have hkeys : m.toList.Pairwise fun a b => a.1 ≠ b.1 :=
    Std.ExtTreeMap.distinct_keys_toList.imp fun h heq =>
      h (Std.LawfulEqCmp.compare_eq_iff_eq.mpr heq)
  rw [foldl_insertIfNew hkeys (fun _ _ => Std.ExtTreeMap.not_mem_empty),
    Std.ExtTreeMap.mem_toList_iff_getElem?_eq_some]
  simp

theorem decodes_mapValue {m : mapValue_t} (h : m.Fits) :
    Decodes mapValue_t.read (mapValue_t.write m) m := by
  have hitem : ∀ item ∈ m.toList, ∀ m' : mapValue_t, Decodes (do
      let item ← readPair Text.read Text.read
      pure (m'.insertIfNew item.1 item.2)) (writePair Text.write Text.write item)
        (m'.insertIfNew item.1 item.2) := by
    intro item hmem m'
    have hpair := (format_pair format_text format_text).decodes item (h.2 item hmem)
    rw [← List.append_nil (writePair Text.write Text.write item)]
    exact Decodes.bind hpair (Decodes.pure _)
  have hloop := Decodes.loop hitem ∅
  rw [foldl_insertIfNew_toList, Std.ExtTreeMap.length_toList] at hloop
  exact Decodes.bind (decodes_writeCompactSize h.1) hloop

theorem length_mapValue (m : mapValue_t) :
    (mapValue_t.write m).length = mapValue_t.getSerializeSize m := by
  have hpair := (format_pair format_text format_text).length
  rw [mapValue_t.getSerializeSize, ← length_writeVector fun item _ => hpair item, writeVector,
    Std.ExtTreeMap.length_toList]
  rfl

theorem getSizeOfCompactSize_pos (n : Nat) : 0 < getSizeOfCompactSize n := by
  rw [getSizeOfCompactSize]
  split_ifs <;> decide

/-- A map has no more items than the bytes it is written as, and its strings are no longer. -/
theorem mapValue_fits {m : mapValue_t} (h : mapValue_t.getSerializeSize m ≤ maxSize) :
    m.Fits := by
  rw [mapValue_t.getSerializeSize, vectorSize] at h
  constructor
  · have hone : ∀ n ∈ m.toList.map fun item =>
        Text.getSerializeSize item.1 + Text.getSerializeSize item.2, 1 ≤ n := by
      intro n hn
      obtain ⟨item, -, rfl⟩ := List.mem_map.mp hn
      have hpos := getSizeOfCompactSize_pos item.1.length
      rw [Text.getSerializeSize]
      omega
    have hlen := List.length_le_sum_of_one_le _ hone
    rw [List.length_map, Std.ExtTreeMap.length_toList] at hlen
    omega
  · intro item hmem
    have hle := List.le_sum_of_mem (List.mem_map_of_mem (f := fun item : Text × Text =>
      Text.getSerializeSize item.1 + Text.getSerializeSize item.2) hmem)
    rw [Text.getSerializeSize, Text.getSerializeSize] at hle
    omega

/-! ## The order position -/

def orderPosKey : Text := [110]

def readOrderPos (mapValue : mapValue_t) : Int64 :=
  match mapValue[orderPosKey]? with
  | none => -1
  | some str => atoi64 str

def writeOrderPos (nOrderPos : Int64) (mapValue : mapValue_t) : mapValue_t :=
  if nOrderPos = -1 then mapValue else mapValue.insert orderPosKey (i64tostr nOrderPos)

theorem mapValue_t.getElem?_insert (m : mapValue_t) (k v k' : Text) :
    (m.insert k v)[k']? = if k = k' then some v else m[k']? := by
  simp only [Std.ExtTreeMap.getElem?_insert, Std.LawfulEqCmp.compare_eq_iff_eq]

theorem mapValue_t.getElem?_erase (m : mapValue_t) (k k' : Text) :
    (m.erase k)[k']? = if k = k' then none else m[k']? := by
  simp only [Std.ExtTreeMap.getElem?_erase, Std.LawfulEqCmp.compare_eq_iff_eq]

theorem getElem?_writeOrderPos_of_ne {nOrderPos : Int64} {m : mapValue_t} {k : Text}
    (hk : orderPosKey ≠ k) : (writeOrderPos nOrderPos m)[k]? = m[k]? := by
  rw [writeOrderPos]
  split
  · rfl
  · rw [mapValue_t.getElem?_insert, if_neg hk]

theorem readOrderPos_writeOrderPos {nOrderPos : Int64} {m : mapValue_t} (h : orderPosKey ∉ m) :
    readOrderPos (writeOrderPos nOrderPos m) = nOrderPos := by
  by_cases hpos : nOrderPos = -1
  · rw [readOrderPos, writeOrderPos, if_pos hpos, Std.ExtTreeMap.getElem?_eq_none h, hpos]
  · rw [readOrderPos, writeOrderPos, if_neg hpos, mapValue_t.getElem?_insert, if_pos rfl]
    exact atoi64_i64tostr nOrderPos

theorem erase_writeOrderPos {nOrderPos : Int64} {m : mapValue_t} (h : orderPosKey ∉ m) :
    (writeOrderPos nOrderPos m).erase orderPosKey = m := by
  apply Std.ExtTreeMap.ext_getElem?
  intro k
  rw [mapValue_t.getElem?_erase]
  split
  · next hk => rw [← hk, Std.ExtTreeMap.getElem?_eq_none h]
  · next hk => exact getElem?_writeOrderPos_of_ne hk

end Terracoin
