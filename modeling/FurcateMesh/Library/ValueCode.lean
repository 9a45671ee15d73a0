import FurcateMesh.Library.Serde

/-!
# A binary format for values

A byte for the kind of the value, then its contents: numbers in base 128 with the high
bit set on all digits but the last, everything else preceded by its length.  Reading
back what was written gives the value and leaves what follows (`decode_encode`), so the
format carries every value exactly (`exact`); writing the floats as they will be read,
and null for those that are not finite, makes it a format with decimal floats (`decimal`).

The format is here so that the laws of `Serde` have an instance for every reading of floats.
A value with a float that the reader rejects is written as nothing at all, which is rejected
as well.
-/

namespace ValueCode

open Serde

/-! ### Numbers and repetition -/

def encodeNat (n : Nat) : List UInt8 :=
  if n < 128 then [UInt8.ofNat n] else UInt8.ofNat (128 + n % 128) :: encodeNat (n / 128)

def decodeNat : List UInt8 → Option (Nat × List UInt8)
  | [] => none
  | byte :: rest =>
      if byte.toNat < 128 then some (byte.toNat, rest)
      else (decodeNat rest).map fun found => (byte.toNat - 128 + 128 * found.1, found.2)

theorem decodeNat_encodeNat (n : Nat) (rest : List UInt8) :
    decodeNat (encodeNat n ++ rest) = some (n, rest) := by
  induction n using Nat.strongRecOn with
  | ind n ih =>
    rw [encodeNat]
    by_cases hn : n < 128
    · have hbyte : (UInt8.ofNat n).toNat = n := by
        rw [UInt8.toNat_ofNat']
        omega
      rw [if_pos hn, List.singleton_append, decodeNat, hbyte, if_pos hn]
    · have hbyte : (UInt8.ofNat (128 + n % 128)).toNat = 128 + n % 128 := by
        rw [UInt8.toNat_ofNat']
        omega
      rw [if_neg hn, List.cons_append, decodeNat, hbyte, if_neg (by omega),
        ih (n / 128) (by omega), Option.map_some]
      simp only [Option.some.injEq, Prod.mk.injEq, and_true]
      omega

/-- Read so many items one after the other. -/
def decodeMany {α : Type} (read : List UInt8 → Option (α × List UInt8)) :
    Nat → List UInt8 → Option (List α × List UInt8)
  | 0, bytes => some ([], bytes)
  | count + 1, bytes =>
      (read bytes).bind fun first =>
        (decodeMany read count first.2).map fun found => (first.1 :: found.1, found.2)

theorem decodeMany_flatMap {α : Type} {read : List UInt8 → Option (α × List UInt8)}
    {write : α → List UInt8} {items : List α}
    (h : ∀ item ∈ items, ∀ rest, read (write item ++ rest) = some (item, rest))
    (rest : List UInt8) :
    decodeMany read items.length (items.flatMap write ++ rest) = some (items, rest) := by
  induction items with
  | nil => rfl
  | cons item items ih =>
    rw [List.forall_mem_cons] at h
    simp [decodeMany, List.append_assoc, h.1, ih h.2]

/-! ### Values -/

def encodeChar (c : Char) : List UInt8 := encodeNat c.toNat

def decodeChar (bytes : List UInt8) : Option (Char × List UInt8) :=
  (decodeNat bytes).map fun found => (Char.ofNat found.1, found.2)

def decodeByte : List UInt8 → Option (UInt8 × List UInt8)
  | [] => none
  | byte :: rest => some (byte, rest)

mutual
def encode : Value → List UInt8
  | .null => [0]
  | .bool b => [if b then 2 else 1]
  | .int n => 3 :: encodeNat (Equiv.intEquivNat n)
  | .float x => 4 :: encodeNat x.bits.toNat
  | .text s => 5 :: (encodeNat s.toList.length ++ s.toList.flatMap encodeChar)
  | .bytes b => 6 :: (encodeNat b.length ++ b.flatMap fun byte => [byte])
  | .seq items => 7 :: (encodeNat items.length ++ encodeItems items)
  | .map entries => 8 :: (encodeNat entries.length ++ encodeEntries entries)

def encodeItems : List Value → List UInt8
  | [] => []
  | value :: items => encode value ++ encodeItems items

def encodeEntries : List (Value × Value) → List UInt8
  | [] => []
  | (key, value) :: entries => encode key ++ encode value ++ encodeEntries entries
end

def encodeEntry (entry : Value × Value) : List UInt8 := encode entry.1 ++ encode entry.2

theorem encodeItems_eq (items : List Value) : encodeItems items = items.flatMap encode := by
  induction items with
  | nil => rfl
  | cons value items ih => rw [encodeItems, ih, List.flatMap_cons]

theorem encodeEntries_eq (entries : List (Value × Value)) :
    encodeEntries entries = entries.flatMap encodeEntry := by
  induction entries with
  | nil => rfl
  | cons entry entries ih => rw [encodeEntries, ih, List.flatMap_cons, encodeEntry]

/-- Two reads one after the other. -/
def decodePair {α : Type} (read : List UInt8 → Option (α × List UInt8)) (bytes : List UInt8) :
    Option ((α × α) × List UInt8) :=
  (read bytes).bind fun first => (read first.2).map fun second => ((first.1, second.1), second.2)

/-- Read a length and then so many items. -/
def decodeList {α : Type} (read : List UInt8 → Option (α × List UInt8)) (bytes : List UInt8) :
    Option (List α × List UInt8) :=
  (decodeNat bytes).bind fun count => decodeMany read count.1 count.2

theorem decodeList_flatMap {α : Type} {read : List UInt8 → Option (α × List UInt8)}
    {write : α → List UInt8} {items : List α}
    (h : ∀ item ∈ items, ∀ rest, read (write item ++ rest) = some (item, rest))
    (rest : List UInt8) :
    decodeList read (encodeNat items.length ++ (items.flatMap write ++ rest)) =
      some (items, rest) := by
  rw [decodeList, decodeNat_encodeNat, Option.bind_some, decodeMany_flatMap h]

/-- Read a value nested at most `depth` deep. -/
def decode : Nat → List UInt8 → Option (Value × List UInt8)
  | 0, _ => none
  | _ + 1, [] => none
  | depth + 1, kind :: rest =>
      if kind = 0 then some (.null, rest)
      else if kind = 1 then some (.bool false, rest)
      else if kind = 2 then some (.bool true, rest)
      else if kind = 3 then
        (decodeNat rest).map fun n => (.int (Equiv.intEquivNat.symm n.1), n.2)
      else if kind = 4 then
        (decodeNat rest).map fun bits => (.float ⟨UInt64.ofNat bits.1⟩, bits.2)
      else if kind = 5 then
        (decodeList decodeChar rest).map fun chars => (.text (String.ofList chars.1), chars.2)
      else if kind = 6 then
        (decodeList decodeByte rest).map fun bytes => (.bytes bytes.1, bytes.2)
      else if kind = 7 then
        (decodeList (decode depth) rest).map fun items => (.seq items.1, items.2)
      else if kind = 8 then
        (decodeList (decodePair (decode depth)) rest).map fun entries => (.map entries.1, entries.2)
      else none

/-! ### Round trip -/

theorem decodeChar_encodeChar (c : Char) (rest : List UInt8) :
    decodeChar (encodeChar c ++ rest) = some (c, rest) := by
  rw [decodeChar, encodeChar, decodeNat_encodeNat, Option.map_some, Char.ofNat_toNat]

/-- An item that was written is no longer than the whole. -/
theorem length_le_flatMap {α : Type} (write : α → List UInt8) {items : List α} {item : α}
    (h : item ∈ items) : (write item).length ≤ (items.flatMap write).length := by
  obtain ⟨before, after, rfl⟩ := List.append_of_mem h
  simp only [List.flatMap_append, List.flatMap_cons, List.length_append]
  omega

theorem decode_encode (value : Value) :
    ∀ depth rest, (encode value).length ≤ depth →
      decode depth (encode value ++ rest) = some (value, rest) := by
  induction value using Value.induction with
  | null =>
    rintro (_ | depth) rest hdepth
    · simp [encode] at hdepth
    · simp [encode, decode]
  | bool b =>
    rintro (_ | depth) rest hdepth
    · simp [encode] at hdepth
    · cases b <;> simp [encode, decode]
  | int n =>
    rintro (_ | depth) rest hdepth
    · simp [encode] at hdepth
    · simp [encode, decode, decodeNat_encodeNat]
  | float x =>
    rintro (_ | depth) rest hdepth
    · simp [encode] at hdepth
    · simp [encode, decode, decodeNat_encodeNat]
  | text s =>
    rintro (_ | depth) rest hdepth
    · simp [encode] at hdepth
    · have hchars := decodeList_flatMap (fun c (_ : c ∈ s.toList) => decodeChar_encodeChar c) rest
      rw [encode, List.cons_append, List.append_assoc, decode, hchars]
      simp
  | bytes b =>
    rintro (_ | depth) rest hdepth
    · simp [encode] at hdepth
    · have hbytes : decodeList decodeByte (encodeNat b.length ++
          (b.flatMap (fun byte => [byte]) ++ rest)) = some (b, rest) :=
        decodeList_flatMap (fun _ _ _ => rfl) rest
      rw [encode, List.cons_append, List.append_assoc, decode, hbytes]
      simp
  | seq items ih =>
    rintro (_ | depth) rest hdepth
    · simp [encode] at hdepth
    · rw [encode, encodeItems_eq] at hdepth ⊢
      have hitem : ∀ item ∈ items, ∀ rest,
          decode depth (encode item ++ rest) = some (item, rest) := by
        intro item hmem rest
        have hlen := length_le_flatMap encode hmem
        simp only [List.length_cons, List.length_append] at hdepth
        exact ih item hmem depth rest (by omega)
      rw [List.cons_append, List.append_assoc, decode, decodeList_flatMap hitem]
      simp
  | map entries ih =>
    rintro (_ | depth) rest hdepth
    · simp [encode] at hdepth
    · rw [encode, encodeEntries_eq] at hdepth ⊢
      have hentry : ∀ entry ∈ entries, ∀ rest,
          decodePair (decode depth) (encodeEntry entry ++ rest) = some (entry, rest) := by
        intro entry hmem rest
        have hlen := length_le_flatMap encodeEntry hmem
        simp only [encodeEntry, List.length_cons, List.length_append] at hdepth hlen
        rw [decodePair, encodeEntry, List.append_assoc, (ih entry hmem).1 depth _ (by omega),
          Option.bind_some, (ih entry hmem).2 depth _ (by omega), Option.map_some]
      rw [List.cons_append, List.append_assoc, decode, decodeList_flatMap hentry]
      simp

/-! ### The formats -/

def fromSlice (bytes : List UInt8) : Except String Value :=
  match decode bytes.length bytes with
  | some (value, []) => .ok value
  | some (_, _ :: _) => .error "trailing bytes"
  | none => .error "malformed value"

theorem fromSlice_encode (value : Value) : fromSlice (encode value) = .ok value := by
  have hdecode := decode_encode value (encode value).length [] (Nat.le_refl _)
  rw [List.append_nil] at hdecode
  rw [fromSlice, hdecode]

def exact : Exact where
  toVec value := .ok (encode value)
  fromSlice := fromSlice
  carries value _ := ⟨encode value, rfl, congrArg Except.toOption (fromSlice_encode value)⟩

/-- Floats are written as they will be read; a value with a float that the reader rejects is
    written as nothing, which it rejects too. -/
def decimal (reread : Binary64 → Option Binary64) : Decimal reread where
  toVec value := .ok (((Serde.decimal reread value).map encode).getD [])
  fromSlice := fromSlice
  carries value _ := by
    refine ⟨_, rfl, ?_⟩
    rcases Serde.decimal reread value with _ | carried
    · rfl
    · exact congrArg Except.toOption (fromSlice_encode carried)

def nullsNonFinite : NullsNonFinite := decimal some

end ValueCode
