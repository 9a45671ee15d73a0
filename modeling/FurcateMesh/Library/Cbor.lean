import FurcateMesh.Library.ValueCode

/-!
# CBOR

The encoding of values in CBOR (RFC 8949): definite lengths, and for every length, integer
and float the shortest form.  The entries of a map are written in the order they have.

Reading what was written gives the value back and leaves what follows (`decode_encode`).
The form is the deterministic one of section 4.2.1 when, in addition, the keys of every
map are in the order of their encodings (`Deterministic`).

An item is a head and its contents.  The first byte of a head has the major type and five
bits of additional information, which are the argument itself or say how many bytes of it
follow.  Texts are written in UTF-8.  A double is written in the narrowest of the three widths
that keeps all its bits, so a NaN payload survives.

`decode` takes a depth, since nothing bounds how deep items are nested; for what was written
its length is enough.  What follows an item is returned with it (`readFront`), for a reader
that stops after one item.

`Codec` is a library that writes this form and reads an item from the front of its input;
`codec` is such a library.
-/

namespace Cbor

open Serde
open ValueCode (decodeMany decodeMany_flatMap decodePair length_le_flatMap)

/-! ### Numbers -/

/-- The lowest `width` bytes of a number, the most significant first. -/
def bigEndian : Nat → Nat → List UInt8
  | 0, _ => []
  | width + 1, n => UInt8.ofNat (n / 256 ^ width) :: bigEndian width n

def ofBigEndian : List UInt8 → Nat
  | [] => 0
  | byte :: rest => 256 ^ rest.length * byte.toNat + ofBigEndian rest

def readBytes (count : Nat) (bytes : List UInt8) : Option (List UInt8 × List UInt8) :=
  if bytes.length < count then none else some (bytes.take count, bytes.drop count)

def readBigEndian (width : Nat) (bytes : List UInt8) : Option (Nat × List UInt8) :=
  (readBytes width bytes).map fun found => (ofBigEndian found.1, found.2)

theorem length_bigEndian (width n : Nat) : (bigEndian width n).length = width := by
  induction width with
  | zero => rfl
  | succ width ih => rw [bigEndian, List.length_cons, ih]

theorem ofBigEndian_bigEndian (width n : Nat) :
    ofBigEndian (bigEndian width n) = n % 256 ^ width := by
  induction width with
  | zero => rw [bigEndian, ofBigEndian, Nat.pow_zero, Nat.mod_one]
  | succ width ih =>
    have hdigit : n % 256 ^ (width + 1) = n % 256 ^ width + 256 ^ width * (n / 256 ^ width % 2 ^ 8) :=
      Nat.mod_pow_succ
    rw [bigEndian, ofBigEndian, ih, length_bigEndian, UInt8.toNat_ofNat', hdigit, Nat.add_comm]

theorem readBytes_append (bytes rest : List UInt8) :
    readBytes bytes.length (bytes ++ rest) = some (bytes, rest) := by
  simp [readBytes]

theorem readBigEndian_append {width n : Nat} (hn : n < 256 ^ width) (rest : List UInt8) :
    readBigEndian width (bigEndian width n ++ rest) = some (n, rest) := by
  have hread := readBytes_append (bigEndian width n) rest
  rw [length_bigEndian] at hread
  rw [readBigEndian, hread, Option.map_some, ofBigEndian_bigEndian, Nat.mod_eq_of_lt hn]

/-! ### Heads -/

/-- The first byte of an item: the major type and the additional information. -/
def initial (major info : Nat) : UInt8 := UInt8.ofNat (major * 32 + info)

/-- The shortest head.  CBOR ends at 64 bits; the last form, with a code that it reserves,
    only makes the function total. -/
def head (major n : Nat) : List UInt8 :=
  if n < 24 then [initial major n]
  else if n < 256 ^ 1 then initial major 24 :: bigEndian 1 n
  else if n < 256 ^ 2 then initial major 25 :: bigEndian 2 n
  else if n < 256 ^ 4 then initial major 26 :: bigEndian 4 n
  else if n < 256 ^ 8 then initial major 27 :: bigEndian 8 n
  else initial major 28 :: ValueCode.encodeNat n

def readArgument (info : Nat) (bytes : List UInt8) : Option (Nat × List UInt8) :=
  if info < 24 then some (info, bytes)
  else if info = 24 then readBigEndian 1 bytes
  else if info = 25 then readBigEndian 2 bytes
  else if info = 26 then readBigEndian 4 bytes
  else if info = 27 then readBigEndian 8 bytes
  else if info = 28 then ValueCode.decodeNat bytes
  else none

theorem toNat_initial {major info : Nat} (hmajor : major < 8) (hinfo : info < 32) :
    (initial major info).toNat = major * 32 + info := by
  rw [initial, UInt8.toNat_ofNat']
  omega

theorem readArgument_bigEndian {info width n : Nat} (hn : n < 256 ^ width)
    (hread : ∀ bytes, readArgument info bytes = readBigEndian width bytes) (rest : List UInt8) :
    readArgument info (bigEndian width n ++ rest) = some (n, rest) := by
  rw [hread, readBigEndian_append hn]

/-- A head is a first byte and what its argument is read from. -/
theorem exists_head (major n : Nat) :
    ∃ info tail, info < 32 ∧ head major n = initial major info :: tail ∧
      ∀ rest, readArgument info (tail ++ rest) = some (n, rest) := by
  unfold head
  split
  · next hn =>
    refine ⟨n, [], by omega, rfl, ?_⟩
    intro rest
    rw [readArgument, if_pos hn, List.nil_append]
  split
  · next hn => exact ⟨24, _, by decide, rfl, readArgument_bigEndian hn fun _ => rfl⟩
  split
  · next hn => exact ⟨25, _, by decide, rfl, readArgument_bigEndian hn fun _ => rfl⟩
  split
  · next hn => exact ⟨26, _, by decide, rfl, readArgument_bigEndian hn fun _ => rfl⟩
  split
  · next hn => exact ⟨27, _, by decide, rfl, readArgument_bigEndian hn fun _ => rfl⟩
  · exact ⟨28, _, by decide, rfl, ValueCode.decodeNat_encodeNat n⟩

/-! ### Floats -/

/-- The shortest of the three widths that keeps every bit of the double. -/
def encodeFloat (x : Binary64) : List UInt8 :=
  if Binary64.widen 5 10 (x.narrow 5 10) = x.bits.toNat then
    initial 7 25 :: bigEndian 2 (x.narrow 5 10)
  else if Binary64.widen 8 23 (x.narrow 8 23) = x.bits.toNat then
    initial 7 26 :: bigEndian 4 (x.narrow 8 23)
  else initial 7 27 :: bigEndian 8 x.bits.toNat

def readSimple (info : Nat) (bytes : List UInt8) : Option (Value × List UInt8) :=
  if info = 20 then some (.bool false, bytes)
  else if info = 21 then some (.bool true, bytes)
  else if info = 22 then some (.null, bytes)
  else if info = 25 then
    (readBigEndian 2 bytes).map fun half =>
      (.float ⟨UInt64.ofNat (Binary64.widen 5 10 half.1)⟩, half.2)
  else if info = 26 then
    (readBigEndian 4 bytes).map fun single =>
      (.float ⟨UInt64.ofNat (Binary64.widen 8 23 single.1)⟩, single.2)
  else if info = 27 then
    (readBigEndian 8 bytes).map fun double => (.float ⟨UInt64.ofNat double.1⟩, double.2)
  else none

theorem narrow_lt (expBits fracBits : Nat) (x : Binary64) :
    x.narrow expBits fracBits < 2 * 2 ^ (expBits + fracBits) := by
  have hsign : x.bits.toNat / 2 ^ 63 ≤ 1 := by
    have hbits := x.bits.toNat_lt
    omega
  have hle := Nat.mul_le_mul_right (2 ^ (expBits + fracBits)) hsign
  rw [Nat.one_mul] at hle
  rw [Nat.two_mul, Binary64.narrow]
  exact Nat.add_lt_add_of_le_of_lt hle (Nat.mod_lt _ (Nat.two_pow_pos _))

theorem readSimple_encodeFloat (x : Binary64) :
    ∃ info tail, info < 32 ∧ encodeFloat x = initial 7 info :: tail ∧
      ∀ rest, readSimple info (tail ++ rest) = some (.float x, rest) := by
  unfold encodeFloat
  split
  · next hhalf =>
    have hlt : x.narrow 5 10 < 256 ^ 2 := narrow_lt 5 10 x
    refine ⟨25, _, by decide, rfl, ?_⟩
    intro rest
    simp [readSimple, readBigEndian_append hlt, hhalf]
  · split
    · next hsingle =>
      have hlt : x.narrow 8 23 < 256 ^ 4 := narrow_lt 8 23 x
      refine ⟨26, _, by decide, rfl, ?_⟩
      intro rest
      simp [readSimple, readBigEndian_append hlt, hsingle]
    · have hlt : x.bits.toNat < 256 ^ 8 := x.bits.toNat_lt
      refine ⟨27, _, by decide, rfl, ?_⟩
      intro rest
      simp [readSimple, readBigEndian_append hlt]

-- from the examples of the RFC: 0.0, 1.5, 65504.0, the smallest half, 100000.0, 1.1, infinity, NaN
example : [0x0000000000000000, 0x3FF8000000000000, 0x40EFFC0000000000, 0x3E70000000000000,
      0x40F86A0000000000, 0x3FF199999999999A, 0x7FF0000000000000, 0x7FF8000000000000].map
        (fun bits => encodeFloat ⟨bits⟩) =
    [[0xF9, 0x00, 0x00], [0xF9, 0x3E, 0x00], [0xF9, 0x7B, 0xFF], [0xF9, 0x00, 0x01],
      [0xFA, 0x47, 0xC3, 0x50, 0x00], [0xFB, 0x3F, 0xF1, 0x99, 0x99, 0x99, 0x99, 0x99, 0x9A],
      [0xF9, 0x7C, 0x00], [0xF9, 0x7E, 0x00]] := by
  decide +kernel

/-! ### Values -/

def utf8 (s : String) : List UInt8 := s.toUTF8.data.toList

mutual
def encode : Value → List UInt8
  | .null => [initial 7 22]
  | .bool b => [initial 7 (if b then 21 else 20)]
  | .int (.ofNat n) => head 0 n
  | .int (.negSucc n) => head 1 n
  | .float x => encodeFloat x
  | .text s => head 3 (utf8 s).length ++ utf8 s
  | .bytes b => head 2 b.length ++ b
  | .seq items => head 4 items.length ++ encodeItems items
  | .map entries => head 5 entries.length ++ encodeEntries entries

def encodeItems : List Value → List UInt8
  | [] => []
  | value :: items => encode value ++ encodeItems items

def encodeEntries : List (Value × Value) → List UInt8
  | [] => []
  | (key, value) :: entries => encode key ++ encode value ++ encodeEntries entries
end

def encodeEntry (entry : Value × Value) : List UInt8 := encode entry.1 ++ encode entry.2

theorem encodeItems_eq (items : List Value) : encodeItems items = items.flatMap encode := by
  induction items with
  | nil => rfl
  | cons value items ih => rw [encodeItems, ih, List.flatMap_cons]

theorem encodeEntries_eq (entries : List (Value × Value)) :
    encodeEntries entries = entries.flatMap encodeEntry := by
  induction entries with
  | nil => rfl
  | cons entry entries ih => rw [encodeEntries, ih, List.flatMap_cons, encodeEntry]

/-- The item of a major type with its argument, the nested items read by `read`. -/
def readItem (read : List UInt8 → Option (Value × List UInt8)) (major n : Nat)
    (bytes : List UInt8) : Option (Value × List UInt8) :=
  match major with
  | 0 => some (.int n, bytes)
  | 1 => some (.int (.negSucc n), bytes)
  | 2 => (readBytes n bytes).map fun found => (.bytes found.1, found.2)
  | 3 =>
      (readBytes n bytes).bind fun found =>
        (String.fromUTF8? ⟨found.1.toArray⟩).map fun s => (.text s, found.2)
  | 4 => (decodeMany read n bytes).map fun found => (.seq found.1, found.2)
  | 5 => (decodeMany (decodePair read) n bytes).map fun found => (.map found.1, found.2)
  | _ => none

/-- Read an item nested at most `depth` deep. -/
def decode : Nat → List UInt8 → Option (Value × List UInt8)
  | 0, _ => none
  | _ + 1, [] => none
  | depth + 1, first :: rest =>
      if first.toNat / 32 = 7 then readSimple (first.toNat % 32) rest
      else
        (readArgument (first.toNat % 32) rest).bind fun argument =>
          readItem (decode depth) (first.toNat / 32) argument.1 argument.2

theorem decode_initial {major info : Nat} (hmajor : major < 7) (hinfo : info < 32) (depth : Nat)
    (rest : List UInt8) :
    decode (depth + 1) (initial major info :: rest) =
      (readArgument info rest).bind fun argument =>
        readItem (decode depth) major argument.1 argument.2 := by
  rw [decode, toNat_initial (by omega) hinfo, if_neg (by omega),
    show (major * 32 + info) / 32 = major by omega, show (major * 32 + info) % 32 = info by omega]

theorem decode_simple {info : Nat} (hinfo : info < 32) (depth : Nat) (rest : List UInt8) :
    decode (depth + 1) (initial 7 info :: rest) = readSimple info rest := by
  rw [decode, toNat_initial (by omega) hinfo, if_pos (by omega),
    show (7 * 32 + info) % 32 = info by omega]

/-- Behind a head stands what its major type says. -/
theorem decode_head {major n : Nat} (hmajor : major < 7) (depth : Nat) (rest : List UInt8) :
    decode (depth + 1) (head major n ++ rest) = readItem (decode depth) major n rest := by
  obtain ⟨info, tail, hinfo, hhead, hread⟩ := exists_head major n
  rw [hhead, List.cons_append, decode_initial hmajor hinfo, hread, Option.bind_some]

theorem length_head_pos (major n : Nat) : 0 < (head major n).length := by
  obtain ⟨info, tail, -, hhead, -⟩ := exists_head major n
  rw [hhead, List.length_cons]
  omega

theorem length_encode_pos (value : Value) : 0 < (encode value).length := by
  have hhead := length_head_pos
  rcases value with _ | b | (n | n) | x | s | b | items | entries
  case float =>
    obtain ⟨info, tail, -, hfloat, -⟩ := readSimple_encodeFloat x
    rw [encode, hfloat, List.length_cons]
    omega
  all_goals simp [encode, hhead]

/-- An item that fits leaves a level for what is nested in it. -/
theorem exists_depth {value : Value} {depth : Nat} (h : (encode value).length ≤ depth) :
    ∃ inner, depth = inner + 1 :=
  Nat.exists_eq_add_one.mpr (Nat.lt_of_lt_of_le (length_encode_pos value) h)

theorem fromUTF8_utf8 (s : String) : String.fromUTF8? ⟨(utf8 s).toArray⟩ = some s := by
  have hbytes : (⟨(utf8 s).toArray⟩ : ByteArray) = s.toUTF8 := rfl
  have hvalid : s.toUTF8.IsValidUTF8 := s.isValidUTF8
  rw [hbytes, String.fromUTF8?, dif_pos hvalid]
  rfl

/-- What was written is read back, with a level for the item and the others for what is
    nested in it. -/
theorem decode_succ_encode (value : Value) :
    ∀ depth rest, (encode value).length ≤ depth + 1 →
      decode (depth + 1) (encode value ++ rest) = some (value, rest) := by
  induction value using Value.induction with
  | null =>
    intro depth rest _
    rfl
  | bool b =>
    intro depth rest _
    cases b <;> rfl
  | int n =>
    intro depth rest _
    rcases n with n | n
    · rw [encode, decode_head (by omega)]
      rfl
    · rw [encode, decode_head (by omega)]
      rfl
  | float x =>
    intro depth rest _
    obtain ⟨info, tail, hinfo, hfloat, hread⟩ := readSimple_encodeFloat x
    rw [encode, hfloat, List.cons_append, decode_simple hinfo, hread]
  | text s =>
    intro depth rest _
    rw [encode, List.append_assoc, decode_head (by omega), readItem, readBytes_append,
      Option.bind_some, fromUTF8_utf8, Option.map_some]
  | bytes b =>
    intro depth rest _
    rw [encode, List.append_assoc, decode_head (by omega), readItem, readBytes_append,
      Option.map_some]
  | seq items ih =>
    intro depth rest hdepth
    rw [encode, encodeItems_eq, List.length_append] at hdepth
    have hhead := length_head_pos 4 items.length
    have hitem : ∀ item ∈ items, ∀ rest,
        decode depth (encode item ++ rest) = some (item, rest) := by
      intro item hmem rest
      have hlen := length_le_flatMap encode hmem
      obtain ⟨inner, rfl⟩ := exists_depth (show (encode item).length ≤ depth by omega)
      exact ih item hmem inner rest (by omega)
    rw [encode, encodeItems_eq, List.append_assoc, decode_head (by omega), readItem,
      decodeMany_flatMap hitem, Option.map_some]
  | map entries ih =>
    intro depth rest hdepth
    rw [encode, encodeEntries_eq, List.length_append] at hdepth
    have hhead := length_head_pos 5 entries.length
    have hentry : ∀ entry ∈ entries, ∀ rest,
        decodePair (decode depth) (encodeEntry entry ++ rest) = some (entry, rest) := by
      intro entry hmem rest
      have hlen := length_le_flatMap encodeEntry hmem
      rw [encodeEntry, List.length_append] at hlen
      obtain ⟨inner, rfl⟩ := exists_depth (show (encode entry.1).length ≤ depth by omega)
      rw [decodePair, encodeEntry, List.append_assoc, (ih entry hmem).1 inner _ (by omega),
        Option.bind_some, (ih entry hmem).2 inner _ (by omega), Option.map_some]
    rw [encode, encodeEntries_eq, List.append_assoc, decode_head (by omega), readItem,
      decodeMany_flatMap hentry, Option.map_some]

/-- **What was written is read back, and what follows is left over.** -/
theorem decode_encode (value : Value) (depth : Nat) (rest : List UInt8)
    (hdepth : (encode value).length ≤ depth) :
    decode depth (encode value ++ rest) = some (value, rest) := by
  obtain ⟨inner, rfl⟩ := exists_depth hdepth
  exact decode_succ_encode value inner rest hdepth

theorem encode_injective : Function.Injective encode := by
  intro left right heq
  have hleft := decode_encode left (encode left).length [] (Nat.le_refl _)
  have hright := decode_encode right (encode left).length [] (by rw [heq])
  rw [heq] at hleft hright
  exact (Prod.mk.inj (Option.some.inj (hleft.symm.trans hright))).1

/-! ### The deterministic form -/

/-- The keys of every map in the value are in the order of their encodings. -/
inductive Ordered : Value → Prop
  | null : Ordered .null
  | bool (b : Bool) : Ordered (.bool b)
  | int (n : Int) : Ordered (.int n)
  | float (x : Binary64) : Ordered (.float x)
  | text (s : String) : Ordered (.text s)
  | bytes (b : List UInt8) : Ordered (.bytes b)
  | seq (items : List Value) (hitems : ∀ item ∈ items, Ordered item) : Ordered (.seq items)
  | map (entries : List (Value × Value))
      (hkeys : (entries.map fun entry => encode entry.1).Pairwise (· < ·))
      (hnested : ∀ entry ∈ entries, Ordered entry.1) (hvalues : ∀ entry ∈ entries, Ordered entry.2) :
      Ordered (.map entries)

/-- One item in deterministic form: definite lengths, shortest heads and floats, and
    ordered keys. -/
def Deterministic (bytes : List UInt8) : Prop := ∃ value, Ordered value ∧ encode value = bytes

theorem deterministic_encode_iff (value : Value) : Deterministic (encode value) ↔ Ordered value := by
  constructor
  · rintro ⟨other, hordered, heq⟩
    rw [← encode_injective heq]
    exact hordered
  · intro hordered
    exact ⟨value, hordered, rfl⟩

/-! ### The format -/

def readFront (bytes : List UInt8) : Except String (Value × List UInt8) :=
  match decode bytes.length bytes with
  | some found => .ok found
  | none => .error "Syntax"

theorem readFront_encode (value : Value) (rest : List UInt8) :
    readFront (encode value ++ rest) = .ok (value, rest) := by
  have hdecode := decode_encode value (encode value ++ rest).length rest (by simp)
  rw [readFront, hdecode]

/-- A CBOR library: it writes values as above, and it reads one item from the front of its
    input and leaves the rest unread. -/
structure Codec extends Exact where
  readItem : List UInt8 → Except String (Value × List UInt8)
  writes : ∀ value, Portable value → toVec value = .ok (encode value)
  reads_front : ∀ bytes, fromSlice bytes = (readItem bytes).map Prod.fst
  leaves_rest : ∀ value rest, Portable value → readItem (encode value ++ rest) = .ok (value, rest)

def codec : Codec where
  toVec value := .ok (encode value)
  fromSlice bytes := (readFront bytes).map Prod.fst
  carries value _ := by
    have hread := readFront_encode value []
    rw [List.append_nil] at hread
    exact ⟨encode value, rfl, by simp only [hread]; rfl⟩
  readItem := readFront
  writes _ _ := rfl
  reads_front _ := rfl
  leaves_rest value rest _ := readFront_encode value rest

end Cbor
