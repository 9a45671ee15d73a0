import Mathlib

/-!
# Peer identifiers and lowercase hex

`PeerId` is the 32-byte Ed25519 public key that addresses a peer
(`furcate-mesh-core/src/lib.rs`); its derived order is the lexicographic order of
the bytes.  `hexEncode` is `hex::encode`, the text form of keys and digests, and
`hexDecode` is `hex::decode`, which also takes uppercase digits.

`IsHexDigest` is the text form that the program writes, 64 lowercase digits; `IsHexText` is
what `PeerId::from_hex` reads, 64 digits of either case.  A text that is read is the text of
the peer up to case (`fromHex_eq_ok`), and no text is read as two peers.

The decoders look at bytes, so the length they check is that of the UTF-8 form; a text with a
character outside ASCII fails there or at the digits.  Positions in errors count bytes as
well.  Facts about digits of either case are proved for all 128 ASCII characters at once
(`hexVal_table`).
-/

namespace FurcateMesh

abbrev Bytes := List UInt8

/-! ### `hex::encode` -/

def hexDigits : List Char :=
  ['0', '1', '2', '3', '4', '5', '6', '7', '8', '9', 'a', 'b', 'c', 'd', 'e', 'f']

def hexByte (byte : UInt8) : List Char :=
  [hexDigits.getD (byte.toNat / 16) '0', hexDigits.getD (byte.toNat % 16) '0']

def hexEncode (bytes : Bytes) : String := String.ofList (bytes.flatMap hexByte)

/-- The text form of a 32-byte digest: exactly 64 lowercase hex digits. -/
def IsHexDigest (text : String) : Prop :=
  text.toList.length = 64 ∧ ∀ c ∈ text.toList, c ∈ hexDigits

def IsHexText (text : String) : Prop :=
  text.toList.length = 64 ∧ ∀ c ∈ text.toList, c ∈ hexDigits ∨ c ∈ ['A', 'B', 'C', 'D', 'E', 'F']

-- The list instance by name: `Char` is finite, so search may enumerate all of it instead.
instance (text : String) : Decidable (IsHexDigest text) :=
  @instDecidableAnd _ _ _ (List.decidableBAll (fun c => c ∈ hexDigits) text.toList)

theorem hexDigits_getD_mem {n : Nat} (hn : n < 16) : hexDigits.getD n '0' ∈ hexDigits := by
  have hlen : hexDigits.length = 16 := rfl
  rw [List.getD_eq_getElem _ _ (by omega)]
  exact List.getElem_mem _

theorem mem_hexByte {byte : UInt8} {c : Char} (hc : c ∈ hexByte byte) : c ∈ hexDigits := by
  have hbyte : byte.toNat < 256 := UInt8.toNat_lt byte
  simp only [hexByte, List.mem_cons, List.not_mem_nil, or_false] at hc
  rcases hc with rfl | rfl
  · exact hexDigits_getD_mem (by omega)
  · exact hexDigits_getD_mem (by omega)

theorem length_flatMap_hexByte (bytes : Bytes) :
    (bytes.flatMap hexByte).length = 2 * bytes.length := by
  induction bytes with
  | nil => rfl
  | cons byte bytes ih =>
    rw [List.flatMap_cons, List.length_append, ih, List.length_cons]
    simp only [hexByte, List.length_cons, List.length_nil]
    omega

theorem hexEncode_isHexDigest {bytes : Bytes} (hlen : bytes.length = 32) :
    IsHexDigest (hexEncode bytes) := by
  constructor
  · rw [hexEncode, String.toList_ofList, length_flatMap_hexByte, hlen]
  · intro c hc
    rw [hexEncode, String.toList_ofList, List.mem_flatMap] at hc
    obtain ⟨byte, _, hbyte⟩ := hc
    exact mem_hexByte hbyte

/-! ### `hex::decode` -/

inductive FromHexError where
  | invalidHexCharacter (index : Nat)
  | oddLength
  | invalidStringLength
deriving DecidableEq, Repr

def hexVal (c : Char) : Option Nat :=
  if 'A' ≤ c ∧ c ≤ 'F' then some (c.toNat - 'A'.toNat + 10)
  else if 'a' ≤ c ∧ c ≤ 'f' then some (c.toNat - 'a'.toNat + 10)
  else if '0' ≤ c ∧ c ≤ '9' then some (c.toNat - '0'.toNat)
  else none

def hexPairs (index : Nat) : List Char → Except FromHexError Bytes
  | [] => .ok []
  | [c] => .error (if (hexVal c).isNone then .invalidHexCharacter index else .oddLength)
  | high :: low :: rest =>
      match hexVal high, hexVal low with
      | none, _ => .error (.invalidHexCharacter index)
      | some _, none => .error (.invalidHexCharacter (index + 1))
      | some h, some l => (hexPairs (index + 2) rest).map (UInt8.ofNat (16 * h + l) :: ·)

/-- The length is that of the text's UTF-8 form. -/
def hexDecode (text : String) : Except FromHexError Bytes :=
  if text.utf8ByteSize % 2 ≠ 0 then .error .oddLength else hexPairs 0 text.toList

/-- `<[u8; 32]>::try_from`. -/
def toArray32 (bytes : Bytes) : Option (Vector UInt8 32) :=
  if h : bytes.length = 32 then some ⟨bytes.toArray, h⟩ else none

/-- `hex::decode_to_slice` into a 32-byte array. -/
def hexDecodeToSlice (text : String) : Except FromHexError (Vector UInt8 32) :=
  if text.utf8ByteSize % 2 ≠ 0 then .error .oddLength
  else if text.utf8ByteSize / 2 ≠ 32 then .error .invalidStringLength
  else
    match hexPairs 0 text.toList with
    | .error e => .error e
    | .ok bytes => (toArray32 bytes).elim (.error .invalidStringLength) .ok

theorem hexVal_hexDigit : ∀ n < 16, hexVal (hexDigits.getD n '0') = some n := by decide

theorem hexPairs_flatMap (bytes : Bytes) :
    ∀ index, hexPairs index (bytes.flatMap hexByte) = .ok bytes := by
  induction bytes with
  | nil => intro index; rfl
  | cons byte bytes ih =>
    intro index
    have hbyte := UInt8.toNat_lt byte
    have hsplit : 16 * (byte.toNat / 16) + byte.toNat % 16 = byte.toNat := Nat.div_add_mod _ _
    simp only [List.flatMap_cons, hexByte, List.cons_append, List.nil_append, hexPairs,
      hexVal_hexDigit (byte.toNat / 16) (by omega), hexVal_hexDigit (byte.toNat % 16) (by omega),
      ih, Except.map, hsplit, UInt8.ofNat_toNat]

theorem utf8Len_of_hex {chars : List Char} (h : ∀ c ∈ chars, c ∈ hexDigits) :
    String.utf8Len chars = chars.length := by
  have hone : hexDigits.all (fun c => decide (c.utf8Size = 1)) = true := by decide
  induction chars with
  | nil => rfl
  | cons c chars ih =>
    have hc := of_decide_eq_true (List.all_eq_true.mp hone c (h c List.mem_cons_self))
    rw [String.utf8Len, ih fun d hd => h d (List.mem_cons_of_mem c hd), hc, List.length_cons]

theorem utf8ByteSize_hexEncode (bytes : Bytes) :
    (hexEncode bytes).utf8ByteSize = 2 * bytes.length := by
  have hhex : ∀ c ∈ bytes.flatMap hexByte, c ∈ hexDigits := by
    intro c hc
    obtain ⟨byte, _, hbyte⟩ := List.mem_flatMap.mp hc
    exact mem_hexByte hbyte
  rw [hexEncode, String.utf8ByteSize_ofList, utf8Len_of_hex hhex, length_flatMap_hexByte]

theorem hexDecode_hexEncode (bytes : Bytes) : hexDecode (hexEncode bytes) = .ok bytes := by
  rw [hexDecode, utf8ByteSize_hexEncode, if_neg (by omega), hexEncode, String.toList_ofList,
    hexPairs_flatMap]

theorem toArray32_toList (bytes : Vector UInt8 32) : toArray32 bytes.toList = some bytes := by
  rw [toArray32, dif_pos (Vector.length_toList)]
  rfl

theorem hexDecodeToSlice_hexEncode (bytes : Vector UInt8 32) :
    hexDecodeToSlice (hexEncode bytes.toList) = .ok bytes := by
  have hlen : bytes.toList.length = 32 := Vector.length_toList
  rw [hexDecodeToSlice, utf8ByteSize_hexEncode, hlen, if_neg (by omega), if_neg (by omega),
    hexEncode, String.toList_ofList, hexPairs_flatMap]
  simp only [toArray32_toList, Option.elim_some]

/-! ### What the decoders accept -/

def toAsciiLowercase (text : String) : String := String.ofList (text.toList.map Char.toLower)

theorem exists_ofNat_of_isUpper {c : Char} (h : c.isUpper = true) :
    ∃ m, 65 ≤ m ∧ m < 91 ∧ c = Char.ofNat m := by
  simp only [Char.isUpper, ge_iff_le, decide_eq_true_eq] at h
  exact ⟨c.toNat, h.1, Nat.lt_succ_of_le h.2, (Char.ofNat_toNat c).symm⟩

/-- What does not tell apart the two cases of a letter does not see `toLower`. -/
theorem apply_toLower {α : Type} {f : Char → α}
    (hletter : ∀ m, 65 ≤ m → m < 91 → f (Char.ofNat m).toLower = f (Char.ofNat m)) (c : Char) :
    f c.toLower = f c := by
  by_cases hupper : c.isUpper = true
  · obtain ⟨m, hlow, hhigh, rfl⟩ := exists_ofNat_of_isUpper hupper
    exact hletter m hlow hhigh
  · rw [Char.toLower_eq_of_not_isUpper hupper]

theorem hexVal_toLower (c : Char) : hexVal c.toLower = hexVal c := by
  apply apply_toLower
  intro m hlow hhigh
  interval_cases m <;> rfl

theorem utf8Size_toLower (c : Char) : c.toLower.utf8Size = c.utf8Size := by
  apply apply_toLower
  intro m hlow hhigh
  interval_cases m <;> rfl

theorem toNat_lt_of_hexVal {c : Char} {n : Nat} (h : hexVal c = some n) : c.toNat < 103 := by
  have hle : c ≤ 'f' := by
    rw [hexVal] at h
    split at h
    · next hupper => exact hupper.2.trans (by decide)
    · split at h
      · next hlower => exact hlower.2
      · split at h
        · next hdigit => exact hdigit.2.trans (by decide)
        · cases h
  exact Nat.lt_succ_of_le hle

theorem hexVal_table :
    ∀ m < 103, ∀ n ∈ hexVal (Char.ofNat m),
      n < 16 ∧ (Char.ofNat m).toLower = hexDigits.getD n '0' := by
  decide

theorem toLower_of_hexVal {c : Char} {n : Nat} (h : hexVal c = some n) :
    n < 16 ∧ c.toLower = hexDigits.getD n '0' := by
  have htable := hexVal_table c.toNat (toNat_lt_of_hexVal h) n
  rw [Char.ofNat_toNat] at htable
  exact htable h

theorem hexByte_ofNat {h l : Nat} (hh : h < 16) (hl : l < 16) :
    hexByte (UInt8.ofNat (16 * h + l)) = [hexDigits.getD h '0', hexDigits.getD l '0'] := by
  have hvalue : (UInt8.ofNat (16 * h + l)).toNat = 16 * h + l :=
    UInt8.toNat_ofNat_of_lt' (show 16 * h + l < 2 ^ 8 by omega)
  rw [hexByte, hvalue, show (16 * h + l) / 16 = h by omega, show (16 * h + l) % 16 = l by omega]

theorem hexPairs_map_toLower (index : Nat) (chars : List Char) :
    hexPairs index (chars.map Char.toLower) = hexPairs index chars := by
  fun_induction hexPairs index chars with
  | case1 index => rfl
  | case2 index c => simp only [List.map_cons, List.map_nil, hexPairs, hexVal_toLower]
  | case3 index high low rest hhigh =>
    simp only [List.map_cons, hexPairs, hexVal_toLower, hhigh]
  | case4 index high low rest h hhigh hlow =>
    simp only [List.map_cons, hexPairs, hexVal_toLower, hhigh, hlow]
  | case5 index high low rest h l hhigh hlow ih =>
    simp only [List.map_cons, hexPairs, hexVal_toLower, hhigh, hlow, ih]

theorem flatMap_hexByte_of_hexPairs {index : Nat} {chars : List Char} {bytes : Bytes}
    (hok : hexPairs index chars = .ok bytes) :
    bytes.flatMap hexByte = chars.map Char.toLower := by
  fun_induction hexPairs index chars generalizing bytes with
  | case1 index => cases hok; rfl
  | case2 index c => cases hok
  | case3 index high low rest hhigh => cases hok
  | case4 index high low rest h hhigh hlow => cases hok
  | case5 index high low rest h l hlow hhigh ih =>
    rcases hrest : hexPairs (index + 2) rest with e | tail
    · rw [hrest] at hok; cases hok
    · rw [hrest] at hok
      cases hok
      obtain ⟨hh, hhigh⟩ := toLower_of_hexVal hhigh
      obtain ⟨hl, hlow⟩ := toLower_of_hexVal hlow
      rw [List.flatMap_cons, hexByte_ofNat hh hl, ih hrest, List.map_cons, List.map_cons, hhigh,
        hlow]
      rfl

/-- Pairs of digits decode to the bytes whose digits they are, up to case. -/
theorem hexPairs_eq_ok {index : Nat} {chars : List Char} {bytes : Bytes} :
    hexPairs index chars = .ok bytes ↔ bytes.flatMap hexByte = chars.map Char.toLower := by
  constructor
  · exact flatMap_hexByte_of_hexPairs
  · intro h
    rw [← hexPairs_map_toLower, ← h, hexPairs_flatMap]

theorem utf8Len_map_toLower (chars : List Char) :
    String.utf8Len (chars.map Char.toLower) = String.utf8Len chars := by
  induction chars with
  | nil => rfl
  | cons c chars ih => rw [List.map_cons, String.utf8Len, String.utf8Len, ih, utf8Size_toLower]

theorem utf8ByteSize_toAsciiLowercase (text : String) :
    (toAsciiLowercase text).utf8ByteSize = text.utf8ByteSize := by
  conv_rhs => rw [← String.ofList_toList (s := text)]
  rw [toAsciiLowercase, String.utf8ByteSize_ofList, utf8Len_map_toLower,
    String.utf8ByteSize_ofList]

theorem hexEncode_eq_iff {bytes : Bytes} {text : String} :
    hexEncode bytes = toAsciiLowercase text ↔
      bytes.flatMap hexByte = text.toList.map Char.toLower := by
  rw [hexEncode, toAsciiLowercase, String.ofList_inj]

theorem hexDecode_eq_ok {text : String} {bytes : Bytes} :
    hexDecode text = .ok bytes ↔ hexEncode bytes = toAsciiLowercase text := by
  rw [hexEncode_eq_iff, hexDecode]
  constructor
  · intro h
    split at h
    · cases h
    · exact hexPairs_eq_ok.mp h
  · intro h
    have hsize : text.utf8ByteSize = 2 * bytes.length := by
      rw [← utf8ByteSize_toAsciiLowercase, ← hexEncode_eq_iff.mpr h, utf8ByteSize_hexEncode]
    rw [if_neg (by omega)]
    exact hexPairs_eq_ok.mpr h

theorem toArray32_eq_some {bytes : Bytes} {array : Vector UInt8 32} :
    toArray32 bytes = some array ↔ bytes = array.toList := by
  constructor
  · intro h
    rw [toArray32] at h
    split at h
    · cases h; rfl
    · cases h
  · rintro rfl
    exact toArray32_toList array

theorem isUpper_of_hexDigit {c : Char} (hc : c ∈ hexDigits) : c.isUpper = false := by
  have hall : hexDigits.all (fun c => !c.isUpper) = true := by decide
  simpa using List.all_eq_true.mp hall c hc

theorem hexPairs_of_digits {index : Nat} {chars : List Char}
    (hdigits : ∀ c ∈ chars, c ∈ hexDigits) (heven : chars.length % 2 = 0) :
    ∃ bytes, hexPairs index chars = .ok bytes := by
  have hsome : hexDigits.all (fun c => (hexVal c).isSome) = true := by decide
  fun_induction hexPairs index chars with
  | case1 index => exact ⟨[], rfl⟩
  | case2 index c => simp at heven
  | case3 index high low rest hhigh =>
    have h := List.all_eq_true.mp hsome high (hdigits high (by simp))
    simp [hhigh] at h
  | case4 index high low rest h hlow hhigh =>
    have h := List.all_eq_true.mp hsome low (hdigits low (by simp))
    simp [hlow] at h
  | case5 index high low rest h l hlow hhigh ih =>
    simp only [List.length_cons] at heven
    obtain ⟨bytes, hbytes⟩ := ih (fun c hc => hdigits c (by simp [hc])) (by omega)
    exact ⟨UInt8.ofNat (16 * h + l) :: bytes, by rw [hbytes]; rfl⟩

theorem toAsciiLowercase_of_not_upper {text : String}
    (h : ∀ c ∈ text.toList, c.isUpper = false) : toAsciiLowercase text = text := by
  have hmap : text.toList.map Char.toLower = text.toList :=
    (List.map_congr_left fun c hc => Char.toLower_eq_of_not_isUpper (by simp [h c hc])).trans
      (List.map_id _)
  rw [toAsciiLowercase, hmap, String.ofList_toList]

theorem hexDecodeToSlice_eq_ok {text : String} {bytes : Vector UInt8 32} :
    hexDecodeToSlice text = .ok bytes ↔ hexEncode bytes.toList = toAsciiLowercase text := by
  constructor
  · intro h
    rw [hexDecodeToSlice] at h
    split at h
    · cases h
    · split at h
      · cases h
      · split at h
        · cases h
        · next decoded hpairs =>
          rcases harray : toArray32 decoded with _ | array
          · rw [harray] at h; cases h
          · rw [harray] at h
            cases h
            rw [hexEncode_eq_iff, ← toArray32_eq_some.mp harray]
            exact hexPairs_eq_ok.mp hpairs
  · intro h
    have hlen : bytes.toList.length = 32 := Vector.length_toList
    have hsize : text.utf8ByteSize = 64 := by
      rw [← utf8ByteSize_toAsciiLowercase, ← h, utf8ByteSize_hexEncode, hlen]
    rw [hexDecodeToSlice, if_neg (by omega), if_neg (by omega),
      hexPairs_eq_ok.mpr (hexEncode_eq_iff.mp h)]
    simp only [toArray32_toList, Option.elim_some]

theorem isHexDigest_iff {text : String} :
    IsHexDigest text ↔ ∃ bytes : Vector UInt8 32, hexEncode bytes.toList = text := by
  constructor
  · rintro ⟨hlen, hdigits⟩
    obtain ⟨bytes, hbytes⟩ := @hexPairs_of_digits 0 _ hdigits (by omega)
    have hlower := toAsciiLowercase_of_not_upper fun c hc => isUpper_of_hexDigit (hdigits c hc)
    have hencode : hexEncode bytes = text :=
      (hexEncode_eq_iff.mpr (hexPairs_eq_ok.mp hbytes)).trans hlower
    have hlen32 : bytes.length = 32 := by
      rw [← hencode, hexEncode, String.toList_ofList, length_flatMap_hexByte] at hlen
      omega
    exact ⟨⟨bytes.toArray, hlen32⟩, hencode⟩
  · rintro ⟨bytes, rfl⟩
    exact hexEncode_isHexDigest Vector.length_toList

theorem toLower_mem_hexDigits {c : Char} :
    c.toLower ∈ hexDigits ↔ c ∈ hexDigits ∨ c ∈ ['A', 'B', 'C', 'D', 'E', 'F'] := by
  by_cases hupper : c.isUpper = true
  · obtain ⟨m, hlow, hhigh, rfl⟩ := exists_ofNat_of_isUpper hupper
    interval_cases m <;> decide
  · have hother : c ∉ ['A', 'B', 'C', 'D', 'E', 'F'] := fun hmem => by
      have hall : ['A', 'B', 'C', 'D', 'E', 'F'].all Char.isUpper = true := by decide
      exact hupper (List.all_eq_true.mp hall c hmem)
    rw [Char.toLower_eq_of_not_isUpper hupper, or_iff_left hother]

theorem isHexText_iff {text : String} : IsHexText text ↔ IsHexDigest (toAsciiLowercase text) := by
  simp only [IsHexText, IsHexDigest, toAsciiLowercase, String.toList_ofList, List.length_map,
    List.forall_mem_map, toLower_mem_hexDigits]

/-! ### `PeerId` -/

/-- 32-byte Ed25519 public key, the only stable peer address. -/
structure PeerId where
  bytes : Vector UInt8 32

namespace PeerId

def toHex (peer : PeerId) : String := hexEncode peer.bytes.toList

/-- Short form: the first 6 hex digits. -/
def short (peer : PeerId) : String := hexEncode (peer.bytes.toList.take 3)

/-- The byte values in order: what the derived `Ord` compares. -/
def key (peer : PeerId) : List Nat := peer.bytes.toList.map UInt8.toNat

theorem key_injective : Function.Injective key := by
  intro left right heq
  have hinj : Function.Injective UInt8.toNat := fun _ _ h => UInt8.toNat_inj.mp h
  have hlist := List.map_injective_iff.mpr hinj heq
  have hbytes : left.bytes = right.bytes := Vector.toList_inj.mp hlist
  cases left
  cases right
  rw [PeerId.mk.injEq]
  exact hbytes

instance : LinearOrder PeerId := LinearOrder.lift' key key_injective

inductive ParseError where
  | wrongLength
  | malformed
deriving DecidableEq, Repr

def ParseError.display : ParseError → String
  | wrongLength => "peer id must be 32 bytes (64 hex chars)"
  | malformed => "peer id is not valid hex"

def fromHex (text : String) : Except ParseError PeerId :=
  match hexDecode text with
  | .error _ => .error .malformed
  | .ok bytes => (toArray32 bytes).elim (.error .wrongLength) fun array => .ok ⟨array⟩

theorem fromHex_toHex (peer : PeerId) : fromHex peer.toHex = .ok peer := by
  simp only [fromHex, toHex, hexDecode_hexEncode, toArray32_toList, Option.elim_some]

/-- A text is read as the peer whose lowercase hex it is, up to case. -/
theorem fromHex_eq_ok {text : String} {peer : PeerId} :
    fromHex text = .ok peer ↔ peer.toHex = toAsciiLowercase text := by
  rw [toHex, ← hexDecode_eq_ok, fromHex]
  rcases hexDecode text with e | bytes
  · simp
  · have hread : ((toArray32 bytes).elim (.error .wrongLength) fun array => .ok ⟨array⟩ :
        Except ParseError PeerId) = .ok peer ↔ toArray32 bytes = some peer.bytes := by
      rcases toArray32 bytes with _ | array
      · simp
      · rcases peer with ⟨own⟩
        simp
    simpa using hread.trans toArray32_eq_some

theorem exists_fromHex_iff {text : String} :
    (∃ peer, fromHex text = .ok peer) ↔ IsHexText text := by
  simp only [fromHex_eq_ok, isHexText_iff, isHexDigest_iff]
  exact ⟨fun ⟨peer, h⟩ => ⟨peer.bytes, h⟩, fun ⟨bytes, h⟩ => ⟨⟨bytes⟩, h⟩⟩

theorem toHex_injective : Function.Injective toHex := by
  intro left right heq
  have hleft := fromHex_toHex left
  rw [heq, fromHex_toHex] at hleft
  exact (Except.ok.inj hleft).symm

theorem toHex_isHexDigest (peer : PeerId) : IsHexDigest peer.toHex :=
  hexEncode_isHexDigest Vector.length_toList

end PeerId

end FurcateMesh
