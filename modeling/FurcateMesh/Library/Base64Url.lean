import Mathlib

/-!
# Base64 with the URL-safe alphabet

Three bytes are four digits; one or two bytes at the end are two or three digits, with
or without padding.  The decoders take canonical texts only: the bits of the last digit
that belong to no byte are zero, and padding is either absent or complete.

A text without padding decodes to the bytes it was encoded from (`decode_encode`), and
each decoder takes one text for each byte string (`decodeNoPad_eq_some`,
`decodePadded_eq_some`).  So the two decoders, tried one after the other, never read one text
as two byte strings (`decoders_agree`).

Encoding goes through digit values: `splitBytes` cuts groups of three bytes into six-bit
numbers, `joinDigits` puts them together and refuses what no bytes give.  Arithmetic is done
there, on numbers, and the alphabet is a bijection on the values below 64.
-/

namespace Base64Url

def alphabet : List Char :=
  "ABCDEFGHIJKLMNOPQRSTUVWXYZabcdefghijklmnopqrstuvwxyz0123456789-_".toList

def digit (n : Nat) : Char := alphabet.getD n 'A'

def value (c : Char) : Option Nat :=
  if c ∈ alphabet then some (alphabet.idxOf c) else none

/-- The digit values of the bytes. -/
def splitBytes : List UInt8 → List Nat
  | a :: b :: c :: rest =>
      a.toNat / 4 :: (a.toNat % 4 * 16 + b.toNat / 16) ::
        (b.toNat % 16 * 4 + c.toNat / 64) :: c.toNat % 64 :: splitBytes rest
  | [a, b] => [a.toNat / 4, a.toNat % 4 * 16 + b.toNat / 16, b.toNat % 16 * 4]
  | [a] => [a.toNat / 4, a.toNat % 4 * 16]
  | [] => []

def encode (bytes : List UInt8) : List Char := (splitBytes bytes).map digit

def joinDigits : List Nat → Option (List UInt8)
  | p :: q :: r :: s :: rest =>
      (joinDigits rest).map fun bytes =>
        UInt8.ofNat (p * 4 + q / 16) :: UInt8.ofNat (q % 16 * 16 + r / 4) ::
          UInt8.ofNat (r % 4 * 64 + s) :: bytes
  | [p, q, r] =>
      if r % 4 = 0 then some [UInt8.ofNat (p * 4 + q / 16), UInt8.ofNat (q % 16 * 16 + r / 4)]
      else none
  | [p, q] => if q % 16 = 0 then some [UInt8.ofNat (p * 4 + q / 16)] else none
  | [_] => none
  | [] => some []

/-- Decode a text that must not be padded. -/
def decodeNoPad (text : List Char) : Option (List UInt8) :=
  (text.mapM value).bind joinDigits

/-- Decode a text that must be padded to a multiple of four. -/
def decodePadded (text : List Char) : Option (List UInt8) :=
  let body := text.takeWhile (· != '=')
  let padding := text.dropWhile (· != '=')
  if padding = List.replicate ((4 - body.length % 4) % 4) '=' then decodeNoPad body else none

/-! ### Round trip -/

theorem value_digit : ∀ n < 64, value (digit n) = some n := by decide +kernel

theorem splitBytes_lt (bytes : List UInt8) : ∀ n ∈ splitBytes bytes, n < 64 := by
  fun_induction splitBytes bytes with
  | case1 a b c rest ih =>
    have ha := UInt8.toNat_lt a
    have hb := UInt8.toNat_lt b
    have hc := UInt8.toNat_lt c
    simp only [List.forall_mem_cons]
    exact ⟨by omega, by omega, by omega, by omega, ih⟩
  | case2 a b =>
    have ha := UInt8.toNat_lt a
    have hb := UInt8.toNat_lt b
    simp only [List.forall_mem_cons]
    exact ⟨by omega, by omega, by omega, by simp⟩
  | case3 a =>
    have ha := UInt8.toNat_lt a
    simp only [List.forall_mem_cons]
    exact ⟨by omega, by omega, by simp⟩
  | case4 => simp

theorem mapM_value_map_digit {digits : List Nat} (h : ∀ n ∈ digits, n < 64) :
    (digits.map digit).mapM value = some digits := by
  induction digits with
  | nil => rfl
  | cons n digits ih =>
    rw [List.forall_mem_cons] at h
    simp [value_digit n h.1, ih h.2]

/-- A byte is put together again from its upper and lower bits. -/
theorem ofNat_join (byte : UInt8) {upper lower : Nat} (h : upper + lower = byte.toNat) :
    UInt8.ofNat (upper + lower) = byte := by
  rw [h, UInt8.ofNat_toNat]

theorem joinDigits_splitBytes (bytes : List UInt8) : joinDigits (splitBytes bytes) = some bytes := by
  fun_induction splitBytes bytes with
  | case1 a b c rest ih =>
    have hb := UInt8.toNat_lt b
    have hc := UInt8.toNat_lt c
    simp only [joinDigits, ih, Option.map_some]
    rw [ofNat_join a (by omega), ofNat_join b (by omega), ofNat_join c (by omega)]
  | case2 a b =>
    have hb := UInt8.toNat_lt b
    simp only [joinDigits]
    rw [if_pos (by omega), ofNat_join a (by omega), ofNat_join b (by omega)]
  | case3 a =>
    simp only [joinDigits]
    rw [if_pos (by omega), ofNat_join a (by omega)]
  | case4 => rfl

theorem decode_encode (bytes : List UInt8) : decodeNoPad (encode bytes) = some bytes := by
  rw [decodeNoPad, encode, mapM_value_map_digit (splitBytes_lt bytes), Option.bind_some,
    joinDigits_splitBytes]

/-! ### What the decoders accept -/

theorem digit_of_value {c : Char} {n : Nat} (h : value c = some n) : n < 64 ∧ c = digit n := by
  have hlength : alphabet.length = 64 := by decide
  rw [value] at h
  split at h
  · next hmem =>
    cases h
    have hlt : alphabet.idxOf c < alphabet.length := List.idxOf_lt_length_of_mem hmem
    rw [digit, List.getD_eq_getElem _ _ hlt, List.getElem_idxOf hlt]
    exact ⟨hlength ▸ hlt, rfl⟩
  · cases h

theorem map_digit_of_mapM_value {text : List Char} {digits : List Nat}
    (h : text.mapM value = some digits) : text = digits.map digit ∧ ∀ n ∈ digits, n < 64 := by
  induction text generalizing digits with
  | nil =>
    cases h
    exact ⟨rfl, by simp⟩
  | cons c text ih =>
    simp only [List.mapM_cons, Option.pure_def, Option.bind_eq_bind, Option.bind_eq_some_iff] at h
    obtain ⟨n, hn, rest, hrest, heq⟩ := h
    cases heq
    obtain ⟨hlt, rfl⟩ := digit_of_value hn
    obtain ⟨rfl, hall⟩ := ih hrest
    exact ⟨rfl, List.forall_mem_cons.mpr ⟨hlt, hall⟩⟩

theorem toNat_join {n : Nat} (h : n < 256) : (UInt8.ofNat n).toNat = n :=
  UInt8.toNat_ofNat_of_lt' h

theorem splitBytes_of_joinDigits {digits : List Nat} {bytes : List UInt8}
    (hlt : ∀ n ∈ digits, n < 64) (h : joinDigits digits = some bytes) :
    splitBytes bytes = digits := by
  fun_induction joinDigits digits generalizing bytes with
  | case1 p q r s rest ih =>
    simp only [List.forall_mem_cons] at hlt
    obtain ⟨hp, hq, hr, hs, hrest⟩ := hlt
    obtain ⟨tail, htail, rfl⟩ := Option.map_eq_some_iff.mp h
    rw [splitBytes, ih hrest htail, toNat_join (by omega), toNat_join (by omega),
      toNat_join (by omega)]
    congr 1
    · omega
    · congr 1
      · omega
      · congr 1
        · omega
        · congr 1
          omega
  | case2 p q r hzero =>
    simp only [List.forall_mem_cons] at hlt
    cases h
    rw [splitBytes, toNat_join (by omega), toNat_join (by omega)]
    simp only [List.cons.injEq, and_true]
    omega
  | case3 p q r hzero => cases h
  | case4 p q hzero =>
    simp only [List.forall_mem_cons] at hlt
    cases h
    rw [splitBytes, toNat_join (by omega)]
    simp only [List.cons.injEq, and_true]
    omega
  | case5 p q hzero => cases h
  | case6 p => cases h
  | case7 => cases h; rfl

theorem decodeNoPad_eq_some {text : List Char} {bytes : List UInt8} :
    decodeNoPad text = some bytes ↔ text = encode bytes := by
  constructor
  · intro h
    obtain ⟨digits, hdigits, hjoin⟩ := Option.bind_eq_some_iff.mp h
    obtain ⟨rfl, hlt⟩ := map_digit_of_mapM_value hdigits
    rw [encode, splitBytes_of_joinDigits hlt hjoin]
  · rintro rfl
    exact decode_encode bytes

theorem encode_ne_padding (bytes : List UInt8) : ∀ c ∈ encode bytes, c ≠ '=' := by
  have hno : ∀ n < 64, digit n ≠ '=' := by decide +kernel
  intro c hc
  obtain ⟨n, hn, rfl⟩ := List.mem_map.mp hc
  exact hno n (splitBytes_lt bytes n hn)

theorem span_padding {text : List Char} (htext : ∀ c ∈ text, c ≠ '=') (count : Nat) :
    (text ++ List.replicate count '=').takeWhile (· != '=') = text ∧
      (text ++ List.replicate count '=').dropWhile (· != '=') = List.replicate count '=' := by
  have hbody : ∀ c ∈ text, (c != '=') = true := fun c hc => by simp [htext c hc]
  rw [List.takeWhile_append_of_pos hbody, List.dropWhile_append_of_pos hbody]
  cases count <;> simp [List.replicate_succ]

theorem decodePadded_eq_some {text : List Char} {bytes : List UInt8} :
    decodePadded text = some bytes ↔
      text = encode bytes ++ List.replicate ((4 - (encode bytes).length % 4) % 4) '=' := by
  constructor
  · intro h
    rw [decodePadded] at h
    split at h
    · next hpadding =>
      have hbody := decodeNoPad_eq_some.mp h
      rw [hbody] at hpadding
      rw [← hpadding, ← hbody, List.takeWhile_append_dropWhile]
    · cases h
  · rintro rfl
    obtain ⟨hbody, hpadding⟩ :=
      span_padding (encode_ne_padding bytes) ((4 - (encode bytes).length % 4) % 4)
    simp only [decodePadded, hbody, hpadding, if_true, decode_encode]

theorem rdropWhile_padding {text : List Char} (htext : ∀ c ∈ text, c ≠ '=') (count : Nat) :
    (text ++ List.replicate count '=').rdropWhile (· == '=') = text := by
  induction count with
  | zero =>
    rw [List.replicate_zero, List.append_nil, List.rdropWhile_eq_self_iff]
    intro hne
    simpa using htext _ (List.getLast_mem hne)
  | succ count ih =>
    rw [List.replicate_succ', ← List.append_assoc, List.rdropWhile_concat_pos _ _ _ (by simp), ih]

theorem encode_injective : Function.Injective encode := by
  intro left right heq
  have hleft := decode_encode left
  rw [heq, decode_encode] at hleft
  exact (Option.some.inj hleft).symm

/-- No text means two byte strings to the two decoders. -/
theorem decoders_agree {text : List Char} {left right : List UInt8}
    (hleft : decodeNoPad text = some left) (hright : decodePadded text = some right) :
    left = right := by
  have hstrip := rdropWhile_padding (encode_ne_padding left) 0
  rw [List.replicate_zero, List.append_nil, ← decodeNoPad_eq_some.mp hleft,
    decodePadded_eq_some.mp hright, rdropWhile_padding (encode_ne_padding right),
    ← decodePadded_eq_some.mp hright, decodeNoPad_eq_some.mp hleft] at hstrip
  exact (encode_injective hstrip).symm

/-- The number of padding characters is the only one that completes the last group. -/
theorem padding_eq_iff {length count : Nat} :
    count = (4 - length % 4) % 4 ↔ count < 4 ∧ 4 ∣ length + count := by
  omega

end Base64Url
