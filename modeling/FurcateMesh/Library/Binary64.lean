import Mathlib

/-!
# Binary64

An IEEE 754 double as its 64 bits, with the partial comparison of the standard: a
NaN compares with nothing, and the two zeros are equal.  For the other values the
sign-magnitude pattern, read as an integer, orders as the numbers do.  An integer is
rounded to the nearest double, ties to even.

The magnitude is the pattern without the sign bit.  It is above the pattern of infinity, all
exponent bits and no fraction, for a NaN, and below it for a finite number.
-/

structure Binary64 where
  bits : UInt64
deriving DecidableEq, Repr

namespace Binary64

/-- The exponent and fraction fields. -/
def magnitude (x : Binary64) : Nat := x.bits.toNat % 2 ^ 63

def isNaN (x : Binary64) : Bool := decide (x.magnitude > 0x7FF0000000000000)

def isFinite (x : Binary64) : Bool := decide (x.magnitude < 0x7FF0000000000000)

/-- The magnitude with the sign of the number. -/
def key (x : Binary64) : Int :=
  if x.bits.toNat < 2 ^ 63 then (x.magnitude : Int) else -(x.magnitude : Int)

def partialCmp (x y : Binary64) : Option Ordering :=
  if x.isNaN || y.isNaN then none else some (compare x.key y.key)

/-- The magnitude bits of the double nearest to an integer below `2 ^ 1023`. -/
def roundNat (n : Nat) : Nat :=
  if n = 0 then 0
  else
    let exponent := Nat.log2 n
    let significand :=
      if exponent ≤ 52 then n * 2 ^ (52 - exponent)
      else
        let unit := 2 ^ (exponent - 52)
        let tail := n % unit
        let kept := n / unit
        if 2 * tail > unit ∨ 2 * tail = unit ∧ kept % 2 = 1 then kept + 1 else kept
    -- a significand that was rounded up to the next power carries into the exponent
    (exponent + 1022) * 2 ^ 52 + significand

def ofInt (n : Int) : Binary64 :=
  ⟨UInt64.ofNat (roundNat n.natAbs + if n < 0 then 2 ^ 63 else 0)⟩

example : [ofInt 0, ofInt 1, ofInt (-3), ofInt (2 ^ 53 + 1), ofInt (2 ^ 64 - 1)].map bits =
    [0, 0x3FF0000000000000, 0xC008000000000000, 0x4340000000000000, 0x43F0000000000000] := by
  decide +kernel

/-! ### Narrower formats

A format has a sign bit, `expBits` bits of exponent and `fracBits` of fraction. -/

/-- The bits of the double with the value of a number of a narrower format.  A NaN comes
    out quiet. -/
def widen (expBits fracBits bits : Nat) : Nat :=
  let bias := 2 ^ (expBits - 1) - 1
  let sign := bits / 2 ^ (expBits + fracBits) % 2
  let exponent := bits / 2 ^ fracBits % 2 ^ expBits
  let fraction := bits % 2 ^ fracBits
  let magnitude :=
    if exponent = 2 ^ expBits - 1 then
      0x7FF * 2 ^ 52 +
        if fraction = 0 then 0 else (fraction * 2 ^ (52 - fracBits)) ||| 2 ^ 51
    else if exponent = 0 then
      -- a subnormal number has its leading bit somewhere in the fraction
      if fraction = 0 then 0
      else
        let lead := Nat.log2 fraction
        (1024 + lead - bias - fracBits) * 2 ^ 52 + (fraction - 2 ^ lead) * 2 ^ (52 - lead)
    else (exponent + 1023 - bias) * 2 ^ 52 + fraction * 2 ^ (52 - fracBits)
  sign * 2 ^ 63 + magnitude

/-- The bits of a number of a narrower format that has the value of the double, if any
    has: bits that do not fit are dropped. -/
def narrow (expBits fracBits : Nat) (x : Binary64) : Nat :=
  let bias := 2 ^ (expBits - 1) - 1
  let exponent := x.magnitude / 2 ^ 52
  let fraction := x.magnitude % 2 ^ 52
  let magnitude :=
    if exponent = 0x7FF then (2 ^ expBits - 1) * 2 ^ fracBits + fraction / 2 ^ (52 - fracBits)
    else if exponent + bias ≤ 1023 then
      if exponent = 0 then 0
      else (2 ^ 52 + fraction) / 2 ^ (1076 - bias - fracBits - exponent)
    else (exponent + bias - 1023) * 2 ^ fracBits + fraction / 2 ^ (52 - fracBits)
  x.bits.toNat / 2 ^ 63 * 2 ^ (expBits + fracBits) + magnitude % 2 ^ (expBits + fracBits)

def MAX : Binary64 := ⟨0x7FEFFFFFFFFFFFFF⟩

theorem isNaN_MAX : MAX.isNaN = false := by decide

theorem partialCmp_of_isNaN_left {x : Binary64} (y : Binary64) (hx : x.isNaN = true) :
    x.partialCmp y = none := by
  rw [partialCmp, hx, Bool.true_or, if_pos rfl]

theorem partialCmp_of_isNaN_right (x : Binary64) {y : Binary64} (hy : y.isNaN = true) :
    x.partialCmp y = none := by
  rw [partialCmp, hy, Bool.or_true, if_pos rfl]

theorem partialCmp_of_not_isNaN {x y : Binary64} (hx : x.isNaN = false) (hy : y.isNaN = false) :
    x.partialCmp y = some (compare x.key y.key) := by
  rw [partialCmp, hx, hy, Bool.or_false, if_neg Bool.false_ne_true]

theorem partialCmp_eq_some_iff {x y : Binary64} {o : Ordering} :
    x.partialCmp y = some o ↔ x.isNaN = false ∧ y.isNaN = false ∧ compare x.key y.key = o := by
  by_cases h : x.isNaN = true ∨ y.isNaN = true
  · have hnone : x.partialCmp y = none :=
      h.elim (partialCmp_of_isNaN_left _) (partialCmp_of_isNaN_right _)
    rw [hnone]
    rcases h with h | h <;> simp [h]
  · obtain ⟨hx, hy⟩ : x.isNaN = false ∧ y.isNaN = false := by simpa using h
    rw [partialCmp_of_not_isNaN hx hy, Option.some.injEq]
    exact ⟨fun h => ⟨hx, hy, h⟩, fun h => h.2.2⟩

theorem partialCmp_eq_lt_iff {x y : Binary64} :
    x.partialCmp y = some .lt ↔ x.isNaN = false ∧ y.isNaN = false ∧ x.key < y.key := by
  rw [partialCmp_eq_some_iff, compare_lt_iff_lt]

theorem partialCmp_eq_eq_iff {x y : Binary64} :
    x.partialCmp y = some .eq ↔ x.isNaN = false ∧ y.isNaN = false ∧ x.key = y.key := by
  rw [partialCmp_eq_some_iff, compare_eq_iff_eq]

end Binary64
