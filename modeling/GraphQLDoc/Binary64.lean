/-!
# Double-precision numbers

`Binary64` is a number of the IEEE 754 binary64 format, given by its 64 bits. Everything here is
integer arithmetic on those bits, so every statement about a number can be settled by computation.

* `isNegative`, `exponentField`, `fraction`: the three fields of the format.
* `significand`, `exponent`: a finite number has the magnitude `significand * 2 ^ exponent`.
* `isNaN`, `isFinite`, `isZero`: the classes of numbers.
* `==`: comparison as the standard has it. NaN differs from itself, and both zeros are equal.
-/

namespace GraphQLDoc

/-- A double-precision number, given by its bits. -/
structure Binary64 where
  bits : UInt64
  deriving DecidableEq

namespace Binary64

/-- The sign bit is set. -/
def isNegative (x : Binary64) : Bool := 0x8000000000000000 ≤ x.bits.toNat

/-- The biased exponent, of 11 bits. -/
def exponentField (x : Binary64) : Nat := x.bits.toNat / 0x10000000000000 % 0x800

/-- The stored part of the significand, of 52 bits. -/
def fraction (x : Binary64) : Nat := x.bits.toNat % 0x10000000000000

/-- The largest biased exponent is kept for NaN and the infinities. -/
def isFinite (x : Binary64) : Bool := x.exponentField != 2047

def isNaN (x : Binary64) : Bool := x.exponentField == 2047 && x.fraction != 0

/-- Positive or negative zero. -/
def isZero (x : Binary64) : Bool := x.exponentField == 0 && x.fraction == 0

/-- The integer `m` of the magnitude `m * 2 ^ exponent`. The leading bit of a normal number is not
stored. -/
def significand (x : Binary64) : Nat :=
  if x.exponentField = 0 then x.fraction else 0x10000000000000 + x.fraction

/-- The power of two that scales the significand. Subnormal numbers share the exponent of the
smallest normal ones. -/
def exponent (x : Binary64) : Int := (max 1 x.exponentField : Nat) - 1075

/-- The bits without the sign of either infinity: larger than those of every finite number. -/
def infinityBits : Nat := 0x7FF0000000000000

/-- The number with the given sign and the given bits below the sign bit. -/
def ofMagnitudeBits (negative : Bool) (magnitude : Nat) : Binary64 :=
  ⟨UInt64.ofNat (if negative then 0x8000000000000000 + magnitude else magnitude)⟩

def infinity (negative : Bool) : Binary64 := ofMagnitudeBits negative infinityBits

/-- The quiet NaN without a payload. -/
def nan : Binary64 := ofMagnitudeBits false (infinityBits + 0x8000000000000)

/-- Comparison of numbers, not of bits. -/
def equal (x y : Binary64) : Bool :=
  !x.isNaN && !y.isNaN && (x.bits == y.bits || (x.isZero && y.isZero))

instance : BEq Binary64 := ⟨equal⟩

theorem fraction_lt (x : Binary64) : x.fraction < 0x10000000000000 := Nat.mod_lt _ (by decide)

theorem exponentField_lt (x : Binary64) : x.exponentField < 0x800 := Nat.mod_lt _ (by decide)

theorem toNat_bits_ofMagnitudeBits (negative : Bool) {magnitude : Nat}
    (h : magnitude < 0x8000000000000000) :
    (ofMagnitudeBits negative magnitude).bits.toNat =
      if negative then 0x8000000000000000 + magnitude else magnitude := by
  unfold ofMagnitudeBits
  rw [UInt64.toNat_ofNat']
  split <;> omega

end Binary64

end GraphQLDoc
