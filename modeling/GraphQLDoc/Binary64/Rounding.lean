import GraphQLDoc.Binary64

/-!
# Rounding to double precision

The double-precision number nearest to an exact one, where a tie goes to the even significand.

* `roundHalfEven`: the nearest natural number to a ratio.
* `ofRatio`: the nearest double to a signed ratio. One too large for the format becomes an infinity.
* `ofNat`, `ofDecimal`: the nearest double to a natural number, and to `c * 10 ^ e`.
* `ofBinary32`: a single-precision number, whose value the wider format always holds.
-/

namespace GraphQLDoc

/-- The natural number nearest to `num / den`, the even one of two equally near. -/
def roundHalfEven (num den : Nat) : Nat :=
  let below := num / den
  let rest := num % den
  if 2 * rest < den then below
  else if den < 2 * rest then below + 1
  else below + below % 2

/-- A rounded quotient is off by half a unit at most. -/
theorem roundHalfEven_near (num : Nat) {den : Nat} (h : 0 < den) :
    2 * num ≤ 2 * (roundHalfEven num den * den) + den ∧
      2 * (roundHalfEven num den * den) ≤ 2 * num + den := by
  have whole := Nat.div_add_mod num den
  have rest := Nat.mod_lt num h
  have above : (num / den + 1) * den = num / den * den + den := Nat.succ_mul _ _
  have parity : num / den % 2 = 0 ∨ num / den % 2 = 1 := by omega
  unfold roundHalfEven
  rw [Nat.mul_comm] at whole
  dsimp only
  split
  · omega
  · split
    · omega
    · rcases parity with even | odd
      · rw [even, Nat.add_zero]
        omega
      · rw [odd]
        omega

/-- The exponent of the largest power of two that does not exceed `num / den`. The difference of
the two logarithms is off by one at most. -/
def log2Ratio (num den : Nat) : Int :=
  let estimate : Int := (num.log2 : Int) - den.log2
  if den * Nat.pow 2 estimate.toNat ≤ num * Nat.pow 2 (-estimate).toNat then estimate
  else estimate - 1

namespace Binary64

/-- The double nearest to `± num / den`.

The scale leaves a quotient of 53 bits, or fewer for a subnormal number. Quotient and biased
exponent are added, not joined: a quotient that rounds up to `2 ^ 53` carries into the exponent,
and one past the largest finite number carries into infinity. -/
def ofRatio (negative : Bool) (num den : Nat) : Binary64 :=
  if num = 0 then ofMagnitudeBits negative 0
  else
    let scale : Int := max (log2Ratio num den - 52) (-1074)
    let quotient := roundHalfEven (num * Nat.pow 2 (-scale).toNat) (den * Nat.pow 2 scale.toNat)
    ofMagnitudeBits negative (min ((scale + 1074).toNat * 0x10000000000000 + quotient) infinityBits)

/-- The double nearest to a natural number. -/
def ofNat (n : Nat) : Binary64 := ofRatio false n 1

/-- The double nearest to `± coefficient * 10 ^ exponent`. -/
def ofDecimal (negative : Bool) (coefficient : Nat) (exponent : Int) : Binary64 :=
  ofRatio negative (coefficient * Nat.pow 10 exponent.toNat) (Nat.pow 10 (-exponent).toNat)

/-- The single-precision number with the given bits, widened without loss. -/
def ofBinary32 (bits : UInt32) : Binary64 :=
  let negative : Bool := 0x80000000 ≤ bits.toNat
  let exponentField := bits.toNat / 0x800000 % 0x100
  let fraction := bits.toNat % 0x800000
  if exponentField = 255 then
    if fraction = 0 then infinity negative else nan
  else
    let significand := if exponentField = 0 then fraction else 0x800000 + fraction
    let exponent : Int := (max 1 exponentField : Nat) - 150
    ofRatio negative (significand * Nat.pow 2 exponent.toNat) (Nat.pow 2 (-exponent).toNat)

end Binary64

end GraphQLDoc
