/-!
# Decimal numbers and their digits

* `digits`, `integerChars`: a natural number and an integer in decimal notation.
* `padded`: a natural number with leading zeros up to a width.
* `Decimal`: the exact number `coefficient * 10 ^ exponent`, with its significant digits and the
  exponent of the first of them.
-/

namespace GraphQLDoc

/-- The decimal digits of a natural number, without leading zeros. -/
def digits (n : Nat) : List Char := Nat.toDigits 10 n

/-- An integer in decimal notation, with a sign only if it is negative. -/
def integerChars (n : Int) : List Char :=
  if n < 0 then '-' :: digits n.natAbs else digits n.natAbs

/-- The digits of a natural number after as many zeros as bring them to the width. Longer numbers
are not cut. -/
def padded (width n : Nat) : List Char :=
  List.replicate (width - (digits n).length) '0' ++ digits n

/-- The number `coefficient * 10 ^ exponent`. -/
structure Decimal where
  coefficient : Nat
  exponent : Int
  deriving DecidableEq

namespace Decimal

/-- The digits of the coefficient without its trailing zeros. Zero keeps its one digit. -/
def significantDigits (d : Decimal) : List Char :=
  if d.coefficient = 0 then ['0']
  else ((digits d.coefficient).reverse.dropWhile (· == '0')).reverse

/-- The power of ten that the first digit counts. -/
def leadingExponent (d : Decimal) : Int := d.exponent + (digits d.coefficient).length - 1

end Decimal

end GraphQLDoc
