import GraphQLDoc.Decimal.Shortest

/-!
# Writing doubles

A format decides which decimals are written positionally, as in `1500`, and which scientifically, as
in `1.5e+3`. `DecimalStyle` holds that decision, so two formats differ in one record only.

* `Decimal.positional`, `Decimal.scientific`: the two notations.
* `DecimalStyle.write`: the notation that the style picks.
* `DecimalStyle.writeFinite`: the shortest decimal of a finite double, with its sign.
-/

namespace GraphQLDoc

namespace Decimal

/-- The digits with a point in their place. Zeros fill the gap between digits and point. A whole
number has a point, and a zero after it, only if `pointed` asks for them. -/
def positional (pointed : Bool) (d : Decimal) : List Char :=
  let ds := d.significantDigits
  let e := d.leadingExponent
  if e < 0 then '0' :: '.' :: (List.replicate (-e - 1).toNat '0' ++ ds)
  else
    let whole := e.toNat + 1
    if ds.length ≤ whole then
      ds ++ List.replicate (whole - ds.length) '0' ++ (if pointed then ['.', '0'] else [])
    else ds.take whole ++ '.' :: ds.drop whole

/-- One digit, the others after a point, and the exponent with its sign. -/
def scientific (d : Decimal) : List Char :=
  let e := d.leadingExponent
  let mantissa :=
    match d.significantDigits with
    | [] => []
    | [c] => [c]
    | c :: cs => c :: '.' :: cs
  mantissa ++ 'e' :: (if e < 0 then '-' else '+') :: digits e.natAbs

end Decimal

/-- How a format writes decimals. -/
structure DecimalStyle where
  /-- The smallest exponent of a first digit that is written positionally. -/
  lowest : Int
  /-- The largest exponent of a first digit that is written positionally. -/
  highest : Int
  /-- A whole number in positional notation ends in `.0`. -/
  pointed : Bool
  deriving DecidableEq

namespace DecimalStyle

def write (style : DecimalStyle) (d : Decimal) : List Char :=
  if d.leadingExponent < style.lowest ∨ style.highest < d.leadingExponent then d.scientific
  else d.positional style.pointed

/-- The shortest decimal of a finite double, after a sign if its sign bit is set. -/
def writeFinite (style : DecimalStyle) (x : Binary64) : List Char :=
  if x.isNegative then '-' :: style.write x.shortest else style.write x.shortest

end DecimalStyle

end GraphQLDoc
