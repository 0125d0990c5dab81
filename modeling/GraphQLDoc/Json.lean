import GraphQLDoc.Binary64.Rounding
import GraphQLDoc.Entries

/-!
# JSON values

* `Json.Number`: an integer that fits into 64 bits, signed or unsigned, or a finite double.
* `Json.Number.ofLiteral?`: the number that a literal denotes.
* `Json`: a value. The members of an object keep their order.
-/

namespace GraphQLDoc

/-- A JSON number. -/
inductive Json.Number where
  | int (n : Int) (fits : -0x8000000000000000 ≤ n ∧ n < 0x10000000000000000)
  | float (x : Binary64) (finite : x.isFinite = true)
  deriving DecidableEq

namespace Json.Number

/-- The finite double `x`, or nothing. -/
def ofBinary64? (x : Binary64) : Option Json.Number :=
  if h : x.isFinite = true then some (.float x h) else none

/-- The number of the literal `± coefficient * 10 ^ exponent`. A literal without point and exponent
is `whole` and stays an integer if it fits. Negative zero is a double, as integers have one zero
only. A literal beyond the range of doubles denotes nothing. -/
def ofLiteral? (negative : Bool) (coefficient : Nat) (exponent : Int) (whole : Bool) :
    Option Json.Number :=
  let n : Int := if negative then -coefficient else coefficient
  if h : whole = true ∧ ¬(negative = true ∧ coefficient = 0) ∧
      -0x8000000000000000 ≤ n ∧ n < 0x10000000000000000 then
    some (.int n h.2.2)
  else ofBinary64? (Binary64.ofDecimal negative coefficient exponent)

end Json.Number

/-- A JSON value. -/
inductive Json where
  | null
  | bool (b : Bool)
  | number (n : Json.Number)
  | string (s : String)
  | array (items : List Json)
  | object (members : List (String × Json))

instance : Inhabited Json := ⟨.null⟩

end GraphQLDoc
