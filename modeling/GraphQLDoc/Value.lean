import GraphQLDoc.Binary64.Rounding
import GraphQLDoc.Entries
import GraphQLDoc.Instant

/-!
# Argument values

* `Number`: an integer of 64 bits or a double. Integers are written without a fraction, so the two
  are kept apart.
* `Value`: everything that an argument may hold.
* `Value.equal`: equality, also written `==`. Integers and doubles are never equal, the order of an
  object's entries does not matter, and NaN differs from itself.
-/

namespace GraphQLDoc

/-- A number among the arguments. -/
inductive Number where
  | int (n : Int64)
  | float (x : Binary64)
  deriving DecidableEq

namespace Number

/-- The largest integer that is kept as one. -/
def maxInt : Nat := 0x7FFFFFFFFFFFFFFF

/-- A natural number, as an integer if it fits and as the nearest double otherwise. -/
def ofNat (n : Nat) : Number :=
  if n ≤ maxInt then .int (Int64.ofNat n) else .float (Binary64.ofNat n)

/-- The number has a literal. -/
def isFinite : Number → Bool
  | .int _ => true
  | .float x => x.isFinite

def equal : Number → Number → Bool
  | .int m, .int n => m == n
  | .float x, .float y => x == y
  | _, _ => false

instance : BEq Number := ⟨equal⟩

end Number

/-- The value of an argument. Values nest by lists and objects. -/
inductive Value where
  | string (s : String)
  | number (n : Number)
  | boolean (b : Bool)
  | instant (t : Instant)
  /-- A constant that stands for itself, without quotes. -/
  | enum (name : String)
  | list (items : List Value)
  | object (entries : List (String × Value))

instance : Inhabited Value := ⟨.boolean false⟩

/-- The arguments of a field. -/
abbrev Arguments : Type := Entries Value

mutual

/-- Equality of values. Objects are equal if they have the same number of entries and each entry of
the first is one of the second. -/
def Value.equal : Value → Value → Bool
  | .string s, .string t => s == t
  | .number m, .number n => m == n
  | .boolean a, .boolean b => a == b
  | .instant s, .instant t => s == t
  | .enum a, .enum b => a == b
  | .list items, .list others => Value.equalItems items others
  | .object entries, .object others =>
    entries.length == others.length && Value.equalEntries entries others
  | _, _ => false

/-- Equality of lists, item by item. -/
def Value.equalItems : List Value → List Value → Bool
  | [], [] => true
  | v :: vs, w :: ws => v.equal w && Value.equalItems vs ws
  | _, _ => false

/-- Each entry of the first list has an equal one in the second. -/
def Value.equalEntries : List (String × Value) → List (String × Value) → Bool
  | [], _ => true
  | (key, v) :: rest, others =>
    (match Entries.get? others key with
      | some w => v.equal w
      | none => false) && Value.equalEntries rest others

end

instance : BEq Value := ⟨Value.equal⟩

/-- Equality of arguments. Their order does not matter. -/
def Arguments.equal (args others : Arguments) : Bool :=
  args.length == others.length && Value.equalEntries args others

end GraphQLDoc
