import GraphQLDoc.Error
import GraphQLDoc.Value

/-!
# Values from JSON

* `Number.ofJson`: integers stay integers as long as they fit, all other numbers are doubles.
* `Value.ofJson`: a JSON value as an argument value. Null has none, so it is refused at every depth.
* `Arguments.ofMembers`: the members of an object as arguments, without those that are null.
-/

namespace GraphQLDoc

/-- A JSON number as an argument. The unsigned integers that are too large become doubles. -/
def Number.ofJson : Json.Number → Number
  | .int n _ => if n ≤ Number.maxInt then .int (Int64.ofInt n) else .float (Binary64.ofNat n.toNat)
  | .float x _ => .float x

mutual

/-- The argument value of a JSON value. -/
def Value.ofJson : Json → Except Error Value
  | .null => .error .nestedNull
  | .bool b => .ok (.boolean b)
  | .number n => .ok (.number (Number.ofJson n))
  | .string s => .ok (.string s)
  | .array items => (Value.ofItems items).map .list
  | .object members => (Value.ofMembers members).map fun entries => .object (Entries.ofList entries)

/-- The values of the items of an array. The first failure counts. -/
def Value.ofItems : List Json → Except Error (List Value)
  | [] => .ok []
  | j :: js => do
    let v ← Value.ofJson j
    let vs ← Value.ofItems js
    return v :: vs

/-- The values of the members of an object. The first failure counts. -/
def Value.ofMembers : List (String × Json) → Except Error (List (String × Value))
  | [] => .ok []
  | (key, j) :: members => do
    let v ← Value.ofJson j
    let entries ← Value.ofMembers members
    return (key, v) :: entries

end

/-- The value is null. -/
def Json.isNull : Json → Bool
  | .null => true
  | _ => false

/-- The arguments that an object gives. A member that is null gives none. -/
def Arguments.ofMembers (members : List (String × Json)) : Except Error Arguments :=
  (Value.ofMembers (members.filter fun member => !member.2.isNull)).map Entries.ofList

end GraphQLDoc
