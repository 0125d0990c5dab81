import GraphQLDoc.Error
import GraphQLDoc.Value

/-!
# Values with a literal

Not every value can be written in a document: NaN and the infinities have no literal, and an entry
needs a name. `Arguments.firstFault` finds the first such place, entry by entry and each entry from
the outside in.
-/

namespace GraphQLDoc

mutual

/-- The first fault in the value of `key`. The items of a list belong to the key of the list, and
the entries of an object have keys of their own. -/
def Value.firstFault (key : String) : Value → Option Error
  | .number n => if n.isFinite then none else some (.nonFiniteArgument key)
  | .list items => Value.firstItemFault key items
  | .object entries => Value.firstEntryFault entries
  | _ => none

/-- The first fault in the items of a list. -/
def Value.firstItemFault (key : String) : List Value → Option Error
  | [] => none
  | v :: vs => (v.firstFault key).or (Value.firstItemFault key vs)

/-- The first fault in a map. The key of an entry comes before its value. -/
def Value.firstEntryFault : List (String × Value) → Option Error
  | [] => none
  | (key, v) :: rest =>
    if key = "" then some .unnamedArgument
    else (v.firstFault key).or (Value.firstEntryFault rest)

end

/-- The first fault among arguments. -/
def Arguments.firstFault (args : Arguments) : Option Error := Value.firstEntryFault args

end GraphQLDoc
