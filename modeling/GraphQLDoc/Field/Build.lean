import GraphQLDoc.Selection
import GraphQLDoc.Value.OfJson
import GraphQLDoc.Value.Validation

/-!
# Building fields

Each operation takes a field and gives a new one with more content, or says why it cannot.

* `setArguments`, `select`, `spread`: more arguments, subfields and fragments.
* `setArgumentsJson`, `selectJson`, `spreadJson`: the same, given as JSON.
-/

namespace GraphQLDoc

namespace Field

/-- The field with a map laid over its arguments, if every value of the map has a literal. -/
def overlay (f : Field) (args : Arguments) : Except Error Field :=
  match Arguments.firstFault args with
  | some e => .error e
  | none => .ok { f with arguments := Entries.extend f.arguments args }

/-- The entries that have a value. -/
def givenEntries (entries : List (String × Option Value)) : List (String × Value) :=
  entries.filterMap fun entry => entry.2.map fun v => (entry.1, v)

/-- The field with more arguments. Entries without a value are dropped. Only the last value of a
repeated key is looked at. -/
def setArguments (f : Field) (entries : List (String × Option Value)) : Except Error Field :=
  f.overlay (Entries.ofList (givenEntries entries))

/-- The field with more subfields. A subfield that is selected already is merged and moves to the
end. -/
def select (f : Field) (selection : Selection) : Except Error Field := do
  let gs ← selection.fields
  return { f with subfields := joinAll f.subfields gs }

/-- The list with more fragment names, up to the first text that is no name. -/
def spreadNames (names : List String) : List String → Except Error (List String)
  | [] => .ok names
  | name :: rest =>
    if isName name then spreadNames (addName names name) rest
    else .error (.invalidFragmentName name)

/-- The field with more fragments. Fragments that are spread already are not repeated. -/
def spread (f : Field) (names : List String) : Except Error Field := do
  let spreads ← spreadNames f.spreads names
  return { f with spreads := spreads }

/-- The field with the members of a JSON object as arguments. -/
def setArgumentsJson (f : Field) : Json → Except Error Field
  | .object members => do
    let args ← Arguments.ofMembers members
    f.overlay args
  | j => .error (.argumentsNotObject j)

/-- The field with the selection that a JSON value gives. -/
def selectJson (f : Field) (j : Json) : Except Error Field := do
  let selection ← Selection.ofJson j
  f.select selection

/-- The strings of a list, or the first item that is not one. -/
def namesOfItems : List Json → Except Error (List String)
  | [] => .ok []
  | .string s :: js => do
    let names ← namesOfItems js
    return s :: names
  | j :: _ => .error (.fragmentNameNotString j)

/-- The fragment names that a JSON value gives: the items of an array, or the value itself. -/
def namesOfJson : Json → Except Error (List String)
  | .array items => namesOfItems items
  | j => namesOfItems [j]

/-- The field with the fragments that a JSON value names. -/
def spreadJson (f : Field) (j : Json) : Except Error Field := do
  let names ← namesOfJson j
  f.spread names

end Field

end GraphQLDoc
