import GraphQLDoc.Field.Merge

/-!
# Selections

A selection says which fields to add: by name, several at once, nested below a name, or as a field
that is already built.

* `Selection.fields`: the fields that a selection stands for, in order. It fails if a name is empty.
* `Selection.ofJson`: a selection given as JSON. A string is a name, an array is a list, and an
  object holds nested selections by name.
-/

namespace GraphQLDoc

/-- A choice of fields. -/
inductive Selection where
  /-- The field of a name, with nothing below it. -/
  | leaf (name : String)
  | several (items : List Selection)
  /-- The field of a name, with a selection below it. -/
  | under (name : String) (below : Selection)
  | built (f : Field)

namespace Selection

instance : Inhabited Selection := ⟨.several []⟩

mutual

/-- The fields that a selection stands for. Below a nested name they are merged. -/
def fields : Selection → Except Error (List Field)
  | .leaf n => do
    let f ← Field.named n
    return [f]
  | .several items => itemFields items
  | .under n below => do
    let f ← Field.named n
    let gs ← fields below
    return [{ f with subfields := Field.joinAll f.subfields gs }]
  | .built f => .ok [f]

/-- The fields of several selections, one after the other. -/
def itemFields : List Selection → Except Error (List Field)
  | [] => .ok []
  | s :: rest => do
    let fs ← fields s
    let gs ← itemFields rest
    return fs ++ gs

end

mutual

/-- The selection that a JSON value gives. Null, booleans and numbers give none. -/
def ofJson : Json → Except Error Selection
  | .string s => .ok (.leaf s)
  | .array items => (ofItems items).map .several
  | .object members => (ofMembers members).map .several
  | j => .error (.notSelection j)

/-- The selections of the items of an array. The first failure counts. -/
def ofItems : List Json → Except Error (List Selection)
  | [] => .ok []
  | j :: js => do
    let s ← ofJson j
    let rest ← ofItems js
    return s :: rest

/-- The selections of the members of an object, each below its key. The first failure counts. -/
def ofMembers : List (String × Json) → Except Error (List Selection)
  | [] => .ok []
  | (key, j) :: members => do
    let s ← ofJson j
    let rest ← ofMembers members
    return .under key s :: rest

end

end Selection

end GraphQLDoc
