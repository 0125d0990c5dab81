import GraphQLDoc.Field

/-!
# Declared fragments

`Declarations` holds the declarations of fragments by name. The last declaration of a name counts,
and the order of declaring does not matter for a document. `listing` sorts the names.
-/

namespace GraphQLDoc

/-- Fragment declarations by name. -/
structure Declarations where
  byName : Entries Field

namespace Declarations

def empty : Declarations := ⟨[]⟩

/-- The declaration of a fragment. -/
def get? (ds : Declarations) (name : String) : Option Field := ds.byName.get? name

/-- The fragment is declared. -/
def contains (ds : Declarations) (name : String) : Bool := (ds.get? name).isSome

/-- The number of declared fragments. -/
def size (ds : Declarations) : Nat := ds.byName.length

def isEmpty (ds : Declarations) : Bool := ds.byName.isEmpty

/-- The declarations with one more. An older one of the same name is replaced. -/
def insert (ds : Declarations) (name : String) (declaration : Field) : Declarations :=
  ⟨ds.byName.insert name declaration⟩

/-- The declarations with several more, one after the other. -/
def extend (ds : Declarations) (entries : List (String × Field)) : Declarations :=
  entries.foldl (fun acc entry => acc.insert entry.1 entry.2) ds

/-- Declarations given by a list that may repeat names. -/
def ofList (entries : List (String × Field)) : Declarations := empty.extend entries

/-- All declarations, sorted by name. -/
def listing (ds : Declarations) : List (String × Field) :=
  List.mergeSort ds.byName fun a b => a.1 ≤ b.1

end Declarations

end GraphQLDoc
