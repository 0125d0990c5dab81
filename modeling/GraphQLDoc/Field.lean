import GraphQLDoc.Error
import GraphQLDoc.Names
import GraphQLDoc.Value

/-!
# Fields

A field is one selection of a document: a name with arguments, with the fields selected below it and
with the fragments spread into it. The declaration of a fragment has the same shape, and its name is
`fragment <name> on <type>`.

* `Field.named`, `Field.declaration`: a field without content, and an empty fragment declaration.
* `subfield?`, `isLeaf`: the field selected below under a name, and whether there is anything below.
* `Field.equal`: equality, also written `==`. The order of arguments does not matter, that of
  subfields and fragments does.
-/

namespace GraphQLDoc

/-- A selection with everything below it. -/
structure Field where
  name : String
  arguments : List (String × Value)
  /-- The fields selected below this one. -/
  subfields : List Field
  /-- The names of the fragments spread into this field. -/
  spreads : List String

namespace Field

/-- The field with a name and nothing else. -/
def leaf (name : String) : Field :=
  { name := name, arguments := [], subfields := [], spreads := [] }

instance : Inhabited Field := ⟨leaf ""⟩

/-- The field with a name and nothing else. The name may be any text but the empty one. -/
def named (name : String) : Except Error Field :=
  if name = "" then .error .unnamedField else .ok (leaf name)

/-- The declaration of a fragment, still without content. -/
def declaration (name typeCondition : String) : Except Error Field :=
  if name = "" ∨ typeCondition = "" then .error .unnamedFragment
  else if isName name then named ("fragment " ++ name ++ " on " ++ typeCondition)
  else .error (.invalidFragmentName name)

/-- The field selected directly below under a name. -/
def subfield? (f : Field) (name : String) : Option Field :=
  f.subfields.find? fun g => g.name == name

/-- Nothing is selected below. -/
def isLeaf (f : Field) : Bool := f.subfields.isEmpty && f.spreads.isEmpty

mutual

/-- Equality of fields. -/
def equal : Field → Field → Bool
  | ⟨name, arguments, subfields, spreads⟩, g =>
    name == g.name && Arguments.equal arguments g.arguments &&
      equalAll subfields g.subfields && spreads == g.spreads

/-- Equality of fields, one by one. -/
def equalAll : List Field → List Field → Bool
  | [], [] => true
  | f :: fs, g :: gs => equal f g && equalAll fs gs
  | _, _ => false

end

instance : BEq Field := ⟨equal⟩

end Field

end GraphQLDoc
