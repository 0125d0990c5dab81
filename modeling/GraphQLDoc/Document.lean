import GraphQLDoc.Declarations
import GraphQLDoc.Operation

/-!
# Documents

A document is what a service receives: an operation or a field, and after it the declaration of
every fragment that it needs.

* `Field.allSpreads`: the fragments that a field spreads, at any depth.
* `Declarations.neededBy`: the declarations that a field needs, each followed by those that it needs
  in turn. A declaration needed in two places is listed twice.
* `Declarations.document`: the text of the whole document.
-/

namespace GraphQLDoc

namespace Field

mutual

/-- The fragments spread in a field and below. Its own come first, then those of its subfields that
are new. -/
def allSpreads : Field → List String
  | ⟨_, _, subfields, spreads⟩ => gatherSpreads spreads subfields

/-- The names, and after them the new ones that several fields spread. -/
def gatherSpreads (names : List String) : List Field → List String
  | [] => names
  | f :: fs => gatherSpreads (addNames names (allSpreads f)) fs

end

end Field

namespace Declarations

/-- The declarations of some fragments, unless one has none. The first such name is reported. -/
def getAll (ds : Declarations) : List String → Except Error (List Field)
  | [] => .ok []
  | name :: names =>
    match ds.get? name with
    | none => .error (.undeclaredFragment name)
    | some declaration => do
      let rest ← ds.getAll names
      return declaration :: rest

/-- The declarations that a field needs, down to a number of levels. All names of one level are
looked up before any of their declarations is read. Where the levels run out before there is a
result or a name without a declaration, `cyclicFragments` says so. -/
def neededWithin (ds : Declarations) : Nat → Field → Except Error (List Field)
  | 0, _ => .error .cyclicFragments
  | levels + 1, root => do
    let declarations ← ds.getAll root.allSpreads
    let parts ← declarations.mapM fun declaration => do
      let needed ← ds.neededWithin levels declaration
      return declaration :: needed
    return parts.flatten

/-- The declarations that a field needs. One level is the field's own. Each further level goes
through a declared fragment, and on more levels than there are declared fragments one of them comes
again below itself. So more levels would not help: `cyclicFragments` means that following the
fragments has no end, and stands in the place of an outcome. -/
def neededBy (ds : Declarations) (root : Field) : Except Error (List Field) :=
  ds.neededWithin (ds.size + 1) root

/-- What is sent and the declarations that it needs, one right after the other. -/
def document (ds : Declarations) (x : Sendable) : Except Error String := do
  let declarations ← ds.neededBy x.root
  return String.ofList (x.chars ++ declarations.flatMap Field.chars)

end Declarations

end GraphQLDoc
