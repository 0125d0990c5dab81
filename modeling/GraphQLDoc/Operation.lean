import GraphQLDoc.Field.Text

/-!
# Operations

An operation asks a service to read or to change something, by one field at its root. A field alone
can be sent as well, so `Sendable` is either of the two.
-/

namespace GraphQLDoc

/-- What an operation is for. -/
inductive OperationType where
  | query
  | mutation
  deriving DecidableEq

/-- The keyword in front of the selection. -/
def OperationType.keyword : OperationType → String
  | .query => "query"
  | .mutation => "mutation"

/-- An operation without a name, with one field at its root. -/
structure Operation where
  type : OperationType
  root : Field

namespace Operation

/-- The operation that reads. -/
def query (f : Field) : Operation := ⟨.query, f⟩

/-- The operation that changes something. -/
def mutation (f : Field) : Operation := ⟨.mutation, f⟩

/-- The operation of the same type whose root a step made from the old one. -/
def modifyRoot {ε : Type} (o : Operation) (step : Field → Except ε Field) : Except ε Operation := do
  let f ← step o.root
  return { o with root := f }

/-- The types and the root fields are equal. -/
def equal (o p : Operation) : Bool := o.type == p.type && o.root == p.root

instance : BEq Operation := ⟨equal⟩

/-- The compact text, as in `query{viewer{login}}`. -/
def chars (o : Operation) : List Char := o.type.keyword.toList ++ '{' :: (o.root.chars ++ ['}'])

/-- `chars` as a string. -/
def text (o : Operation) : String := String.ofList o.chars

end Operation

/-- What can be sent as a request. -/
inductive Sendable where
  | field (f : Field)
  | operation (o : Operation)

namespace Sendable

/-- The field whose fragments are resolved. -/
def root : Sendable → Field
  | .field f => f
  | .operation o => o.root

def chars : Sendable → List Char
  | .field f => f.chars
  | .operation o => o.chars

/-- `chars` as a string. -/
def text (x : Sendable) : String := String.ofList x.chars

/-- The text with line breaks. -/
def indentedText (x : Sendable) : String := indent standardIndent x.text

end Sendable

end GraphQLDoc
