import GraphQLDoc.Operation
import GraphQLDoc.Proofs.Quoting

/-!
# The grammar of compact texts

* `Literal`, `Outline`: what a text says about a value and about a field. Both are generic in what
  is made of numbers.
* `Value.literal`, `Field.outline`: what the text of a value or a field should say.
* `Reader.value`, `Reader.field`, `Reader.operation`: one reader for each rule of the grammar.
* `Reader.field?`, `Reader.operation?`: the same for whole texts.
-/

namespace GraphQLDoc

/-! ## Trees -/

/-- A literal, where numbers are given as `ν`. -/
inductive Literal (ν : Type) where
  | string (s : String)
  | number (x : ν)
  | boolean (b : Bool)
  | enum (name : String)
  | list (items : List (Literal ν))
  | object (entries : List (String × Literal ν))

/-- A field as it is written. -/
structure Outline (ν : Type) where
  name : String
  arguments : List (String × Literal ν)
  subfields : List (Outline ν)
  spreads : List String

section Trees

variable {ν : Type} (number : Number → ν)

mutual

/-- The literal of a value. The one of an instant is a string. -/
def Value.literal : Value → Literal ν
  | .string s => .string s
  | .number n => .number (number n)
  | .boolean b => .boolean b
  | .instant t => .string (String.ofList t.chars)
  | .enum name => .enum name
  | .list items => .list (Value.literals items)
  | .object entries => .object (Value.entryLiterals entries)

/-- The literals of the items of a list. -/
def Value.literals : List Value → List (Literal ν)
  | [] => []
  | v :: vs => v.literal :: Value.literals vs

/-- The literals of the entries of a map. -/
def Value.entryLiterals : List (String × Value) → List (String × Literal ν)
  | [] => []
  | (key, v) :: rest => (key, v.literal) :: Value.entryLiterals rest

end

theorem Value.literals_eq_map (items : List Value) :
    Value.literals number items = items.map (Value.literal number) := by
  induction items with
  | nil => rfl
  | cons v vs ih => rw [Value.literals, ih, List.map_cons]

theorem Value.entryLiterals_eq_map (entries : List (String × Value)) :
    Value.entryLiterals number entries =
      entries.map fun entry => (entry.1, entry.2.literal number) := by
  induction entries with
  | nil => rfl
  | cons entry rest ih => rw [Value.entryLiterals, ih, List.map_cons]

mutual

/-- The field with the literals of its arguments, at every depth. -/
def Field.outline : Field → Outline ν
  | ⟨name, arguments, subfields, spreads⟩ =>
    { name := name
      arguments := Value.entryLiterals number arguments
      subfields := Field.outlines subfields
      spreads := spreads }

/-- The same for several fields. -/
def Field.outlines : List Field → List (Outline ν)
  | [] => []
  | f :: fs => f.outline :: Field.outlines fs

end

theorem Field.outlines_eq_map (fields : List Field) :
    Field.outlines number fields = fields.map (Field.outline number) := by
  induction fields with
  | nil => rfl
  | cons f fs ih => rw [Field.outlines, ih, List.map_cons]

theorem Field.outline_eq (f : Field) :
    f.outline number =
      { name := f.name
        arguments := f.arguments.map fun entry => (entry.1, entry.2.literal number)
        subfields := f.subfields.map (Field.outline number)
        spreads := f.spreads } := by
  cases f
  rw [Field.outline, Value.entryLiterals_eq_map, Field.outlines_eq_map]

end Trees

/-! ## Rules -/

namespace Reader

variable {α ν : Type} (number? : List Char → Option ν)

/-- The literal that a word stands for. A word that is no name can only be a number. -/
def constant? (cs : List Char) : Option (Literal ν) :=
  match String.ofList cs with
  | "true" => some (.boolean true)
  | "false" => some (.boolean false)
  | "null" => none
  | text => if isName text then some (.enum text) else (number? cs).map .number

/-- A literal. The number bounds its depth and its length. -/
def value : Nat → Reader (Literal ν)
  | 0, _ => none
  | n + 1, '[' :: text =>
    (enclosed (value n) ']' n text).map fun (items, rest) => (.list items, rest)
  | n + 1, '{' :: text =>
    (enclosed (entry (value n)) '}' n text).map fun (entries, rest) => (.object entries, rest)
  | _ + 1, '"' :: text =>
    (string ('"' :: text)).map fun (cs, rest) => (.string (String.ofList cs), rest)
  | _ + 1, text =>
    (word text).bind fun (cs, rest) => (constant? number? cs).map fun l => (l, rest)

/-- A field or, after three points, the name of a fragment. -/
def selection (field : Reader α) : Reader (α ⊕ String)
  | '.' :: '.' :: '.' :: text => (name text).map fun (n, rest) => (.inr n, rest)
  | text => (field text).map fun (f, rest) => (.inl f, rest)

/-- A name, arguments between parentheses and selections between braces. -/
def field : Nat → Reader (Outline ν)
  | 0, _ => none
  | n + 1, text => do
    let (name, text) ← name text
    let (arguments, text) ← optional '(' (separated (entry (value number? n)) ')' n) text
    let (selections, text) ← optional '{' (separated (selection (field n)) '}' n) text
    return ({
      name := name
      arguments := arguments
      subfields := selections.filterMap Sum.getLeft?
      spreads := selections.filterMap Sum.getRight? }, text)

def operationType? : String → Option OperationType
  | "query" => some .query
  | "mutation" => some .mutation
  | _ => none

/-- A keyword, and one field between braces. -/
def operation (n : Nat) : Reader (OperationType × Outline ν) := fun text => do
  let (keyword, text) ← name text
  let type ← operationType? keyword
  let (fields, text) ← optional '{' (separated (field number? n) '}' n) text
  match fields with
  | [f] => return ((type, f), text)
  | _ => none

/-! ## Texts -/

/-- What a reader takes if it takes the whole text. -/
def whole (reader : Reader α) (text : List Char) : Option α :=
  match reader text with
  | some (x, []) => some x
  | _ => none

/-- The field that a text is for. No part of a text is longer than the text. -/
def field? (text : String) : Option (Outline ν) :=
  whole (field number? text.toList.length) text.toList

/-- The operation that a text is for, with its type. -/
def operation? (text : String) : Option (OperationType × Outline ν) :=
  whole (operation number? text.toList.length) text.toList

theorem whole_of_reads {reader : Reader α} {text : List Char} {x : α} (h : Reads reader text x) :
    whole reader text = some x := by
  have all := h [] closes_nil
  rw [List.append_nil] at all
  rw [whole, all]

end Reader

end GraphQLDoc
