import GraphQLDoc.Decimal.Notation
import GraphQLDoc.Text.Indented
import GraphQLDoc.Text.Quoted
import GraphQLDoc.Value

/-!
# Literals

The compact text of argument values.

* `Number.style`: how doubles are written.
* `Value.chars`, `Value.text`: the literal of a value.
* `Arguments.chars`, `Arguments.text`: the entries of a map, without brackets.
-/

namespace GraphQLDoc

namespace Number

/-- Doubles from `1e-6` up to below `1e21` are written positionally. Whole ones have no fraction. -/
def style : DecimalStyle := { lowest := -6, highest := 20, pointed := false }

/-- Both zeros are written alike. The numbers without a literal are named. -/
def chars : Number → List Char
  | .int n => integerChars n.toInt
  | .float x =>
    if x.isNaN then "NaN".toList
    else if !x.isFinite then (if x.isNegative then "-inf" else "inf").toList
    else if x.isZero then ['0']
    else style.writeFinite x

end Number

mutual

/-- The literal of a value. -/
def Value.chars : Value → List Char
  | .string s => quoted s.toList
  | .number n => n.chars
  | .boolean true => "true".toList
  | .boolean false => "false".toList
  | .instant t => '"' :: (t.chars ++ ['"'])
  | .enum name => name.toList
  | .list items => '[' :: (List.intercalate [','] (Value.itemChars items) ++ [']'])
  | .object entries => '{' :: (List.intercalate [','] (Value.entryChars entries) ++ ['}'])

/-- The literals of the items of a list. -/
def Value.itemChars : List Value → List (List Char)
  | [] => []
  | v :: vs => v.chars :: Value.itemChars vs

/-- The entries of a map, each as its key, a colon and the literal of its value. -/
def Value.entryChars : List (String × Value) → List (List Char)
  | [] => []
  | (key, v) :: rest => (key.toList ++ ':' :: v.chars) :: Value.entryChars rest

end

theorem Value.itemChars_eq_map (items : List Value) :
    Value.itemChars items = items.map Value.chars := by
  induction items with
  | nil => rfl
  | cons v vs ih => rw [Value.itemChars, ih, List.map_cons]

theorem Value.entryChars_eq_map (entries : List (String × Value)) :
    Value.entryChars entries = entries.map fun entry => entry.1.toList ++ ':' :: entry.2.chars := by
  induction entries with
  | nil => rfl
  | cons entry rest ih => rw [Value.entryChars, ih, List.map_cons]

theorem Value.chars_list (items : List Value) :
    (Value.list items).chars = '[' :: (List.intercalate [','] (items.map Value.chars) ++ [']']) := by
  rw [← itemChars_eq_map]
  rfl

theorem Value.chars_object (entries : List (String × Value)) :
    (Value.object entries).chars =
      '{' :: (List.intercalate [',']
        (entries.map fun entry => entry.1.toList ++ ':' :: entry.2.chars) ++ ['}']) := by
  rw [← entryChars_eq_map]
  rfl

/-- The entries, separated by commas. -/
def Arguments.chars (args : Arguments) : List Char := List.intercalate [','] (Value.entryChars args)

/-- `Value.chars` as a string. -/
def Value.text (v : Value) : String := String.ofList v.chars

/-- The literal with line breaks. -/
def Value.indentedText (v : Value) : String := indent standardIndent v.text

/-- `Arguments.chars` as a string. -/
def Arguments.text (args : Arguments) : String := String.ofList (Arguments.chars args)

/-- The entries with line breaks. -/
def Arguments.indentedText (args : Arguments) : String :=
  indent standardIndent (Arguments.text args)

end GraphQLDoc
