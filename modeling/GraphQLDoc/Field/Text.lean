import GraphQLDoc.Field
import GraphQLDoc.Value.Text

/-!
# The text of fields

* `Field.chars`, `Field.text`: the compact text of a field, as in `user(id:42){id,name,...Info}`.
* `Field.indentedText`: the same text with line breaks.
-/

namespace GraphQLDoc

namespace Field

/-- The spread of a fragment. -/
def spreadChars (name : String) : List Char := "...".toList ++ name.toList

/-- The arguments between parentheses, if there are any. -/
def argumentChars (args : Arguments) : List Char :=
  if args.isEmpty then [] else '(' :: (Arguments.chars args ++ [')'])

/-- Selections between braces, if there are any. -/
def selectionChars (selections : List (List Char)) : List Char :=
  if selections.isEmpty then [] else '{' :: (List.intercalate [','] selections ++ ['}'])

mutual

/-- The compact text of a field. Subfields come before fragments. -/
def chars : Field → List Char
  | ⟨name, arguments, subfields, spreads⟩ =>
    name.toList ++ argumentChars arguments ++
      selectionChars (allChars subfields ++ spreads.map spreadChars)

/-- The texts of several fields. -/
def allChars : List Field → List (List Char)
  | [] => []
  | f :: fs => chars f :: allChars fs

end

theorem allChars_eq_map (fields : List Field) : allChars fields = fields.map chars := by
  induction fields with
  | nil => rfl
  | cons f fs ih => rw [allChars, ih, List.map_cons]

/-- `chars` as a string. -/
def text (f : Field) : String := String.ofList f.chars

/-- The text with line breaks. -/
def indentedText (f : Field) : String := indent standardIndent f.text

end Field

end GraphQLDoc
