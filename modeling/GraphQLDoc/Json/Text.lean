import GraphQLDoc.Decimal.Notation
import GraphQLDoc.Json
import GraphQLDoc.Text.Quoted

/-!
# JSON text

The compact text of a JSON value, without any blanks, with the members of objects in their order.
Errors quote rejected input in this form.

* `Json.numberStyle`: how doubles are written.
* `Json.chars`, `Json.text`: the text of a value.
-/

namespace GraphQLDoc

namespace Json

/-- Doubles with sixteen digits before the point, or with four zeros after it, are still written
positionally. Whole ones keep a fraction, so that they are told from integers. -/
def numberStyle : DecimalStyle := { lowest := -5, highest := 15, pointed := true }

namespace Number

def chars : Json.Number → List Char
  | .int n _ => integerChars n
  | .float x _ => numberStyle.writeFinite x

end Number

mutual

/-- The text of a value. -/
def chars : Json → List Char
  | .null => "null".toList
  | .bool true => "true".toList
  | .bool false => "false".toList
  | .number n => n.chars
  | .string s => quoted s.toList
  | .array items => '[' :: (List.intercalate [','] (itemChars items) ++ [']'])
  | .object members => '{' :: (List.intercalate [','] (memberChars members) ++ ['}'])

/-- The texts of the items of an array. -/
def itemChars : List Json → List (List Char)
  | [] => []
  | j :: js => j.chars :: itemChars js

/-- The texts of the members of an object. -/
def memberChars : List (String × Json) → List (List Char)
  | [] => []
  | (key, j) :: members => (quoted key.toList ++ ':' :: j.chars) :: memberChars members

end

theorem itemChars_eq_map (items : List Json) : itemChars items = items.map chars := by
  induction items with
  | nil => rfl
  | cons j js ih => rw [itemChars, ih, List.map_cons]

theorem memberChars_eq_map (members : List (String × Json)) :
    memberChars members =
      members.map fun member => quoted member.1.toList ++ ':' :: member.2.chars := by
  induction members with
  | nil => rfl
  | cons member members ih => rw [memberChars, ih, List.map_cons]

/-- `chars` as a string. -/
def text (j : Json) : String := String.ofList j.chars

end Json

end GraphQLDoc
