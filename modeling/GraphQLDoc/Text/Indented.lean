/-!
# Indented text

Compact text has no line breaks. `indented` reads it once from left to right and breaks it after
opening brackets and commas, so that it is easier to read. Text inside a string literal is copied as
it stands, so a literal such as `"x,y"` is never split.

* `Place`: where the reader is with respect to a literal.
* `indentedFrom`: the rest of the text, from a given place and nesting level.
* `indented`, `indent`: a whole text.
-/

namespace GraphQLDoc

/-- Where the next character stands. -/
inductive Place where
  /-- Outside of any literal. -/
  | outside
  /-- Inside a literal. -/
  | inside
  /-- Inside a literal, right after a backslash. -/
  | escaped
  deriving DecidableEq

/-- The spaces in front of a line. -/
def margin (width level : Nat) : List Char := List.replicate (level * width) ' '

/-- The rest of a text with line breaks. Outside of literals an opening bracket starts a deeper
line, a closing one stands on a line of its own level, a comma ends its line, and a space follows a
colon. A bracket that closes nothing stays on the outermost level. -/
def indentedFrom (width : Nat) : Place → Nat → List Char → List Char
  | _, _, [] => []
  | .outside, level, c :: cs =>
    if c = '{' ∨ c = '(' then
      ' ' :: c :: '\n' :: (margin width (level + 1) ++ indentedFrom width .outside (level + 1) cs)
    else if c = '}' ∨ c = ')' then
      '\n' :: (margin width (level - 1) ++ c :: indentedFrom width .outside (level - 1) cs)
    else if c = ',' then
      ',' :: '\n' :: (margin width level ++ indentedFrom width .outside level cs)
    else if c = ':' then ':' :: ' ' :: indentedFrom width .outside level cs
    else if c = '"' then '"' :: indentedFrom width .inside level cs
    else c :: indentedFrom width .outside level cs
  | .inside, level, c :: cs =>
    if c = '"' then '"' :: indentedFrom width .outside level cs
    else if c = '\\' then '\\' :: indentedFrom width .escaped level cs
    else c :: indentedFrom width .inside level cs
  | .escaped, level, c :: cs => c :: indentedFrom width .inside level cs

/-- A whole text with `width` spaces for each level of brackets. -/
def indented (width : Nat) (text : List Char) : List Char :=
  indentedFrom width .outside 0 text

/-- The width that printed trees are shown with. -/
def standardIndent : Nat := 2

/-- `indented` on strings. -/
def indent (width : Nat) (text : String) : String := String.ofList (indented width text.toList)

end GraphQLDoc
