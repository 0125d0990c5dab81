/-!
# String literals

A literal holds any text between two quotes. Quotes, backslashes and the characters below U+0020 are
escaped, all others stand for themselves. So the first quote that no backslash precedes ends the
literal, and a literal never spans two lines.

* `escape`: the spelling of one character.
* `quoted`: the literal of a text.
-/

namespace GraphQLDoc

/-- The spelling of a character inside a literal. A control character without a short escape is
given by its code in hexadecimal. -/
def escape (c : Char) : List Char :=
  if c = '"' then ['\\', '"']
  else if c = '\\' then ['\\', '\\']
  else if c = '\n' then ['\\', 'n']
  else if c = '\r' then ['\\', 'r']
  else if c = '\t' then ['\\', 't']
  else if c = '\x08' then ['\\', 'b']
  else if c = '\x0c' then ['\\', 'f']
  else if c.toNat < 32 then
    ['\\', 'u', '0', '0', Nat.digitChar (c.toNat / 16), Nat.digitChar (c.toNat % 16)]
  else [c]

/-- The literal of a text. -/
def quoted (text : List Char) : List Char := '"' :: (text.flatMap escape ++ ['"'])

end GraphQLDoc
