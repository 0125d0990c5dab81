import GraphQLDoc.Json.Text
import GraphQLDoc.Text.Hidden

/-!
# Malformed responses

* `Response.Part`: the parts of a response that must have a certain type.
* `Response.Fault`: why a body is not a response.
* `Json.describe`: what a value is, in words.
* `Response.Fault.explain`: the sentence that explains a fault.
-/

namespace GraphQLDoc

/-- The parts of a response that must have a certain type. -/
inductive Response.Part where
  | body
  /-- The error list. -/
  | errors
  /-- An entry of the error list. -/
  | entry
  /-- The message of an entry. -/
  | message
  deriving DecidableEq

/-- Why a body is not a response. -/
inductive Response.Fault where
  /-- A value of another type stands in place of a part. -/
  | wrongType (part : Response.Part) (found : Json)
  /-- A body that is an array has `length` items, more than a response has parts. -/
  | longBody (length : Nat)
  /-- An entry of the error list is an object without a message. -/
  | noMessage
  /-- An entry of the error list is an empty array. -/
  | emptyEntry
  /-- An entry of the error list is an array of `length` items, more than one. -/
  | longEntry (length : Nat)

/-- A character in a quoted text of a report. Line ends, tabs and U+0000 have short escapes, other
hidden characters are given by their codes. -/
def reportEscape (c : Char) : List Char :=
  if c = '"' then ['\\', '"']
  else if c = '\\' then ['\\', '\\']
  else if c = '\n' then ['\\', 'n']
  else if c = '\r' then ['\\', 'r']
  else if c = '\t' then ['\\', 't']
  else if c = '\x00' then ['\\', '0']
  else if isHidden c then
    '\\' :: 'u' :: '\x7b' :: (Nat.toDigits 16 c.toNat ++ ['\x7d'])
  else [c]

/-- A scalar value between back quotes, after the name of its type. -/
def Json.named (type : String) (chars : List Char) : String :=
  type ++ " \x60" ++ String.ofList chars ++ "\x60"

/-- What a value is, for a report that expected something else. -/
def Json.describe : Json → String
  | .null => "null"
  | .bool b => Json.named "boolean" (Json.bool b).chars
  | .number (.int n h) => Json.named "integer" (Json.Number.int n h).chars
  | .number (.float x h) => Json.named "floating point" (Json.Number.float x h).chars
  | .string s => "string " ++ String.ofList ('"' :: (s.toList.flatMap reportEscape ++ ['"']))
  | .array _ => "sequence"
  | .object _ => "map"

/-- What stands in the place of a part in a proper response. -/
def Response.Part.expected : Response.Part → String
  | .body => "struct Response"
  | .errors => "a sequence"
  | .entry => "struct ResponseError"
  | .message => "a string"

/-- The count of items in an array that is too long, for a report. -/
def Response.tooLong (length : Nat) : String :=
  "invalid length " ++ String.ofList (digits length) ++ ", expected fewer elements in array"

/-- The sentence that explains a fault. -/
def Response.Fault.explain : Response.Fault → String
  | .wrongType part found => "invalid type: " ++ found.describe ++ ", expected " ++ part.expected
  | .longBody length => Response.tooLong length
  | .noMessage => "missing field \x60message\x60"
  | .emptyEntry => "invalid length 0, expected struct ResponseError with 1 element"
  | .longEntry length => Response.tooLong length

end GraphQLDoc
