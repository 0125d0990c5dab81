import GraphQLDoc.Error

/-!
# Responses

A service answers with data, with errors, or with both. The body is an object with the members
`data` and `errors`, or an array of the two in this order, and either may be missing. An error is an
object with a `message`, or an array of nothing but the message. Members of other names do not
matter.

* `Response.ofJson`: the response that a body holds. The first fault is reported.
* `Response.outcome`: what the request asked for, if there are no errors.
-/

namespace GraphQLDoc

/-- What a service answered. -/
structure Response where
  data : Json
  /-- The messages of the reported errors. A body may have no error list at all. -/
  errors : Option (List String)

namespace Response

/-- The text of a message. -/
def messageOfJson : Json → Except Fault String
  | .string s => .ok s
  | j => .error (.wrongType .message j)

/-- The message of an entry of the error list. -/
def messageOfEntry : Json → Except Fault String
  | .object members =>
    match Entries.get? members "message" with
    | none => .error .noMessage
    | some j => messageOfJson j
  | .array [] => .error .emptyEntry
  | .array (j :: more) => do
    let message ← messageOfJson j
    if more.isEmpty then return message else .error (.longEntry (more.length + 1))
  | j => .error (.wrongType .entry j)

/-- The messages of some entries. The first fault counts. -/
def messagesOfEntries : List Json → Except Fault (List String)
  | [] => .ok []
  | j :: js => do
    let message ← messageOfEntry j
    let messages ← messagesOfEntries js
    return message :: messages

/-- The messages of the error list. Null is no list. -/
def messagesOfErrors : Json → Except Fault (Option (List String))
  | .null => .ok none
  | .array entries => (messagesOfEntries entries).map some
  | j => .error (.wrongType .errors j)

/-- The response of its two parts. -/
def ofParts (data errors : Option Json) : Except Fault Response := do
  let messages ← messagesOfErrors (errors.getD .null)
  return { data := data.getD .null, errors := messages }

/-- The response in a body. An array that is too long is refused only after its parts are read. -/
def ofBody : Json → Except Fault Response
  | .object members => ofParts (Entries.get? members "data") (Entries.get? members "errors")
  | .array items => do
    let response ← ofParts items[0]? items[1]?
    if items.length ≤ 2 then return response else .error (.longBody items.length)
  | j => .error (.wrongType .body j)

/-- The response in a body, or an error with the fault. -/
def ofJson (body : Json) : Except Error Response := (ofBody body).mapError .malformedResponse

/-- The data of a response that reports no errors. -/
def outcome (response : Response) : Except Error Json :=
  match response.errors with
  | some (message :: messages) => .error (.failedRequest (message :: messages))
  | _ => .ok response.data

end Response

end GraphQLDoc
