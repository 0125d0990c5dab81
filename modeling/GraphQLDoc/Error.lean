import GraphQLDoc.Response.Fault

/-!
# Errors

* `ErrorKind`: what went wrong, broadly. Each kind has a heading.
* `Error`: the causes of failure, each with what it needs to be explained.
* `kind`, `message`, `context`: how a cause is reported. `Error.report` puts these into one text.

Fragments that spread each other can be followed forever, without a result and without a report.
`Error.cyclicFragments` stands in the place of the outcome that there is not, so that every search
has a value. Its kind, its heading and its message are labels for that, and no report ever shows
them.
-/

namespace GraphQLDoc

/-- What an error is about. -/
inductive ErrorKind where
  /-- A field or a fragment declaration without a name. -/
  | invalidName
  /-- An argument that has no literal. -/
  | invalidArgument
  /-- Input that selects no fields. -/
  | invalidSubfield
  /-- A fragment whose name is not a name of the grammar. -/
  | invalidFragmentName
  /-- A fragment without a declaration. -/
  | undeclaredFragment
  /-- No kind of report. It marks a search for declarations that has no end. -/
  | cyclicFragment
  /-- A client that cannot send requests. -/
  | configuration
  /-- A request that was not delivered. -/
  | transport
  /-- A response that is malformed or reports errors. -/
  | response
  deriving DecidableEq

/-- The heading of a report. The one of `cyclicFragment` is a label only. -/
def ErrorKind.heading : ErrorKind → String
  | .invalidName => "Invalid Name"
  | .invalidArgument => "Invalid Argument"
  | .invalidSubfield => "Invalid Subfield"
  | .invalidFragmentName => "Invalid Fragment Name"
  | .undeclaredFragment => "Undeclared Fragment"
  | .cyclicFragment => "Cyclic Fragment"
  | .configuration => "Configuration Error"
  | .transport => "Transport Error"
  | .response => "GraphQL Error"

/-- A cause of failure. -/
inductive Error where
  /-- A field has an empty name. -/
  | unnamedField
  /-- A fragment declaration has an empty name or an empty type condition. -/
  | unnamedFragment
  /-- An argument, or an entry of an object value, has an empty name. -/
  | unnamedArgument
  /-- The argument or entry `key` holds NaN or an infinity. -/
  | nonFiniteArgument (key : String)
  /-- Null stands inside the JSON form of an argument. -/
  | nestedNull
  /-- The JSON form of arguments is not an object. -/
  | argumentsNotObject (found : Json)
  /-- The JSON form of a selection holds something that selects no fields. -/
  | notSelection (found : Json)
  /-- A fragment name is not a name of the grammar. -/
  | invalidFragmentName (name : String)
  /-- The JSON form of a fragment name is not a string. -/
  | fragmentNameNotString (found : Json)
  /-- A fragment that is spread has no declaration. -/
  | undeclaredFragment (name : String)
  /-- Fragments spread each other, and following them has no end. This is no failure that a caller
  gets to see: it stands for a search that gives neither a result nor a report, on however many
  levels. -/
  | cyclicFragments
  /-- The settings of a client have no address. -/
  | missingUri
  /-- The settings of a client have no token. -/
  | missingToken
  /-- A body that is not a response. -/
  | malformedResponse (fault : Response.Fault)
  /-- A response that reports errors. -/
  | failedRequest (messages : List String)
  /-- A failure outside of this library, reported by a transport for instance. -/
  | reported (kind : ErrorKind) (message : String) (context : Option String)

namespace Error

/-- What the error is about. -/
def kind : Error → ErrorKind
  | unnamedField => .invalidName
  | unnamedFragment => .invalidName
  | unnamedArgument => .invalidArgument
  | nonFiniteArgument _ => .invalidArgument
  | nestedNull => .invalidArgument
  | argumentsNotObject _ => .invalidArgument
  | notSelection _ => .invalidSubfield
  | invalidFragmentName _ => .invalidFragmentName
  | fragmentNameNotString _ => .invalidFragmentName
  | undeclaredFragment _ => .undeclaredFragment
  | cyclicFragments => .cyclicFragment
  | missingUri => .configuration
  | missingToken => .configuration
  | malformedResponse _ => .response
  | failedRequest _ => .response
  | reported kind _ _ => kind

/-- What happened, in one sentence. The messages of a failed request are joined. The one of
`cyclicFragments` is a label only. -/
def message : Error → String
  | unnamedField => "Field name is required"
  | unnamedFragment => "Fragment name and type condition are required"
  | unnamedArgument => "Argument names must not be empty"
  | nonFiniteArgument _ => "Argument values must be finite numbers"
  | nestedNull => "Received null for a nested argument value"
  | argumentsNotObject _ => "Arguments must be an object"
  | notSelection _ => "Invalid subfield data"
  | invalidFragmentName _ => "Invalid fragment name"
  | fragmentNameNotString _ => "Invalid fragment name"
  | undeclaredFragment name => "Undeclared fragment: " ++ name
  | cyclicFragments => "Fragments spread each other in a cycle"
  | missingUri => "URI required"
  | missingToken => "token required"
  | malformedResponse _ => "Received a malformed GraphQL response"
  | failedRequest messages => ". ".intercalate messages
  | reported _ message _ => message

/-- Where it happened, or on which input. -/
def context : Error → Option String
  | nonFiniteArgument key => some key
  | argumentsNotObject found => some found.text
  | notSelection found => some found.text
  | invalidFragmentName name => some name
  | fragmentNameNotString found => some found.text
  | malformedResponse fault => some fault.explain
  | reported _ _ context => context
  | _ => none

/-- The fragment that lacks a declaration. -/
def fragmentName? : Error → Option String
  | undeclaredFragment name => some name
  | _ => none

/-- Heading and message, without the context. -/
def summary (e : Error) : String := e.kind.heading ++ ": " ++ e.message

/-- Heading and message, and the context on a line of its own. -/
def report (e : Error) : String :=
  match e.context with
  | some context => e.summary ++ "\n" ++ context
  | none => e.summary

/-- The report between line ends, as it stands among other diagnostics. -/
def diagnostic (e : Error) : String := "\n" ++ e.report ++ "\n"

end Error

end GraphQLDoc
