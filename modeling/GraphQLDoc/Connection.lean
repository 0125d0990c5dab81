import GraphQLDoc.Json

/-!
# Connections

Services page through lists by connections: objects whose member `edges` is an array of edges, each
an object with a `node`. `Json.flattenConnections` puts the list of nodes in place of every
connection.

Connections are found from the outside in. The nodes of a connection may hold connections again. All
other members of a connection and of its edges are dropped.
-/

namespace GraphQLDoc

namespace Json

mutual

/-- The value with the lists of nodes in place of the connections. -/
def flattenConnections : Json → Json
  | .array items => .array (flattenItems items)
  | .object members =>
    match connectionNodes? members with
    | some nodes => .array nodes
    | none => .object (flattenMembers members)
  | j => j

/-- The items of an array, one by one. -/
def flattenItems : List Json → List Json
  | [] => []
  | j :: js => flattenConnections j :: flattenItems js

/-- The members of an object that is no connection, one by one. -/
def flattenMembers : List (String × Json) → List (String × Json)
  | [] => []
  | (key, j) :: members => (key, flattenConnections j) :: flattenMembers members

/-- The nodes of a connection, or nothing if the members are not those of one. -/
def connectionNodes? : List (String × Json) → Option (List Json)
  | [] => none
  | (key, j) :: members =>
    if key = "edges" then
      match j with
      | .array edges => some (edgeNodes edges)
      | _ => none
    else connectionNodes? members

/-- The nodes of some edges. An edge that is not an object has none. -/
def edgeNodes : List Json → List Json
  | [] => []
  | .object members :: edges => edgeNode members :: edgeNodes edges
  | _ :: edges => .null :: edgeNodes edges

/-- The node among the members of an edge, and null in place of a missing one. -/
def edgeNode : List (String × Json) → Json
  | [] => .null
  | (key, j) :: members => if key = "node" then flattenConnections j else edgeNode members

end

theorem flattenItems_eq_map (items : List Json) :
    flattenItems items = items.map flattenConnections := by
  induction items with
  | nil => rfl
  | cons j js ih => rw [flattenItems, ih, List.map_cons]

theorem flattenMembers_eq_map (members : List (String × Json)) :
    flattenMembers members = members.map fun m => (m.1, m.2.flattenConnections) := by
  induction members with
  | nil => rfl
  | cons m rest ih => rw [flattenMembers, ih, List.map_cons]

end Json

end GraphQLDoc
