import GraphQLDoc.Connection
import GraphQLDoc.Proofs.Entries
import Mathlib.Logic.ExistsUnique

/-!
# Flattened connections, path by path

Values are read along paths of keys and indices. Flattening only changes the paths: an index into a
list of nodes stands for three steps, to the edges of a connection, to one of them and to its node.

* `Json.at?`: the value that a path leads to.
* `Json.edges?`, `Json.node?`: connections with their edges, and edges with their nodes.
* `Json.expand`: the path in a value for a path in the flattened value. `Json.StopsAtEdge` says that
  it ends at an edge without a node.
* `Json.ThroughNodes`: a path that passes each connection by an edge and its node.
* `Json.Keeps`: what flattening keeps of a single value.
* `Json.at?_flattenConnections`: what stands at a path of the flattened value.
* `Json.flattenConnections_renames_paths`: which scalars stand where, and that nothing else does.
-/

namespace GraphQLDoc

namespace Json

/-- One step into a value. -/
inductive Step where
  | key (name : String)
  | index (i : Nat)

/-- The value that one step leads to. -/
def child? : Json → Step → Option Json
  | .object members, .key name => Entries.get? members name
  | .array items, .index i => items[i]?
  | _, _ => none

/-- The value that a path leads to. -/
def at? (j : Json) : List Step → Option Json
  | [] => some j
  | s :: path => (j.child? s).bind fun k => k.at? path

/-- The edges of a connection. A value is a connection if its member `edges` is an array. -/
def edges? (j : Json) : Option (List Json) :=
  match j.child? (.key "edges") with
  | some (.array edges) => some edges
  | _ => none

/-- The node of an edge. -/
def node? (edge : Json) : Option Json := edge.child? (.key "node")

/-- The steps that one step into the flattened value stands for. -/
def expandStep (j : Json) : Step → List Step
  | .key name => [.key name]
  | .index i => if j.edges?.isSome then [.key "edges", .index i, .key "node"] else [.index i]

/-- The path that a path in the flattened value stands for. Where it leads nowhere, it is not
changed any more. -/
def expand (j : Json) : List Step → List Step
  | [] => []
  | s :: path =>
    j.expandStep s ++
      match j.at? (j.expandStep s) with
      | some k => k.expand path
      | none => path

/-- The step leads to an edge of a connection, and the edge has no node. -/
def MissesNode (j : Json) (s : Step) : Prop :=
  ∃ edges i edge, s = .index i ∧ j.edges? = some edges ∧ edges[i]? = some edge ∧ edge.node? = none

/-- The path stands for one that ends at an edge without a node. -/
def StopsAtEdge (j : Json) (path : List Step) : Prop :=
  ∃ before connection edges i edge,
    j.expand path = before ++ [.key "edges", .index i, .key "node"] ∧
      j.at? before = some connection ∧ connection.edges? = some edges ∧ edges[i]? = some edge ∧
      edge.node? = none

/-- The path passes each connection by one of its edges and the node of this edge. The edge itself
belongs to the way, whatever other members it has. -/
inductive ThroughNodes : Json → List Step → Prop
  | here (j : Json) : ThroughNodes j []
  | step {j k : Json} {s : Step} {path : List Step} (plain : j.edges? = none)
      (h : j.child? s = some k) (rest : ThroughNodes k path) : ThroughNodes j (s :: path)
  | node {j edge k : Json} {edges : List Json} {i : Nat} {path : List Step}
      (h : j.edges? = some edges) (he : edges[i]? = some edge) (hn : edge.node? = some k)
      (rest : ThroughNodes k path) :
      ThroughNodes j (.key "edges" :: .index i :: .key "node" :: path)

/-- Neither an array nor an object. -/
def IsScalar : Json → Prop
  | .array _ => False
  | .object _ => False
  | _ => True

/-- `w` has the items of the array `k`, the edges of the connection `k` or the keys of any other
object `k`, as to their number and order, and it is the scalar `k`. -/
structure Keeps (k w : Json) : Prop where
  scalar : k.IsScalar → w = k
  items : ∀ items, k = .array items → ∃ flat, w = .array flat ∧ flat.length = items.length
  edges : ∀ edges, k.edges? = some edges → ∃ nodes, w = .array nodes ∧ nodes.length = edges.length
  keys : ∀ members, k = .object members → k.edges? = none →
    ∃ flat, w = .object flat ∧ Entries.keys flat = Entries.keys members

variable {j k edge w v : Json} {s : Step} {path : List Step} {edges : List Json}

/-! ## Paths -/

theorem at?_append (j : Json) (first second : List Step) :
    j.at? (first ++ second) = (j.at? first).bind fun k => k.at? second := by
  induction first generalizing j with
  | nil => rfl
  | cons s first ih => simp only [List.cons_append, at?, Option.bind_assoc, ih]

theorem edges?_eq_some_iff :
    j.edges? = some edges ↔ j.child? (.key "edges") = some (.array edges) := by
  unfold edges?
  split
  · next found => simp [found]
  · next other => exact ⟨fun h => (nomatch h), fun h => absurd h (other edges)⟩

/-- There is nothing below null. -/
theorem eq_nil_of_at?_null (h : null.at? path = some w) : path = [] ∧ w = null := by
  cases path with
  | nil => exact ⟨rfl, (Option.some.inj h).symm⟩
  | cons s path => exact nomatch h

theorem expandStep_of_plain (h : j.edges? = none) (s : Step) : j.expandStep s = [s] := by
  cases s <;> simp [expandStep, h]

theorem expandStep_of_edges (h : j.edges? = some edges) (i : Nat) :
    j.expandStep (.index i) = [.key "edges", .index i, .key "node"] := by
  simp [expandStep, h]

theorem expandStep_ne_nil (j : Json) (s : Step) : j.expandStep s ≠ [] := by
  unfold expandStep
  split
  · exact List.cons_ne_nil _ _
  · split <;> exact List.cons_ne_nil _ _

theorem expand_cons (h : j.at? (j.expandStep s) = some k) (path : List Step) :
    j.expand (s :: path) = j.expandStep s ++ k.expand path := by
  rw [expand, h]

/-- The way to the node of an edge. -/
theorem at?_node (h : j.edges? = some edges) {i : Nat} (he : edges[i]? = some edge) :
    j.at? [.key "edges", .index i, .key "node"] = edge.node? := by
  have listed : (array edges).child? (.index i) = some edge := he
  simp [at?, edges?_eq_some_iff.mp h, listed, node?]

/-! ## One step -/

/-- What flattening puts in place of an edge. -/
def flatNode (edge : Json) : Json := (edge.node?.map flattenConnections).getD .null

theorem edgeNode_eq (members : List (String × Json)) :
    edgeNode members = ((Entries.get? members "node").map flattenConnections).getD .null := by
  induction members with
  | nil => rfl
  | cons m members ih =>
    rw [edgeNode, Entries.get?, ih]
    split <;> rfl

theorem edgeNodes_eq_map (edges : List Json) : edgeNodes edges = edges.map flatNode := by
  induction edges with
  | nil => rfl
  | cons edge edges ih =>
    cases edge with
    | object members =>
      rw [edgeNodes, edgeNode_eq, ih]
      rfl
    | _ => exact congrArg (List.cons null) ih

theorem connectionNodes?_eq (members : List (String × Json)) :
    connectionNodes? members = (object members).edges?.map (List.map flatNode) := by
  unfold edges? child?
  induction members with
  | nil => rfl
  | cons m members ih =>
    obtain ⟨key, j⟩ := m
    dsimp only at ih ⊢
    unfold connectionNodes? Entries.get?
    rw [ih]
    split
    · cases j with
      | array edges => exact congrArg some (edgeNodes_eq_map edges)
      | _ => rfl
    · rfl

theorem flattenConnections_of_edges (h : j.edges? = some edges) :
    j.flattenConnections = .array (edges.map flatNode) := by
  cases j with
  | object members => rw [flattenConnections, connectionNodes?_eq, h]; rfl
  | _ => exact nomatch h

theorem flattenConnections_of_plain {members : List (String × Json)}
    (h : (object members).edges? = none) :
    (object members).flattenConnections =
      .object (members.map fun m => (m.1, m.2.flattenConnections)) := by
  rw [flattenConnections, connectionNodes?_eq, h, ← flattenMembers_eq_map]
  rfl

theorem flattenConnections_scalar (h : j.IsScalar) : j.flattenConnections = j := by
  cases j with
  | array _ => exact h.elim
  | object _ => exact h.elim
  | _ => rfl

theorem child?_flattenConnections_of_plain (h : j.edges? = none) (s : Step) :
    j.flattenConnections.child? s = (j.child? s).map flattenConnections := by
  cases j with
  | array items =>
    rw [flattenConnections, flattenItems_eq_map]
    cases s with
    | key => rfl
    | index i => exact List.getElem?_map
  | object members =>
    rw [flattenConnections_of_plain h]
    cases s with
    | key name => exact Entries.get?_map members flattenConnections name
    | index i => rfl
  | _ => rfl

/-- Where one step into the flattened value leads. -/
theorem child?_flattenConnections_cases (h : j.flattenConnections.child? s = some w) :
    (j.edges? = none ∧ ∃ k, j.child? s = some k ∧ w = k.flattenConnections) ∨
      ∃ edges i edge, j.edges? = some edges ∧ s = .index i ∧ edges[i]? = some edge ∧
        w = edge.flatNode := by
  cases found : j.edges? with
  | none =>
    rw [child?_flattenConnections_of_plain found] at h
    obtain ⟨k, hk, rfl⟩ := Option.map_eq_some_iff.mp h
    exact .inl ⟨rfl, k, hk, rfl⟩
  | some edges =>
    rw [flattenConnections_of_edges found] at h
    cases s with
    | key => exact nomatch h
    | index i =>
      have listed : (edges.map flatNode)[i]? = some w := h
      rw [List.getElem?_map] at listed
      obtain ⟨edge, he, rfl⟩ := Option.map_eq_some_iff.mp listed
      exact .inr ⟨edges, i, edge, rfl, rfl, he, rfl⟩

/-- One step into the flattened value stands for the way to some value, unless it leads to an edge
without a node. -/
theorem child?_flattenConnections (h : j.flattenConnections.child? s = some w) :
    (∃ k, j.at? (j.expandStep s) = some k ∧ w = k.flattenConnections ∧
      ∀ path, k.ThroughNodes path → j.ThroughNodes (j.expandStep s ++ path)) ∨
    w = .null ∧ j.MissesNode s := by
  obtain ⟨plain, k, hk, rfl⟩ | ⟨edges, i, edge, found, rfl, he, rfl⟩ :=
    child?_flattenConnections_cases h
  · rw [expandStep_of_plain plain]
    exact .inl ⟨k, by simp [at?, hk], rfl, fun _ => .step plain hk⟩
  · rw [expandStep_of_edges found]
    cases hn : edge.node? with
    | some k =>
      refine .inl ⟨k, (at?_node found he).trans hn, ?_, fun _ => .node found he hn⟩
      rw [flatNode, hn, Option.map_some, Option.getD_some]
    | none =>
      refine .inr ⟨?_, edges, i, edge, rfl, found, he, hn⟩
      rw [flatNode, hn, Option.map_none, Option.getD_none]

/-- Steps into the flattened value can be told apart by what they stand for. -/
theorem eq_of_expandStep_append {s' : Step} {w' : Json} {rest rest' : List Step}
    (h : j.flattenConnections.child? s = some w) (h' : j.flattenConnections.child? s' = some w')
    (same : j.expandStep s ++ rest = j.expandStep s' ++ rest') : s = s' ∧ rest = rest' := by
  cases found : j.edges? with
  | none => simpa [expandStep_of_plain found] using same
  | some edges =>
    rw [flattenConnections_of_edges found] at h h'
    cases s with
    | key => exact nomatch h
    | index i =>
      cases s' with
      | key => exact nomatch h'
      | index i' => simpa [expandStep_of_edges found] using same

/-! ## Whole paths -/

theorem StopsAtEdge.at?_expand (h : j.StopsAtEdge path) : j.at? (j.expand path) = none := by
  obtain ⟨before, connection, edges, i, edge, ends, there, found, he, hn⟩ := h
  rw [ends, at?_append, there, Option.bind_some, at?_node found he, hn]

theorem MissesNode.stopsAtEdge (h : j.MissesNode s) : j.StopsAtEdge [s] := by
  obtain ⟨edges, i, edge, rfl, found, he, hn⟩ := h
  refine ⟨[], j, edges, i, edge, ?_, rfl, found, he, hn⟩
  rw [expand, expandStep_of_edges found, at?_node found he, hn]
  rfl

theorem StopsAtEdge.cons (there : j.at? (j.expandStep s) = some k) (h : k.StopsAtEdge path) :
    j.StopsAtEdge (s :: path) := by
  obtain ⟨before, connection, edges, i, edge, ends, hc, h⟩ := h
  refine ⟨j.expandStep s ++ before, connection, edges, i, edge, ?_, ?_, h⟩
  · rw [expand_cons there, ends, List.append_assoc]
  · rw [at?_append, there, Option.bind_some, hc]

/-- A path of the flattened value leads to what flattening makes of the value at the expanded path,
or to null in place of a node. -/
theorem at?_flattenConnections (h : j.flattenConnections.at? path = some w) :
    (∃ k, j.at? (j.expand path) = some k ∧ j.ThroughNodes (j.expand path) ∧
      w = k.flattenConnections) ∨
    w = .null ∧ j.StopsAtEdge path := by
  induction path generalizing j with
  | nil => exact .inl ⟨j, rfl, .here j, (Option.some.inj h).symm⟩
  | cons s path ih =>
    obtain ⟨x, hx, h⟩ := Option.bind_eq_some_iff.mp h
    obtain ⟨k, there, rfl, through⟩ | ⟨rfl, missing⟩ := child?_flattenConnections hx
    · obtain ⟨k', hk', deeper, rfl⟩ | ⟨rfl, stops⟩ := ih h
      · rw [expand_cons there]
        refine .inl ⟨k', ?_, through _ deeper, rfl⟩
        rw [at?_append, there, Option.bind_some, hk']
      · exact .inr ⟨rfl, stops.cons there⟩
    · obtain ⟨rfl, rfl⟩ := eq_nil_of_at?_null h
      exact .inr ⟨rfl, missing.stopsAtEdge⟩

theorem expand_injective {path' : List Step} {w' : Json}
    (h : j.flattenConnections.at? path = some w) (h' : j.flattenConnections.at? path' = some w')
    (same : j.expand path = j.expand path') : path = path' := by
  induction path generalizing j path' with
  | nil =>
    cases path' with
    | nil => rfl
    | cons s' path' =>
      exact absurd (List.append_eq_nil_iff.mp same.symm).1 (j.expandStep_ne_nil s')
  | cons s path ih =>
    cases path' with
    | nil => exact absurd (List.append_eq_nil_iff.mp same).1 (j.expandStep_ne_nil s)
    | cons s' path' =>
      obtain ⟨x, hx, h⟩ := Option.bind_eq_some_iff.mp h
      obtain ⟨x', hx', h'⟩ := Option.bind_eq_some_iff.mp h'
      obtain ⟨rfl, rest⟩ := eq_of_expandStep_append hx hx' same
      cases Option.some.inj (hx.symm.trans hx')
      obtain ⟨k, there, rfl, -⟩ | ⟨rfl, -⟩ := child?_flattenConnections hx
      · rw [there] at rest
        rw [ih h h' rest]
      · rw [(eq_nil_of_at?_null h).1, (eq_nil_of_at?_null h').1]

/-- Every path through nodes is the expansion of one in the flattened value. -/
theorem exists_expand_eq (h : j.ThroughNodes path) (found : j.at? path = some v) :
    ∃ p, j.flattenConnections.at? p = some v.flattenConnections ∧ j.expand p = path := by
  induction h with
  | here j => exact ⟨[], congrArg (Option.map flattenConnections) found, rfl⟩
  | @step j k s path plain hk _ ih =>
    rw [at?, hk, Option.bind_some] at found
    obtain ⟨p, hp, rfl⟩ := ih found
    have there : j.at? (j.expandStep s) = some k := by simp [expandStep_of_plain plain, at?, hk]
    refine ⟨s :: p, ?_, ?_⟩
    · rw [at?, child?_flattenConnections_of_plain plain, hk, Option.map_some, Option.bind_some, hp]
    · rw [expand_cons there, expandStep_of_plain plain, List.singleton_append]
  | @node j edge k edges i path he hi hn _ ih =>
    have way : j.at? [.key "edges", .index i, .key "node"] = some k := (at?_node he hi).trans hn
    have split : j.at? ([.key "edges", .index i, .key "node"] ++ path) = some v := found
    rw [at?_append, way, Option.bind_some] at split
    obtain ⟨p, hp, rfl⟩ := ih split
    refine ⟨.index i :: p, ?_, ?_⟩
    · have listed : (array (edges.map flatNode)).child? (.index i) = some k.flattenConnections := by
        simp [child?, hi, flatNode, hn]
      rw [flattenConnections_of_edges he, at?, listed, Option.bind_some, hp]
    · rw [expand_cons (by rw [expandStep_of_edges he, way]), expandStep_of_edges he]
      rfl

/-! ## The flattened value -/

theorem keeps_flattenConnections (k : Json) : Keeps k k.flattenConnections where
  scalar := flattenConnections_scalar
  items items h := by
    subst h
    rw [flattenConnections, flattenItems_eq_map]
    exact ⟨_, rfl, List.length_map _⟩
  edges edges h := ⟨_, flattenConnections_of_edges h, List.length_map _⟩
  keys members h plain := by
    subst h
    exact ⟨_, flattenConnections_of_plain plain, by simp [Entries.keys]⟩

/-- Flattening makes scalars of nothing but scalars. -/
theorem eq_of_flattenConnections_eq (h : k.flattenConnections = v) (scalar : v.IsScalar) :
    k = v := by
  subst h
  cases k with
  | array items => exact scalar.elim
  | object members =>
    unfold flattenConnections at scalar
    split at scalar <;> exact scalar.elim
  | _ => rfl

/-- A path of the flattened value leads to a scalar exactly if the expanded path leads to the same
scalar, or if the scalar is null and the expanded path ends at an edge without a node. Unless it
ends there, the expanded path passes connections by nodes only, and what stands at its end is kept
in number, order and keys. In turn, each scalar that is reached by nodes stands at exactly one path
of the flattened value that expands to its own. -/
theorem flattenConnections_renames_paths (j : Json) :
    (∀ path w, j.flattenConnections.at? path = some w →
      (∀ v : Json, v.IsScalar →
        (w = v ↔ j.at? (j.expand path) = some v ∨ v = .null ∧ j.StopsAtEdge path)) ∧
      (j.StopsAtEdge path ∨ ∃ k, j.at? (j.expand path) = some k ∧
        j.ThroughNodes (j.expand path) ∧ Keeps k w)) ∧
    ∀ path v, v.IsScalar → j.ThroughNodes path → j.at? path = some v →
      ∃! p, j.flattenConnections.at? p = some v ∧ j.expand p = path := by
  refine ⟨fun path w h => ?_, fun path v scalar through found => ?_⟩
  · obtain ⟨k, there, through, rfl⟩ | ⟨rfl, stops⟩ := at?_flattenConnections h
    · refine ⟨fun v scalar => ⟨fun same => ?_, ?_⟩,
        .inr ⟨k, there, through, keeps_flattenConnections k⟩⟩
      · exact .inl (eq_of_flattenConnections_eq same scalar ▸ there)
      · rintro (other | ⟨-, stops⟩)
        · cases Option.some.inj (there.symm.trans other)
          exact flattenConnections_scalar scalar
        · exact nomatch there.symm.trans stops.at?_expand
    · refine ⟨fun v _ => ⟨fun same => .inr ⟨same.symm, stops⟩, ?_⟩, .inl stops⟩
      rintro (other | ⟨rfl, -⟩)
      · exact nomatch other.symm.trans stops.at?_expand
      · rfl
  · obtain ⟨p, hp, expanded⟩ := exists_expand_eq through found
    rw [flattenConnections_scalar scalar] at hp
    refine ⟨p, ⟨hp, expanded⟩, fun q ⟨hq, same⟩ => ?_⟩
    exact expand_injective hq hp (same.trans expanded.symm)

/-- The value `{"repos":{"edges":[{"node":{"name":"a"}},true],"total":2}}` with a connection. -/
def sampleRepos : Json :=
  .object [("repos", .object [
    ("edges", .array [.object [("node", .object [("name", .string "a")])], .bool true]),
    ("total", .number (.int 2 (by decide)))])]

theorem flattenConnections_renames_paths_sampleRepos :
    sampleRepos.expand [.key "repos", .index 0, .key "name"] =
      [.key "repos", .key "edges", .index 0, .key "node", .key "name"] ∧
    sampleRepos.at? [.key "repos", .key "edges", .index 0, .key "node", .key "name"] =
      some (.string "a") ∧
    (∃! p, sampleRepos.flattenConnections.at? p = some (.string "a") ∧
      sampleRepos.expand p = [.key "repos", .key "edges", .index 0, .key "node", .key "name"]) ∧
    sampleRepos.StopsAtEdge [.key "repos", .index 1] := by
  obtain ⟨paths, scalars⟩ := flattenConnections_renames_paths sampleRepos
  have through : sampleRepos.ThroughNodes
      [.key "repos", .key "edges", .index 0, .key "node", .key "name"] :=
    .step rfl rfl (.node rfl rfl rfl (.step rfl rfl (.here _)))
  obtain ⟨named, -⟩ := paths [.key "repos", .index 0, .key "name"] (.string "a") rfl
  obtain ⟨missing, -⟩ := paths [.key "repos", .index 1] .null rfl
  have stops : sampleRepos.StopsAtEdge [.key "repos", .index 1] :=
    ((missing .null trivial).mp rfl).elim (fun h => nomatch h) And.right
  have reached := ((named (.string "a") trivial).mp rfl).resolve_right fun h => nomatch h.1
  exact ⟨rfl, reached, scalars _ _ trivial through rfl, stops⟩

end Json

end GraphQLDoc
