import GraphQLDoc.Proofs.Depth
import GraphQLDoc.Proofs.Flattening

/-!
# Flattening again

A flattened value may hold connections again: an object whose member `edges` is a connection, and
thus no array, is no connection itself, but it becomes one when that member is flattened. Without
such objects, flattening a second time changes nothing.

* `Json.IsConnection`, `Json.HidesConnection`: connections, and objects that become one.
* `Json.visits`, `Json.Visited`: the values that flattening goes on with, and all that it reaches.
* `Json.flattenConnections_eq_self_iff`: the values that flattening does not change.
* `Json.everywhere_flattenConnections_iff`: when no connection is left.
* `Json.flattenConnections_fixpoints`: both, and what they mean for flattening twice.
-/

namespace GraphQLDoc

theorem map_eq_self_iff {α : Type} {f : α → α} {l : List α} : l.map f = l ↔ ∀ x ∈ l, f x = x := by
  rw [← List.map_inj_left, List.map_id']

namespace Json

/-- The value is an object whose member `edges` is an array. -/
def IsConnection (j : Json) : Prop := ∃ edges, j.edges? = some edges

/-- The value is an object whose member `edges` is a connection. -/
def HidesConnection (j : Json) : Prop := ∃ k, j.child? (.key "edges") = some k ∧ k.IsConnection

/-- The values that flattening goes on with: the nodes of the edges of a connection, the items of an
array and the members of any other object. -/
def visits (j : Json) : List Json :=
  match j.edges? with
  | some edges => edges.filterMap node?
  | none => j.children

/-- Flattening `j` reaches `v`. -/
abbrev Visited (v j : Json) : Prop := GraphQLDoc.Within visits v j

variable {j k : Json} {s : Step} {edges : List Json}

/-! ## One step -/

theorem not_isConnection_iff : ¬j.IsConnection ↔ j.edges? = none := by
  rw [IsConnection, ← Option.isSome_iff_exists, Option.not_isSome_iff_eq_none]

theorem mem_children_of_child? (h : j.child? s = some k) : k ∈ j.children := by
  cases j with
  | array items =>
    cases s with
    | key => exact nomatch h
    | index i => exact List.mem_of_getElem? h
  | object members =>
    cases s with
    | key name => exact List.mem_map_of_mem (Entries.mem_of_get? h)
    | index => exact nomatch h
  | _ => exact nomatch h

theorem visits_of_edges (h : j.edges? = some edges) : j.visits = edges.filterMap node? := by
  rw [visits, h]

theorem visits_of_plain (h : j.edges? = none) : j.visits = j.children := by
  rw [visits, h]

theorem sizeOf_lt_of_mem_visits (h : k ∈ j.visits) : sizeOf k < sizeOf j := by
  cases found : j.edges? with
  | none => exact sizeOf_lt_of_mem_children (visits_of_plain found ▸ h)
  | some edges =>
    rw [visits_of_edges found] at h
    obtain ⟨edge, he, hn⟩ := List.mem_filterMap.mp h
    have list : array edges ∈ j.children := mem_children_of_child? (edges?_eq_some_iff.mp found)
    calc sizeOf k
      _ < sizeOf edge := sizeOf_lt_of_mem_children (mem_children_of_child? hn)
      _ < sizeOf (array edges) := sizeOf_lt_of_mem_children he
      _ < sizeOf j := sizeOf_lt_of_mem_children list

theorem children_flattenConnections_of_plain (h : j.edges? = none) :
    j.flattenConnections.children = j.children.map flattenConnections := by
  cases j with
  | array items =>
    rw [flattenConnections, flattenItems_eq_map]
    rfl
  | object members =>
    rw [flattenConnections_of_plain h, children, children, List.map_map, List.map_map]
    rfl
  | _ => rfl

/-- What stands directly inside a flattened value was visited, or is null in place of a node. -/
theorem forall_mem_children_flattenConnections {p : Json → Prop} (null : p .null) :
    (∀ w ∈ j.flattenConnections.children, p w) ↔ ∀ k ∈ j.visits, p k.flattenConnections := by
  cases found : j.edges? with
  | none => rw [children_flattenConnections_of_plain found, visits_of_plain found,
      List.forall_mem_map]
  | some edges =>
    have nodes : j.flattenConnections.children = edges.map flatNode := by
      rw [flattenConnections_of_edges found, children]
    rw [nodes, visits_of_edges found, List.forall_mem_map]
    constructor
    · intro h k hk
      obtain ⟨edge, he, hn⟩ := List.mem_filterMap.mp hk
      have node := h edge he
      rwa [flatNode, hn] at node
    · intro h edge he
      cases hn : edge.node? with
      | none => rwa [flatNode, hn]
      | some k =>
        rw [flatNode, hn]
        exact h k (List.mem_filterMap.mpr ⟨edge, he, hn⟩)

/-! ## Values that stay as they are -/

theorem flattenConnections_eq_self_iff_children :
    j.flattenConnections = j ↔ ¬j.IsConnection ∧ ∀ k ∈ j.children, k.flattenConnections = k := by
  cases found : j.edges? with
  | some edges =>
    rw [flattenConnections_of_edges found]
    refine ⟨?_, fun h => absurd ⟨edges, found⟩ h.1⟩
    rintro rfl
    exact nomatch found
  | none =>
    rw [and_iff_right (not_isConnection_iff.mpr found)]
    cases j with
    | array items =>
      rw [flattenConnections, flattenItems_eq_map, array.injEq, map_eq_self_iff]
      rfl
    | object members =>
      rw [flattenConnections_of_plain found, object.injEq, map_eq_self_iff, children,
        List.forall_mem_map]
      simp only [Prod.ext_iff, true_and]
    | _ => exact ⟨fun _ => List.forall_mem_nil _, fun _ => rfl⟩

/-- Flattening changes nothing exactly if there is no connection, whether it would be visited or
not: around every connection that is not visited there is one that is. -/
theorem flattenConnections_eq_self_iff (j : Json) :
    j.flattenConnections = j ↔ j.Everywhere fun k => ¬k.IsConnection := by
  induction j using Json.induction with
  | step j ih =>
    calc j.flattenConnections = j
      _ ↔ ¬j.IsConnection ∧ ∀ k ∈ j.children, k.flattenConnections = k :=
        flattenConnections_eq_self_iff_children
      _ ↔ ¬j.IsConnection ∧ ∀ k ∈ j.children, k.Everywhere fun k => ¬k.IsConnection :=
        and_congr_right fun _ => forall₂_congr ih
      _ ↔ j.Everywhere fun k => ¬k.IsConnection :=
        (everywhere_iff (p := fun k : Json => ¬k.IsConnection)).symm

/-! ## Connections that are left -/

/-- Only what is an array or a connection is flattened to an array. -/
theorem exists_flattenConnections_eq_array_iff :
    (∃ items, j.flattenConnections = .array items) ↔
      (∃ items, j = .array items) ∨ j.IsConnection := by
  cases found : j.edges? with
  | some edges =>
    rw [flattenConnections_of_edges found]
    exact ⟨fun _ => .inr ⟨edges, found⟩, fun _ => ⟨_, rfl⟩⟩
  | none =>
    rw [or_iff_left (not_isConnection_iff.mpr found)]
    cases j with
    | array items => exact ⟨fun _ => ⟨items, rfl⟩, fun _ => ⟨_, rfl⟩⟩
    | object members =>
      rw [flattenConnections_of_plain found]
      simp
    | _ => exact Iff.rfl

theorem isConnection_flattenConnections_iff :
    j.flattenConnections.IsConnection ↔ j.HidesConnection := by
  cases found : j.edges? with
  | some edges =>
    rw [flattenConnections_of_edges found]
    refine ⟨fun ⟨_, h⟩ => (nomatch h), fun ⟨k, hk, _, hidden⟩ => ?_⟩
    cases Option.some.inj (hk.symm.trans (edges?_eq_some_iff.mp found))
    exact nomatch hidden
  | none =>
    have flat := child?_flattenConnections_of_plain found (.key "edges")
    simp only [IsConnection, edges?_eq_some_iff, flat, Option.map_eq_some_iff]
    rw [exists_comm]
    refine exists_congr fun k => ?_
    rw [exists_and_left]
    refine and_congr_right fun hk => exists_flattenConnections_eq_array_iff.trans (or_iff_right ?_)
    rintro ⟨items, rfl⟩
    exact nomatch found.symm.trans (edges?_eq_some_iff.mpr hk)

/-- Flattening leaves no connection exactly if it visits no object that hides one. -/
theorem everywhere_flattenConnections_iff (j : Json) :
    (j.flattenConnections.Everywhere fun k => ¬k.IsConnection) ↔
      GraphQLDoc.Everywhere visits (fun v => ¬v.HidesConnection) j := by
  induction j using tree_induction sizeOf_lt_of_mem_visits with
  | step j ih =>
    have null : Json.null.Everywhere fun k => ¬k.IsConnection :=
      (everywhere_of_no_children rfl).mpr fun ⟨_, h⟩ => nomatch h
    calc (j.flattenConnections.Everywhere fun k => ¬k.IsConnection)
      _ ↔ ¬j.flattenConnections.IsConnection ∧ ∀ w ∈ j.flattenConnections.children,
            w.Everywhere fun k => ¬k.IsConnection := everywhere_iff
      _ ↔ ¬j.HidesConnection ∧ ∀ k ∈ j.visits,
            k.flattenConnections.Everywhere fun k => ¬k.IsConnection :=
        and_congr (not_congr isConnection_flattenConnections_iff)
          (forall_mem_children_flattenConnections null)
      _ ↔ ¬j.HidesConnection ∧ ∀ k ∈ j.visits,
            GraphQLDoc.Everywhere visits (fun v => ¬v.HidesConnection) k :=
        and_congr_right fun _ => forall₂_congr ih
      _ ↔ GraphQLDoc.Everywhere visits (fun v => ¬v.HidesConnection) j :=
        (everywhere_iff (p := fun v : Json => ¬v.HidesConnection)).symm

/-- Flattening changes nothing exactly if there is no connection at any depth. It leaves no
connection, or in other words it changes nothing when it is done again, exactly if it does not visit
an object whose member `edges` is a connection. -/
theorem flattenConnections_fixpoints (j : Json) :
    (j.flattenConnections = j ↔ ∀ k : Json, k.Within j → ¬k.IsConnection) ∧
    ((∀ k : Json, k.Within j.flattenConnections → ¬k.IsConnection) ↔
      ∀ v : Json, v.Visited j → ¬v.HidesConnection) ∧
    (j.flattenConnections.flattenConnections = j.flattenConnections ↔
      ∀ v : Json, v.Visited j → ¬v.HidesConnection) := by
  have left := everywhere_flattenConnections_iff j
  exact ⟨flattenConnections_eq_self_iff j, left, (flattenConnections_eq_self_iff _).trans left⟩

/-- The object `{"edges":{"edges":[]}}` becomes a connection, and only then a list. -/
example : (object [("edges", .object [("edges", .array [])])]).flattenConnections =
      object [("edges", .array [])] ∧
    (object [("edges", .array [])]).flattenConnections = array [] := ⟨rfl, rfl⟩

end Json

end GraphQLDoc
