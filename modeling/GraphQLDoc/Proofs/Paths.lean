import GraphQLDoc.Proofs.Reachable

/-!
# Merged fields, path by path

A path is a list of names that leads from a field down to one below it.

* `Field.at?`: the field at a path.
* `Field.Combines`: the contents of a node that two nodes were merged into, in order.
* `Field.at?_merge`: what stands at a path of a merged field.
* `Field.merged_at_every_path`: two fields of one name, selected in turn in the same parent, are
  combined at the paths that they share, and unchanged everywhere else.
-/

namespace GraphQLDoc

namespace Field

/-- The field that a path leads to. -/
def at? (f : Field) : List String → Option Field
  | [] => some f
  | name :: path => (f.subfield? name).bind fun g => g.at? path

/-- `m` has the contents of `f` and, where both have something to say, those of `g`. -/
structure Combines (f g m : Field) : Prop where
  name : m.name = f.name
  keys : Entries.keys m.arguments =
    Entries.keys f.arguments ++ (Entries.keys g.arguments).filter (· ∉ Entries.keys f.arguments)
  values : ∀ key,
    Entries.get? m.arguments key = (Entries.get? g.arguments key).or (Entries.get? f.arguments key)
  spreads : m.spreads = f.spreads ++ g.spreads.filter (· ∉ f.spreads)
  children : names m.subfields =
    (names f.subfields).filter (· ∉ names g.subfields) ++ names g.subfields

theorem Sound.combines {f g : Field} (hf : f.Sound) (hg : g.Sound) :
    Combines f g (Field.merge f g) where
  name := name_merge f g
  keys := by
    rw [arguments_merge, Entries.keys_extend, addNames_eq_append_filter _ hg.arguments.distinct]
  values key := by rw [arguments_merge, Entries.get?_extend _ hg.arguments.distinct]
  spreads := by rw [spreads_merge, addNames_eq_append_filter _ hg.spreads]
  children := by rw [subfields_merge, names_joinAll hf.subfields hg.subfields]

theorem within_of_at? {f g : Field} {path : List String} (h : f.at? path = some g) :
    g.Within f := by
  induction path generalizing f with
  | nil => exact Option.some.inj h ▸ .refl
  | cons name path ih =>
    obtain ⟨x, hx, h⟩ := Option.bind_eq_some_iff.mp h
    exact .head (mem_of_lookup hx) (ih h)

theorem at?_merge {f g : Field} (hf : f.Everywhere Unambiguous) (hg : g.Everywhere Unambiguous)
    (path : List String) :
    (merge f g).at? path = Option.merge merge (f.at? path) (g.at? path) := by
  induction path generalizing f g with
  | nil => rfl
  | cons name path ih =>
    rw [at?, at?, at?, subfield?_eq_lookup, subfields_merge,
      lookup_joinAll hf.here.subfields hg.here.subfields, ← subfield?_eq_lookup,
      ← subfield?_eq_lookup]
    cases hx : f.subfield? name with
    | none => rw [Option.merge_none_left, Option.bind_none, Option.merge_none_left]
    | some x =>
      cases hy : g.subfield? name with
      | none => rw [Option.merge_none_right, Option.bind_none, Option.merge_none_right]
      | some y => exact ih (hf.of_mem (mem_of_lookup hx)) (hg.of_mem (mem_of_lookup hy))

/-- Selecting `f` and then `g` in a parent that has no field of their name gives the parent one
field of this name. It has the paths of both. Where only one of them has a path, its whole subtree
stands there unchanged. Where both have it, the two nodes are combined. -/
theorem merged_at_every_path {f g r : Field} (hf : f.Reachable) (hg : g.Reachable)
    (same : g.name = f.name) (fresh : r.subfield? f.name = none) :
    ∃ r₁ r₂ m, r.select (.built f) = .ok r₁ ∧ r₁.select (.built g) = .ok r₂ ∧
      r₂.subfield? f.name = some m ∧ ∀ path,
        ((m.at? path).isSome ↔ (f.at? path).isSome ∨ (g.at? path).isSome) ∧
        (g.at? path = none → m.at? path = f.at? path) ∧
        (f.at? path = none → m.at? path = g.at? path) ∧
        ∀ a b, f.at? path = some a → g.at? path = some b →
          ∃ c, m.at? path = some c ∧ Combines a b c := by
  obtain ⟨r₁, r₂, h₁, h₂, hm⟩ := select_built_built fresh same
  refine ⟨r₁, r₂, merge f g, h₁, h₂, hm, fun path => ?_⟩
  have law := at?_merge hf.wellFormed.unambiguous hg.wellFormed.unambiguous path
  refine ⟨?_, fun hn => ?_, fun hn => ?_, fun a b ha hb => ?_⟩
  · rw [law, Option.isSome_merge, Bool.or_eq_true]
  · rw [law, hn, Option.merge_none_right]
  · rw [law, hn, Option.merge_none_left]
  · refine ⟨merge a b, by rw [law, ha, hb, Option.merge_some_some], ?_⟩
    exact (hf.wellFormed a (within_of_at? ha)).combines (hg.wellFormed b (within_of_at? hb))

/-- The field `user(first:2){posts{date}}`. -/
def samplePosts : Field :=
  { name := "user"
    arguments := [("first", .number (.int 2))]
    subfields := [{ leaf "posts" with subfields := [leaf "date"] }]
    spreads := [] }

theorem reachable_samplePosts : samplePosts.Reachable := by
  have limited : { samplePosts with subfields := [] }.Reachable :=
    reachable_of_argument (by decide) (by decide)
      ((Value.everywhere_of_no_children rfl).mpr trivial)
      ((Value.everywhere_of_no_children rfl).mpr rfl)
  have selected : { samplePosts with subfields := [] }.select (.under "posts" (.leaf "date")) =
      .ok samplePosts := rfl
  exact limited.select (List.forall_mem_nil _) selected

theorem merged_at_every_path_samplePosts :
    sampleUser.Reachable ∧ samplePosts.Reachable ∧ samplePosts.name = sampleUser.name ∧
      (leaf "viewer").subfield? sampleUser.name = none ∧
      ∃ r₁ r₂ m c, (leaf "viewer").select (.built sampleUser) = .ok r₁ ∧
        r₁.select (.built samplePosts) = .ok r₂ ∧ r₂.subfield? sampleUser.name = some m ∧
        m.at? ["name"] = some (leaf "name") ∧ m.at? ["posts"] = some c ∧
        names c.subfields = ["title", "date"] := by
  have fresh : (leaf "viewer").subfield? sampleUser.name = none := rfl
  obtain ⟨r₁, r₂, m, h₁, h₂, hm, law⟩ :=
    merged_at_every_path reachable_sampleUser reachable_samplePosts rfl fresh
  obtain ⟨-, alone, -, -⟩ := law ["name"]
  obtain ⟨-, -, -, both⟩ := law ["posts"]
  obtain ⟨c, hc, combined⟩ := both _ _ rfl rfl
  refine ⟨reachable_sampleUser, reachable_samplePosts, rfl, fresh, r₁, r₂, m, c, h₁, h₂, hm,
    alone rfl, hc, ?_⟩
  exact combined.children

end Field

end GraphQLDoc
