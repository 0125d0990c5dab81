import GraphQLDoc.Proofs.Paths
import Mathlib.Data.List.Nodup

/-!
# The paths of a field

* `Field.paths`: the paths to all fields below a field, each before those that go on from it.
* `Field.mem_paths_iff`: these are the paths that lead to a field, apart from the empty one.
* `Field.nodup_paths`: no path is listed twice where the names of siblings differ.
* `Field.mem_paths_merge`, `Field.mem_pathsOfAll_joinAll`: merging loses no path and invents none.
-/

namespace GraphQLDoc

/-- The path of a name, and after it the paths below the name. -/
def pathsFrom (name : String) (paths : List (List String)) : List (List String) :=
  [name] :: paths.map (name :: ·)

theorem mem_pathsFrom {name : String} {paths : List (List String)} {p : List String} :
    p ∈ pathsFrom name paths ↔ ∃ q, p = name :: q ∧ (q = [] ∨ q ∈ paths) := by
  simp only [pathsFrom, List.mem_cons, List.mem_map, and_or_left, exists_or, exists_eq_right,
    and_comm, eq_comm]

theorem nodup_pathsFrom {name : String} {paths : List (List String)} (h : paths.Nodup)
    (long : [] ∉ paths) : (pathsFrom name paths).Nodup := by
  refine List.nodup_cons.mpr ⟨fun listed => ?_, h.map fun p q e => (List.cons.inj e).2⟩
  obtain ⟨p, hp, e⟩ := List.mem_map.mp listed
  exact long ((List.cons.inj e).2 ▸ hp)

namespace Field

mutual

/-- The paths to the fields below a field. -/
def paths : Field → List (List String)
  | ⟨_, _, subfields, _⟩ => pathsOfAll subfields

/-- The paths to some siblings and to the fields below them. -/
def pathsOfAll : List Field → List (List String)
  | [] => []
  | g :: gs => pathsFrom g.name (paths g) ++ pathsOfAll gs

end

variable {f g : Field} {siblings fields : List Field} {p : List String}

theorem paths_eq (f : Field) : f.paths = pathsOfAll f.subfields := by
  cases f
  rw [paths]

theorem pathsOfAll_eq_flatMap (fields : List Field) :
    pathsOfAll fields = fields.flatMap fun g => pathsFrom g.name g.paths := by
  induction fields with
  | nil => rfl
  | cons g gs ih => rw [pathsOfAll, ih, List.flatMap_cons]

theorem mem_pathsOfAll :
    p ∈ pathsOfAll fields ↔ ∃ g ∈ fields, p ∈ pathsFrom g.name g.paths := by
  rw [pathsOfAll_eq_flatMap, List.mem_flatMap]

theorem nil_not_mem_paths (f : Field) : [] ∉ f.paths := by
  intro listed
  rw [paths_eq, mem_pathsOfAll] at listed
  obtain ⟨g, -, hg⟩ := listed
  obtain ⟨q, e, -⟩ := mem_pathsFrom.mp hg
  exact nomatch e

/-- A path is listed if it leads to a field below. -/
theorem mem_paths_iff (h : f.Everywhere Unambiguous) :
    p ∈ f.paths ↔ p ≠ [] ∧ (f.at? p).isSome := by
  induction p generalizing f with
  | nil => simp [nil_not_mem_paths]
  | cons name path ih =>
    have below : ∀ g ∈ f.subfields, name :: path ∈ pathsFrom g.name g.paths ↔
        g.name = name ∧ (g.at? path).isSome := by
      intro g hg
      rw [mem_pathsFrom]
      constructor
      · rintro ⟨q, e, rfl | hq⟩
        · cases e
          exact ⟨rfl, rfl⟩
        · cases e
          exact ⟨rfl, ((ih (h.of_mem hg)).mp hq).2⟩
      · rintro ⟨rfl, leads⟩
        refine ⟨path, rfl, ?_⟩
        by_cases last : path = []
        · exact .inl last
        · exact .inr ((ih (h.of_mem hg)).mpr ⟨last, leads⟩)
    rw [paths_eq, mem_pathsOfAll, at?, subfield?_eq_lookup]
    constructor
    · rintro ⟨g, hg, listed⟩
      obtain ⟨rfl, leads⟩ := (below g hg).mp listed
      rw [lookup_of_mem h.here.subfields hg]
      exact ⟨List.cons_ne_nil _ _, leads⟩
    · rintro ⟨-, leads⟩
      obtain ⟨x, hx⟩ := Option.isSome_iff_exists.mp leads
      obtain ⟨g, found, hx⟩ := Option.bind_eq_some_iff.mp hx
      have hg : g ∈ f.subfields := mem_of_lookup found
      have listed := (below g hg).mpr
      exact ⟨g, hg, listed ⟨name_of_lookup found, Option.isSome_iff_exists.mpr ⟨x, hx⟩⟩⟩

theorem nodup_paths (h : f.Everywhere Unambiguous) : f.paths.Nodup := by
  induction f using Field.induction with
  | step f ih =>
    rw [paths_eq, pathsOfAll_eq_flatMap, List.nodup_flatMap]
    refine ⟨fun g hg => nodup_pathsFrom (ih g hg (h.of_mem hg)) (nil_not_mem_paths g), ?_⟩
    refine (List.pairwise_map.mp h.here.subfields).imp fun differ p hp hq => ?_
    obtain ⟨_, rfl, -⟩ := mem_pathsFrom.mp hp
    obtain ⟨_, e, -⟩ := mem_pathsFrom.mp hq
    exact differ (List.cons.inj e).1

/-! ## Merged fields -/

theorem mem_paths_merge : p ∈ (merge f g).paths ↔ p ∈ f.paths ∨ p ∈ g.paths := by
  induction g using Field.induction generalizing f p with
  | step g ih =>
    rw [paths_eq, paths_eq f, paths_eq g, subfields_merge, mem_pathsOfAll, mem_pathsOfAll,
      mem_pathsOfAll]
    refine exists_mem_joinAll fun y hy x same => ?_
    simp only [mem_pathsFrom, name_merge, same, ih y hy, and_or_left, exists_or]
    grind

theorem mem_pathsOfAll_joinAll :
    p ∈ pathsOfAll (joinAll siblings fields) ↔ p ∈ pathsOfAll siblings ∨ p ∈ pathsOfAll fields := by
  -- Siblings without a parent are those of a field that has nothing else.
  have whole : pathsOfAll (joinAll siblings fields) =
    (merge { leaf "" with subfields := siblings } { leaf "" with subfields := fields }).paths := rfl
  rw [whole, mem_paths_merge]
  rfl

end Field

end GraphQLDoc
