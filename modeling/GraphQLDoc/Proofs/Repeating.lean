import GraphQLDoc.Proofs.Siblings

/-!
# Selecting the same again

A sibling that is added again moves to the end, so the order of siblings is only restored once all
of them have been added again. A selection may name a field many times, but merging its fields among
themselves first leaves each name once, and then nothing is left to move.

* `Field.merge_self`, `Field.joinAll_self`: a field merged onto itself, and siblings added to
  themselves.
* `Field.joinAll_collected`: fields may be merged among themselves before they reach any siblings.
* `Field.joinAll_joinAll_self`: fields that were added are added again.
* `Field.select_again`: a selection that is taken twice.
-/

namespace GraphQLDoc

namespace Field

theorem joinAll_self {fields : List Field} (distinct : (names fields).Nodup)
    (self : ∀ f ∈ fields, merge f f = f) : joinAll fields fields = fields := by
  have none : (fields.filter fun f => f.name ∉ names fields) = [] := by
    apply List.filter_eq_nil_iff.mpr
    intro f hf
    have listed : f.name ∈ names fields := List.mem_map_of_mem hf
    simpa using listed
  have same : fields.map (mergeInto fields) = fields := by
    conv_rhs => rw [← List.map_id fields]
    apply List.map_congr_left
    intro f hf
    rw [mergeInto, lookup_of_mem distinct hf]
    exact self f hf
  rw [joinAll_eq distinct distinct, none, same, List.nil_append]

/-- A field has everything that it has itself. -/
theorem merge_self {f : Field} (hf : f.Everywhere Unambiguous) : merge f f = f := by
  induction f using Field.induction with
  | step f ih =>
    have below : joinAll f.subfields f.subfields = f.subfields :=
      joinAll_self hf.here.subfields fun g hg => ih g hg (hf.of_mem hg)
    rw [merge_eq, below, Entries.extend_self hf.here.arguments,
      addNames_of_subset (List.Subset.refl _)]
    cases f
    rfl

section Twice

variable {siblings fields : List Field} (distinct : (names siblings).Nodup)
  (hs : ∀ f ∈ siblings, f.Everywhere Unambiguous) (hf : ∀ g ∈ fields, g.Everywhere Unambiguous)

include distinct hs hf

/-- The names of the collected fields differ, whatever was repeated among the fields. -/
theorem joinAll_collected : joinAll siblings (joinAll [] fields) = joinAll siblings fields :=
  joinAll_joinAll distinct List.nodup_nil (List.forall_mem_nil _) hf
    fun g hg _ h₁ _ e₂ => merge_assoc (hs _ h₁) e₂ (hf g hg)

theorem joinAll_joinAll_self :
    joinAll (joinAll siblings fields) fields = joinAll siblings fields := by
  have none : (names ([] : List Field)).Nodup := List.nodup_nil
  have keeps : ∀ f g : Field, f.Unambiguous → g.Unambiguous → (merge f g).Unambiguous :=
    fun _ _ h _ => h.merge
  have once : (names (joinAll [] fields)).Nodup := nodup_names_joinAll none fields
  have collected : ∀ g ∈ joinAll [] fields, g.Everywhere Unambiguous :=
    everywhere_joinAll keeps (List.forall_mem_nil _) hf
  calc joinAll (joinAll siblings fields) fields
      = joinAll (joinAll siblings fields) (joinAll [] fields) :=
        (joinAll_collected (nodup_names_joinAll distinct fields)
          (everywhere_joinAll keeps hs hf) hf).symm
    _ = joinAll (joinAll siblings (joinAll [] fields)) (joinAll [] fields) := by
        rw [joinAll_collected distinct hs hf]
    _ = joinAll siblings (joinAll (joinAll [] fields) (joinAll [] fields)) :=
        (joinAll_joinAll distinct once collected collected
          fun g hg _ h₁ _ e₂ => merge_assoc (hs _ h₁) e₂ (collected g hg)).symm
    _ = joinAll siblings fields := by
        rw [joinAll_self once fun g hg => merge_self (collected g hg),
          joinAll_collected distinct hs hf]

end Twice

/-! ## Selections -/

theorem givenNamesOfItems_built (fields : List Field) :
    Selection.givenNamesOfItems (fields.map .built) = [] := by
  induction fields with
  | nil => rfl
  | cons f fs ih => rw [List.map_cons, Selection.givenNamesOfItems, ih]; rfl

theorem denotedByItems_built (fields : List Field) :
    Selection.denotedByItems (fields.map .built) = fields := by
  induction fields with
  | nil => rfl
  | cons f fs ih => rw [List.map_cons, Selection.denotedByItems, ih]; rfl

/-- A field as a selection of everything that is selected below it. -/
theorem select_own {f : Field} (hf : f.Everywhere Unambiguous) :
    f.select (.several (f.subfields.map .built)) = .ok f := by
  have given : (Selection.several (f.subfields.map .built)).givenNames = [] :=
    givenNamesOfItems_built f.subfields
  have denoted : (Selection.several (f.subfields.map .built)).denoted = f.subfields :=
    denotedByItems_built f.subfields
  have same : joinAll f.subfields f.subfields = f.subfields :=
    joinAll_self hf.here.subfields fun g hg => merge_self (hf.of_mem hg)
  rw [select_eq, given, denoted, same, if_neg List.not_mem_nil]
  cases f
  rfl

/-- Selecting what was just selected changes neither the contents of a field nor their order, at any
depth, however often the selection names a field. -/
theorem select_again {f : Field} (hf : f.Reachable) :
    (∀ s : Selection, (∀ b ∈ s.builtFields, b.Reachable) → "" ∉ s.givenNames →
      ∃ g, f.select s = .ok g ∧ g.select s = .ok g) ∧
    merge f f = f ∧ f.select (.several (f.subfields.map .built)) = .ok f := by
  have whole : f.Everywhere Unambiguous := hf.wellFormed.unambiguous
  refine ⟨fun s built named => ?_, merge_self whole, select_own whole⟩
  have fields : s.fields = .ok s.denoted := by
    rw [Selection.fields_eq, if_neg named]
  have denoted : ∀ g ∈ s.denoted, g.Everywhere Unambiguous := fun g hg =>
    (WellFormed.fields (fun b hb => (built b hb).wellFormed) fields g hg).unambiguous
  refine ⟨{ f with subfields := joinAll f.subfields s.denoted }, ?_, ?_⟩
  · rw [select_eq, if_neg named]
  · rw [select_eq, if_neg named,
      joinAll_joinAll_self whole.here.subfields (fun _ => whole.of_mem) denoted]

/-- The selection `id,posts{date,title},user(first:2){posts{date}},posts`. -/
def sampleRepetition : Selection :=
  .several [.leaf "id", .under "posts" (.several [.leaf "date", .leaf "title", .leaf "date"]),
    .several [.built samplePosts, .leaf "posts"]]

theorem select_again_sampleUser :
    sampleUser.Reachable ∧ "" ∉ sampleRepetition.givenNames ∧
      (∃ g, sampleUser.select sampleRepetition = .ok g ∧ g.select sampleRepetition = .ok g ∧
        names g.subfields = ["name", "id", "user", "posts"]) ∧
      merge sampleUser sampleUser = sampleUser := by
  obtain ⟨again, self, -⟩ := select_again reachable_sampleUser
  obtain ⟨g, once, twice⟩ := again sampleRepetition
    (List.forall_mem_singleton.mpr reachable_samplePosts) (by decide)
  have order : ∀ g, sampleUser.select sampleRepetition = .ok g →
      names g.subfields = ["name", "id", "user", "posts"] := by
    intro g hg
    cases hg
    rfl
  exact ⟨reachable_sampleUser, by decide, ⟨g, once, twice, order g once⟩, self⟩

end Field

end GraphQLDoc
