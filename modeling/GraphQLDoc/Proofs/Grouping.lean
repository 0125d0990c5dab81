import GraphQLDoc.Proofs.Paths

/-!
# Merging in groups

Content for one field may come in several portions. They can be merged among themselves before they
reach the field, and nothing depends on how they are grouped.

* `join_join`: two fields of one name, added to siblings one after the other or merged.
* `select_under_select_under`: two selections below one name, taken one after the other or in one
  list. Failures are the same as well.
* `merging_associative`: three fields of one name, and the same law for selections.
-/

namespace GraphQLDoc

namespace Field

variable {r f g : Field} {s t : Selection}

theorem join_join {siblings : List Field} (distinct : (names siblings).Nodup)
    (same : g.name = f.name)
    (assoc : ∀ x ∈ siblings, merge (merge x f) g = merge x (merge f g)) :
    join (join siblings f) g = join siblings (merge f g) := by
  have one : (names [f]).Nodup := List.pairwise_singleton _ _
  have merged : join [f] g = [merge f g] := @join_onto_last f g [] rfl same
  have law := joinAll_join distinct one fun x hx y hy =>
    (List.mem_singleton.mp hy).symm ▸ assoc x hx
  rw [merged] at law
  exact law.symm

/-! ## Selections below a name -/

/-- The field of a name with selected fields below it. -/
def nested (name : String) (fields : List Field) : Field :=
  { leaf name with subfields := joinAll [] fields }

theorem select_under (r : Field) (name : String) (s : Selection) :
    r.select (.under name s) = do
      let _ ← named name
      let gs ← s.fields
      return { r with subfields := join r.subfields (nested name gs) } := by
  unfold select named
  rw [Selection.fields]
  split
  · next empty => rw [named, if_pos empty]; rfl
  · next nonempty =>
    rw [named, if_neg nonempty]
    cases s.fields <;> rfl

theorem fields_several_pair (s t : Selection) :
    (Selection.several [s, t]).fields = do
      let gs ← s.fields
      let hs ← t.fields
      return gs ++ hs := by
  simp only [Selection.fields, Selection.itemFields]
  cases s.fields with
  | error e => rfl
  | ok gs =>
    cases t.fields with
    | error e => rfl
    | ok hs => exact congrArg (fun x => Except.ok (gs ++ x)) (List.append_nil hs)

theorem everywhere_unambiguous_nested (name : String) {fields : List Field}
    (h : ∀ g ∈ fields, g.Everywhere Unambiguous) : (nested name fields).Everywhere Unambiguous := by
  have none : (names ([] : List Field)).Nodup := List.nodup_nil
  refine everywhere_iff.mpr ⟨⟨nodup_names_joinAll none fields, List.nodup_nil⟩, ?_⟩
  exact everywhere_joinAll (fun _ _ h _ => h.merge) (List.forall_mem_nil _) h

/-- What is selected below a name later may be added to what was selected there first. -/
theorem merge_nested (name : String) {fields more : List Field}
    (hf : ∀ g ∈ fields, g.Everywhere Unambiguous) (hm : ∀ g ∈ more, g.Everywhere Unambiguous) :
    merge (nested name fields) (nested name more) = nested name (fields ++ more) := by
  have first := everywhere_unambiguous_nested name hf
  have below : joinAll (joinAll [] fields) (joinAll [] more) = joinAll [] (fields ++ more) := by
    rw [joinAll_append]
    refine joinAll_joinAll first.here.subfields List.nodup_nil (List.forall_mem_nil _) hm
      fun g hg x hx y hy => ?_
    exact merge_assoc (first.of_mem hx) hy (hm g hg)
  rw [merge_eq]
  unfold nested
  rw [below]
  rfl

theorem join_nested_nested {siblings : List Field} (distinct : (names siblings).Nodup)
    (below : ∀ x ∈ siblings, x.Everywhere Unambiguous) (name : String) {fields more : List Field}
    (hf : ∀ g ∈ fields, g.Everywhere Unambiguous) (hm : ∀ g ∈ more, g.Everywhere Unambiguous) :
    join (join siblings (nested name fields)) (nested name more) =
      join siblings (nested name (fields ++ more)) := by
  rw [← merge_nested name hf hm]
  exact join_join distinct rfl fun x hx => merge_assoc (below x hx)
    (everywhere_unambiguous_nested name hf) (everywhere_unambiguous_nested name hm)

theorem select_under_select_under (hr : r.Everywhere Unambiguous) (name : String)
    (hs : ∀ b ∈ s.builtFields, b.WellFormed) (ht : ∀ b ∈ t.builtFields, b.WellFormed) :
    (do
      let q ← r.select (.under name s)
      q.select (.under name t)) = r.select (.under name (.several [s, t])) := by
  simp only [select_under, fields_several_pair]
  cases named name with
  | error e => rfl
  | ok _ =>
    cases hgs : s.fields with
    | error e => rfl
    | ok gs =>
      cases hhs : t.fields with
      | error e => rfl
      | ok hs' =>
        have both := join_nested_nested hr.here.subfields (fun _ => hr.of_mem) name
          (fun g h => (WellFormed.fields hs hgs g h).unambiguous)
          (fun g h => (WellFormed.fields ht hhs g h).unambiguous)
        exact congrArg (fun fields => Except.ok { r with subfields := fields }) both

/-- Of three fields the first two or the last two may be merged first. The result is the same tree,
in contents and in order. So what is selected below a name in two steps, or in one list, gives the
same field or the same failure. -/
theorem merging_associative :
    (∀ f g h : Field, f.Reachable → g.Reachable → h.Reachable →
      merge (merge f g) h = merge f (merge g h)) ∧
    ∀ (r : Field) (name : String) (s t : Selection), r.Reachable →
      (∀ b ∈ s.builtFields, b.Reachable) → (∀ b ∈ t.builtFields, b.Reachable) →
        (do
          let q ← r.select (.under name s)
          q.select (.under name t)) = r.select (.under name (.several [s, t])) := by
  refine ⟨fun f g h hf hg hh => ?_, fun r name s t hr hs ht => ?_⟩
  · exact merge_assoc hf.wellFormed.unambiguous hg.wellFormed.unambiguous hh.wellFormed.unambiguous
  · exact select_under_select_under hr.wellFormed.unambiguous name
      (fun b hb => (hs b hb).wellFormed) fun b hb => (ht b hb).wellFormed

theorem merging_associative_samples :
    sampleUser.Reachable ∧ samplePosts.Reachable ∧
      merge (merge sampleUser samplePosts) sampleUser =
        merge sampleUser (merge samplePosts sampleUser) ∧
      names (merge (merge sampleUser samplePosts) sampleUser).subfields = ["name", "posts"] ∧
      ∃ q p, sampleUser.select (.under "posts" (.several [.leaf "date", .leaf "title"])) = .ok q ∧
        q.select (.under "posts" (.built samplePosts)) = .ok p ∧
        sampleUser.select (.under "posts"
          (.several [.several [.leaf "date", .leaf "title"], .built samplePosts])) = .ok p := by
  obtain ⟨fields, selections⟩ := merging_associative
  have user := reachable_sampleUser
  have posts := reachable_samplePosts
  have both := selections sampleUser "posts" (.several [.leaf "date", .leaf "title"])
    (.built samplePosts) user (List.forall_mem_nil _) (List.forall_mem_singleton.mpr posts)
  exact ⟨user, posts, fields _ _ _ user posts user, rfl, _, _, rfl, rfl, both.symm⟩

end Field

end GraphQLDoc
