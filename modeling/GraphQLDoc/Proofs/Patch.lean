import GraphQLDoc.Proofs.Reachable

/-!
# Patches

New content can be added to a field directly, or to an empty field of its name that is then selected
beside it. Both end in the same field, because every building step passes through a merge:

* `setArguments_merge`, `select_merge`, `spread_merge`: a step taken on a merged field is the merge
  of the field that took the step, and it fails in the same way.
* `edit_merge`: the same for the three steps one after the other.
* `edit_eq_patch_selected`: editing in place agrees with selecting a patch.
-/

namespace GraphQLDoc

namespace Field

/-- More of each kind of content: arguments first, then subfields, then fragments. -/
def edit (f : Field) (entries : List (String × Option Value)) (selection : Selection)
    (fragments : List String) : Except Error Field := do
  let withArguments ← f.setArguments entries
  let withSubfields ← withArguments.select selection
  withSubfields.spread fragments

variable {f p q : Field} {entries : List (String × Option Value)} {s : Selection}
  {fragments : List String}

/-! ## One step -/

theorem setArguments_merge (hp : p.Unambiguous) :
    (merge f p).setArguments entries = (p.setArguments entries).map (merge f) := by
  unfold setArguments overlay
  cases Arguments.firstFault (Entries.ofList (givenEntries entries)) with
  | some e => rfl
  | none =>
    apply congrArg Except.ok
    rw [merge_eq, merge_eq, Entries.extend_extend _ hp.arguments]

theorem select_merge (hf : f.Everywhere Unambiguous) (hp : p.Everywhere Unambiguous)
    (built : ∀ b ∈ s.builtFields, b.WellFormed) :
    (merge f p).select s = (p.select s).map (merge f) := by
  unfold select
  cases hs : s.fields with
  | error e => rfl
  | ok gs =>
    have hg : ∀ g ∈ gs, g.Everywhere Unambiguous :=
      fun g h => (WellFormed.fields built hs g h).unambiguous
    -- The selected fields may repeat names: the patch merges them before `f` sees them.
    have below : joinAll f.subfields (joinAll p.subfields gs) =
        joinAll (joinAll f.subfields p.subfields) gs := by
      refine joinAll_joinAll hf.here.subfields hp.here.subfields (fun _ hx => hp.of_mem hx) hg
        fun g h f₁ h₁ f₂ e₂ => ?_
      exact merge_assoc (hf.of_mem h₁) e₂ (hg g h)
    apply congrArg Except.ok
    rw [merge_eq, merge_eq, below]

/-- Which names are valid does not depend on those that are there. -/
theorem spreadNames_eq_map (names more : List String) :
    spreadNames names more = (spreadNames [] more).map fun _ => addNames names more := by
  induction more generalizing names with
  | nil => rfl
  | cons name rest ih =>
    unfold spreadNames
    split
    · rw [ih (addName names name), ih (addName [] name)]
      cases spreadNames [] rest <;> rfl
    · rfl

theorem spread_merge : (merge f p).spread fragments = (p.spread fragments).map (merge f) := by
  unfold spread
  rw [spreadNames_eq_map, spreadNames_eq_map p.spreads]
  cases spreadNames [] fragments with
  | error e => rfl
  | ok _ =>
    apply congrArg Except.ok
    rw [merge_eq, merge_eq, addNames_addNames]

/-! ## All steps -/

theorem everywhere_unambiguous_of_setArguments (hp : p.Everywhere Unambiguous)
    (h : p.setArguments entries = .ok q) : q.Everywhere Unambiguous := by
  obtain ⟨-, rfl⟩ := setArguments_eq_ok_iff.mp h
  obtain ⟨here, below⟩ := everywhere_iff.mp hp
  exact everywhere_iff.mpr ⟨⟨here.subfields, Entries.nodup_keys_extend here.arguments _⟩, below⟩

theorem edit_merge (hf : f.Everywhere Unambiguous) (hp : p.Everywhere Unambiguous)
    (built : ∀ b ∈ s.builtFields, b.WellFormed) :
    (merge f p).edit entries s fragments = (p.edit entries s fragments).map (merge f) := by
  unfold edit
  rw [setArguments_merge hp.here]
  cases ha : p.setArguments entries with
  | error e => rfl
  | ok q =>
    have selected : (merge f q).select s = (q.select s).map (merge f) :=
      select_merge hf (everywhere_unambiguous_of_setArguments hp ha) built
    show (merge f q).select s >>= _ = (q.select s >>= _).map _
    rw [selected]
    cases q.select s with
    | error e => rfl
    | ok q => exact spread_merge

theorem name_edit (h : f.edit entries s fragments = .ok p) : p.name = f.name := by
  obtain ⟨q₁, h₁, h⟩ := bind_eq_ok.mp h
  obtain ⟨q₂, h₂, h₃⟩ := bind_eq_ok.mp h
  obtain ⟨-, rfl⟩ := setArguments_eq_ok_iff.mp h₁
  obtain ⟨gs, -, rfl⟩ := select_eq_ok_iff.mp h₂
  obtain ⟨-, rfl⟩ := spread_eq_ok_iff.mp h₃
  rfl

theorem merge_leaf (f : Field) (name : String) : merge f (leaf name) = f := by
  cases f
  rw [merge_eq, leaf, joinAll, Entries.extend_nil, addNames_nil]

/-- Editing a field in place fails exactly as editing an empty field of its name does. Where both
succeed, selecting the field and then the edited empty one gives what editing in place gives, in
contents and in order at every depth. -/
theorem edit_eq_patch_selected {f r : Field} {s : Selection} (hf : f.Reachable)
    (fresh : r.subfield? f.name = none) (built : ∀ b ∈ s.builtFields, b.Reachable)
    (entries : List (String × Option Value)) (fragments : List String) :
    (∀ e, f.edit entries s fragments = .error e ↔
      (named f.name >>= fun p => p.edit entries s fragments) = .error e) ∧
    ∀ f', f.edit entries s fragments = .ok f' → ∃ patch r₁ r₂,
      (named f.name >>= fun p => p.edit entries s fragments) = .ok patch ∧
      r.select (.built f) = .ok r₁ ∧ r₁.select (.built patch) = .ok r₂ ∧
      r₂.subfield? f.name = some f' := by
  have hne : f.name ≠ "" := hf.wellFormed.here.named
  have start : named f.name = .ok (leaf f.name) := hf.wellFormed.here.named_eq_ok
  have law : (merge f (leaf f.name)).edit entries s fragments =
      ((leaf f.name).edit entries s fragments).map (merge f) :=
    edit_merge hf.wellFormed.unambiguous (wellFormed_leaf hne).unambiguous
      fun b hb => (built b hb).wellFormed
  rw [merge_leaf] at law
  rw [start, law]
  show (∀ e, ((leaf f.name).edit entries s fragments).map (merge f) = .error e ↔
    (leaf f.name).edit entries s fragments = .error e) ∧ _
  cases hp : (leaf f.name).edit entries s fragments with
  | error e =>
    refine ⟨fun e' => ?_, fun f' h => (nomatch h)⟩
    constructor <;> exact fun h => congrArg Except.error (Except.error.inj h)
  | ok patch =>
    refine ⟨fun e' => ⟨fun h => (nomatch h), fun h => (nomatch h)⟩, fun f' h => ?_⟩
    have same : patch.name = (leaf f.name).name := name_edit hp
    obtain ⟨r₁, r₂, h₁, h₂, merged⟩ := select_built_built fresh same
    exact ⟨patch, r₁, r₂, hp, h₁, h₂, Except.ok.inj h ▸ merged⟩

theorem edit_eq_patch_selected_sampleUser :
    sampleUser.Reachable ∧ (leaf "viewer").subfield? sampleUser.name = none ∧
      ∃ patch r₁ r₂ m,
        (named "user" >>= fun p => p.edit [("filter", some (.string "all"))]
          (.several [.leaf "posts", .under "posts" (.leaf "date")]) ["Info", "More"]) = .ok patch ∧
        (leaf "viewer").select (.built sampleUser) = .ok r₁ ∧
        r₁.select (.built patch) = .ok r₂ ∧ r₂.subfield? "user" = some m ∧
        names m.subfields = ["name", "posts"] ∧ m.spreads = ["Info", "More"] := by
  have fresh : (leaf "viewer").subfield? sampleUser.name = none := rfl
  have none : ∀ b ∈ (Selection.several [.leaf "posts", .under "posts" (.leaf "date")]).builtFields,
      b.Reachable := List.forall_mem_nil _
  have law := edit_eq_patch_selected reachable_sampleUser fresh none
    [("filter", some (.string "all"))] ["Info", "More"]
  obtain ⟨patch, r₁, r₂, hp, h₁, h₂, found⟩ := law.2 _ rfl
  exact ⟨reachable_sampleUser, fresh, patch, r₁, r₂, _, hp, h₁, h₂, found, rfl, rfl⟩

end Field

end GraphQLDoc
