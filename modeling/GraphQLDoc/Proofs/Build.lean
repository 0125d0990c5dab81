import GraphQLDoc.Field.Build
import GraphQLDoc.Proofs.Merge
import GraphQLDoc.Proofs.Values

/-!
# What each building step does

One equation for each operation: when it succeeds, and with which field. Later proofs use these and
never look into the operations again.

* `overlay_eq_ok_iff`, `overlay_eq_error_iff`: a map of arguments over those of a field.
* `setArguments_eq_ok_iff`, `select_eq_ok_iff`, `spread_eq_ok_iff`: the three kinds of content.
* `setArgumentsJson_eq_ok_iff`, `selectJson_eq_ok_iff`, `spreadJson_eq_ok_iff`: the same from JSON.
* `forall_mem_fields`: what holds of the fields that a selection stands for.
-/

namespace GraphQLDoc

namespace Field

variable {f g : Field}

/-! ## New fields -/

theorem named_eq_ok_iff {name : String} :
    named name = .ok g ↔ name ≠ "" ∧ g = leaf name := by
  unfold named
  split
  · next h => exact ⟨fun e => (nomatch e), fun e => absurd h e.1⟩
  · next h => exact ⟨fun e => ⟨h, (Except.ok.inj e).symm⟩, fun e => by rw [e.2]⟩

/-- The field of a declaration is an empty field, so its name is all there is to know. -/
theorem eq_leaf_of_declaration {name typeCondition : String}
    (h : declaration name typeCondition = .ok g) : g.name ≠ "" ∧ g = leaf g.name := by
  unfold declaration at h
  split at h
  · exact nomatch h
  · split at h
    · obtain ⟨hne, rfl⟩ := named_eq_ok_iff.mp h
      exact ⟨hne, rfl⟩
    · exact nomatch h

/-! ## Arguments -/

theorem overlay_eq_ok_iff {args : Arguments} :
    f.overlay args = .ok g ↔
      Arguments.firstFault args = none ∧
        g = { f with arguments := Entries.extend f.arguments args } := by
  unfold overlay
  cases Arguments.firstFault args with
  | some e => exact ⟨fun h => (nomatch h), fun h => (nomatch h.1)⟩
  | none => exact ⟨fun h => ⟨rfl, (Except.ok.inj h).symm⟩, fun h => by rw [h.2]⟩

theorem overlay_eq_error_iff {args : Arguments} {e : Error} :
    f.overlay args = .error e ↔ args.firstFault = some e := by
  unfold overlay
  cases args.firstFault <;> simp

theorem setArguments_eq_ok_iff {entries : List (String × Option Value)} :
    f.setArguments entries = .ok g ↔
      Arguments.firstFault (Entries.ofList (givenEntries entries)) = none ∧
        g = { f with
          arguments := Entries.extend f.arguments (Entries.ofList (givenEntries entries)) } :=
  overlay_eq_ok_iff

theorem mem_givenEntries {entries : List (String × Option Value)} {entry : String × Value} :
    entry ∈ givenEntries entries ↔ (entry.1, some entry.2) ∈ entries := by
  obtain ⟨key, v⟩ := entry
  simp only [givenEntries, List.mem_filterMap, Option.map_eq_some_iff, Prod.mk.injEq]
  constructor
  · rintro ⟨⟨k, o⟩, hm, w, ho, rfl, rfl⟩
    exact ho ▸ hm
  · exact fun hm => ⟨(key, some v), hm, v, rfl, rfl, rfl⟩

theorem setArgumentsJson_eq_ok_iff {j : Json} :
    f.setArgumentsJson j = .ok g ↔
      ∃ members args, j = .object members ∧ Arguments.ofMembers members = .ok args ∧
        f.overlay args = .ok g := by
  constructor
  · intro h
    cases j with
    | object members =>
      obtain ⟨args, ha, h⟩ := bind_eq_ok.mp h
      exact ⟨members, args, rfl, ha, h⟩
    | _ => exact nomatch h
  · rintro ⟨members, args, rfl, ha, h⟩
    exact bind_eq_ok.mpr ⟨args, ha, h⟩

/-! ## Subfields -/

theorem select_eq_ok_iff {s : Selection} :
    f.select s = .ok g ↔
      ∃ gs, s.fields = .ok gs ∧ g = { f with subfields := joinAll f.subfields gs } := by
  constructor
  · intro h
    obtain ⟨gs, hgs, h⟩ := bind_eq_ok.mp h
    exact ⟨gs, hgs, (Except.ok.inj h).symm⟩
  · rintro ⟨gs, hgs, rfl⟩
    exact bind_eq_ok.mpr ⟨gs, hgs, rfl⟩

theorem selectJson_eq_ok_iff {j : Json} :
    f.selectJson j = .ok g ↔ ∃ s, Selection.ofJson j = .ok s ∧ f.select s = .ok g := bind_eq_ok

theorem join_of_fresh {siblings : List Field} (fresh : lookup siblings f.name = none) :
    join siblings f = siblings ++ [f] := by
  unfold lookup at fresh
  rw [join, place, fresh]

theorem join_onto_last {siblings : List Field} (fresh : lookup siblings f.name = none)
    (same : g.name = f.name) : join (siblings ++ [f]) g = siblings ++ [merge f g] := by
  have others : ∀ x ∈ siblings, ¬(x.name == f.name) = true := List.find?_eq_none.mp fresh
  have found : (siblings ++ [f]).find? (fun x => x.name == g.name) = some f := by
    have last : lookup (siblings ++ [f]) f.name = some f := by
      rw [lookup_append, fresh, Option.none_or]
      exact lookup_of_mem (by simp) (List.mem_singleton.mpr rfl)
    rwa [same]
  have dropped : [f].eraseP (fun x => x.name == f.name) = [] :=
    List.eraseP_cons_of_pos (beq_self_eq_true f.name)
  rw [join, place, found, same]
  dsimp only
  rw [List.eraseP_append_right _ others, dropped, List.append_nil]

/-- Two fields of one name that a parent takes in turn stand in it as one. -/
theorem select_built_built {r : Field} (fresh : r.subfield? f.name = none)
    (same : g.name = f.name) :
    ∃ r₁ r₂, r.select (.built f) = .ok r₁ ∧ r₁.select (.built g) = .ok r₂ ∧
      r₂.subfield? f.name = some (merge f g) := by
  refine ⟨_, _, rfl, rfl, ?_⟩
  have both : joinAll (joinAll r.subfields [f]) [g] = r.subfields ++ [merge f g] := by
    simp only [joinAll_eq_foldl, List.foldl_cons, List.foldl_nil]
    rw [join_of_fresh fresh, join_onto_last fresh same]
  have last : lookup [merge f g] f.name = some (merge f g) :=
    List.find?_cons_of_pos (beq_iff_eq.mpr (name_merge f g))
  rw [subfield?_eq_lookup, both, lookup_append, last, ← subfield?_eq_lookup, fresh, Option.none_or]

/-! ## Fragments -/

theorem spreadNames_eq_ok_iff {names more spreads : List String} :
    spreadNames names more = .ok spreads ↔
      (∀ n ∈ more, isName n = true) ∧ spreads = addNames names more := by
  induction more generalizing names with
  | nil => exact ⟨fun h => ⟨by simp, (Except.ok.inj h).symm⟩, fun h => by rw [h.2]; rfl⟩
  | cons name rest ih =>
    rw [spreadNames, List.forall_mem_cons, addNames_cons]
    split
    · next valid => rw [ih, and_assoc, and_iff_right valid]
    · next invalid => exact ⟨fun h => (nomatch h), fun h => absurd h.1.1 invalid⟩

theorem spread_eq_ok_iff {names : List String} :
    f.spread names = .ok g ↔
      (∀ n ∈ names, isName n = true) ∧ g = { f with spreads := addNames f.spreads names } := by
  constructor
  · intro h
    obtain ⟨spreads, hs, h⟩ := bind_eq_ok.mp h
    obtain ⟨valid, rfl⟩ := spreadNames_eq_ok_iff.mp hs
    exact ⟨valid, (Except.ok.inj h).symm⟩
  · rintro ⟨valid, rfl⟩
    exact bind_eq_ok.mpr ⟨_, spreadNames_eq_ok_iff.mpr ⟨valid, rfl⟩, rfl⟩

theorem spreadJson_eq_ok_iff {j : Json} :
    f.spreadJson j = .ok g ↔ ∃ names, namesOfJson j = .ok names ∧ f.spread names = .ok g :=
  bind_eq_ok

end Field

/-! ## The fields of a selection -/

namespace Selection

mutual

/-- A property of the built fields that fields without content have, and that is kept by adding
fields to siblings, is one of all fields of the selection. -/
theorem forall_mem_fields {P : Field → Prop}
    (nested : ∀ n gs, n ≠ "" → (∀ g ∈ gs, P g) →
      P { Field.leaf n with subfields := Field.joinAll [] gs }) :
    ∀ {s : Selection} {gs : List Field}, (∀ g ∈ s.builtFields, P g) → s.fields = .ok gs →
      ∀ g ∈ gs, P g
  | .leaf n, _, _, h => by
    obtain ⟨f, hf, h⟩ := bind_eq_ok.mp h
    obtain ⟨hne, rfl⟩ := Field.named_eq_ok_iff.mp hf
    cases h
    exact List.forall_mem_singleton.mpr (nested n [] hne (by simp))
  | .several items, _, hb, h => forall_mem_itemFields nested hb h
  | .under n s, _, hb, h => by
    obtain ⟨f, hf, h⟩ := bind_eq_ok.mp h
    obtain ⟨gs, hgs, h⟩ := bind_eq_ok.mp h
    obtain ⟨hne, rfl⟩ := Field.named_eq_ok_iff.mp hf
    cases h
    exact List.forall_mem_singleton.mpr (nested n gs hne (forall_mem_fields (s := s) nested hb hgs))
  | .built f, _, hb, h => by
    cases h
    exact hb

theorem forall_mem_itemFields {P : Field → Prop}
    (nested : ∀ n gs, n ≠ "" → (∀ g ∈ gs, P g) →
      P { Field.leaf n with subfields := Field.joinAll [] gs }) :
    ∀ {items : List Selection} {gs : List Field}, (∀ g ∈ builtFieldsOfItems items, P g) →
      itemFields items = .ok gs → ∀ g ∈ gs, P g
  | [], _, _, h => by
    cases h
    exact List.forall_mem_nil _
  | s :: rest, _, hb, h => by
    obtain ⟨fs, hfs, h⟩ := bind_eq_ok.mp h
    obtain ⟨gs, hgs, h⟩ := bind_eq_ok.mp h
    cases h
    obtain ⟨hb₁, hb₂⟩ := List.forall_mem_append.mp hb
    exact List.forall_mem_append.mpr
      ⟨forall_mem_fields nested hb₁ hfs, forall_mem_itemFields nested hb₂ hgs⟩

end

mutual

/-- JSON names fields and builds none. -/
theorem builtFields_ofJson : ∀ {j : Json} {s : Selection}, ofJson j = .ok s → s.builtFields = []
  | .string _, _, h => by
    cases h
    rfl
  | .array items, _, h => by
    obtain ⟨ss, hss, rfl⟩ := map_eq_ok.mp h
    exact builtFields_ofItems hss
  | .object members, _, h => by
    obtain ⟨ss, hss, rfl⟩ := map_eq_ok.mp h
    exact builtFields_ofMembers hss
  | .null, _, h => nomatch h
  | .bool _, _, h => nomatch h
  | .number _, _, h => nomatch h

theorem builtFields_ofItems : ∀ {js : List Json} {ss : List Selection},
    ofItems js = .ok ss → builtFieldsOfItems ss = []
  | [], _, h => by
    cases h
    rfl
  | j :: js, _, h => by
    obtain ⟨s, hs, h⟩ := bind_eq_ok.mp h
    obtain ⟨ss, hss, h⟩ := bind_eq_ok.mp h
    cases h
    rw [builtFieldsOfItems, builtFields_ofJson hs, builtFields_ofItems hss, List.append_nil]

theorem builtFields_ofMembers : ∀ {members : List (String × Json)} {ss : List Selection},
    ofMembers members = .ok ss → builtFieldsOfItems ss = []
  | [], _, h => by
    cases h
    rfl
  | (key, j) :: members, _, h => by
    obtain ⟨s, hs, h⟩ := bind_eq_ok.mp h
    obtain ⟨ss, hss, h⟩ := bind_eq_ok.mp h
    cases h
    rw [builtFieldsOfItems, builtFields, builtFields_ofJson hs, builtFields_ofMembers hss,
      List.append_nil]

end

theorem forall_mem_builtFields_ofJson {P : Field → Prop} {j : Json} {s : Selection}
    (h : ofJson j = .ok s) : ∀ b ∈ s.builtFields, P b := by
  rw [builtFields_ofJson h]
  exact List.forall_mem_nil _

end Selection

end GraphQLDoc
