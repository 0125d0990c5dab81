import GraphQLDoc.Operation
import GraphQLDoc.Proofs.Build

/-!
# Fields that can be built

* `Field.Reachable`: the field comes out of some sequence of building steps.
* `Field.Sound`, `Field.WellFormed`: the invariant of single nodes, and of whole trees.
* `Field.Reachable.wellFormed`: every step keeps the invariant, so every field that can be built
  has it.
* `Field.invariant_of_reachable`: the invariant in full.
-/

namespace GraphQLDoc

namespace Field

/-- The field can be built. Steps take any values whose objects are maps, and any selections of
fields that can be built themselves. -/
inductive Reachable : Field → Prop
  | named {name : String} {f : Field} (h : named name = .ok f) : Reachable f
  | declaration {name typeCondition : String} {f : Field}
      (h : declaration name typeCondition = .ok f) : Reachable f
  | setArguments {f g : Field} {entries : List (String × Option Value)} (hf : Reachable f)
      (maps : ∀ key v, (key, some v) ∈ entries → v.Everywhere Value.KeysDistinct)
      (h : f.setArguments entries = .ok g) : Reachable g
  | select {f g : Field} {s : Selection} (hf : Reachable f)
      (built : ∀ b ∈ s.builtFields, Reachable b) (h : f.select s = .ok g) : Reachable g
  | spread {f g : Field} {names : List String} (hf : Reachable f)
      (h : f.spread names = .ok g) : Reachable g
  | setArgumentsJson {f g : Field} {j : Json} (hf : Reachable f)
      (h : f.setArgumentsJson j = .ok g) : Reachable g
  | selectJson {f g : Field} {j : Json} (hf : Reachable f)
      (h : f.selectJson j = .ok g) : Reachable g
  | spreadJson {f g : Field} {j : Json} (hf : Reachable f)
      (h : f.spreadJson j = .ok g) : Reachable g
  | subfield {f g : Field} {name : String} (hf : Reachable f)
      (h : f.subfield? name = some g) : Reachable g
  /-- The step may be any function that gives fields that can be built. -/
  | modifyRoot {ε : Type} {o p : Operation} {step : Field → Except ε Field}
      (ho : Reachable o.root) (result : ∀ g, step o.root = .ok g → Reachable g)
      (h : o.modifyRoot step = .ok p) : Reachable p.root

/-! ## The invariant -/

/-- What holds of a node, apart from the fields below it. -/
structure Sound (f : Field) : Prop where
  named : f.name ≠ ""
  subfields : (names f.subfields).Nodup
  spreads : f.spreads.Nodup
  spreadNames : ∀ n ∈ f.spreads, isName n = true
  arguments : Entries.Proper f.arguments
  values : ∀ v ∈ f.values, v.Everywhere Value.Sound

abbrev WellFormed (f : Field) : Prop := f.Everywhere Sound

theorem wellFormed_iff {f : Field} :
    f.WellFormed ↔ f.Sound ∧ ∀ g ∈ f.subfields, g.WellFormed := everywhere_iff

theorem Sound.unambiguous {f : Field} (h : f.Sound) : f.Unambiguous :=
  ⟨h.subfields, h.arguments.distinct⟩

theorem WellFormed.unambiguous {f : Field} (h : f.WellFormed) : f.Everywhere Unambiguous :=
  h.imp fun _ => Sound.unambiguous

/-- The name of a sound node is that of a new field. -/
theorem Sound.named_eq_ok {f : Field} (h : f.Sound) : Field.named f.name = .ok (leaf f.name) :=
  named_eq_ok_iff.mpr ⟨h.named, rfl⟩

theorem sound_leaf {name : String} (h : name ≠ "") : (leaf name).Sound where
  named := h
  subfields := List.nodup_nil
  spreads := List.nodup_nil
  spreadNames := by simp [leaf]
  arguments := ⟨List.nodup_nil, List.not_mem_nil⟩
  values := by simp [leaf, Field.values]

theorem wellFormed_leaf {name : String} (h : name ≠ "") : (leaf name).WellFormed :=
  wellFormed_iff.mpr ⟨sound_leaf h, List.forall_mem_nil _⟩

/-! ## The invariant after one step -/

theorem values_extend {f : Field} {args : Arguments} {P : Value → Prop}
    (hf : ∀ v ∈ f.values, P v) (ha : ∀ entry ∈ args, P entry.2) :
    ∀ v ∈ (Entries.extend f.arguments args).map Prod.snd, P v := by
  rw [List.forall_mem_map]
  intro entry he
  rcases Entries.mem_extend he with he | he
  · exact hf entry.2 (List.mem_map_of_mem he)
  · exact ha entry he

theorem Sound.merge {f g : Field} (hf : f.Sound) (hg : g.Sound) : (Field.merge f g).Sound := by
  rw [merge_eq]
  exact {
    named := hf.named
    subfields := nodup_names_joinAll hf.subfields g.subfields
    spreads := nodup_addNames hf.spreads g.spreads
    spreadNames := fun n hn =>
      (mem_addNames.mp hn).elim (hf.spreadNames n) (hg.spreadNames n)
    arguments := hf.arguments.extend hg.arguments.named
    values := values_extend hf.values fun entry he => hg.values entry.2 (List.mem_map_of_mem he) }

namespace WellFormed

variable {f g : Field}

theorem overlay {args : Arguments} (hf : f.WellFormed)
    (maps : ∀ entry ∈ args, entry.2.Everywhere Value.KeysDistinct)
    (h : f.overlay args = .ok g) : g.WellFormed := by
  obtain ⟨faultless, rfl⟩ := overlay_eq_ok_iff.mp h
  obtain ⟨named, values⟩ := Arguments.firstFault_eq_none_iff.mp faultless
  obtain ⟨sound, below⟩ := wellFormed_iff.mp hf
  refine wellFormed_iff.mpr ⟨{ sound with
    arguments := sound.arguments.extend named
    values := values_extend sound.values fun entry he => ?_ }, below⟩
  exact Value.everywhere_sound (maps entry he) (values entry he)

theorem joinAll {gs : List Field} (hf : f.WellFormed) (hgs : ∀ g ∈ gs, g.WellFormed) :
    { f with subfields := Field.joinAll f.subfields gs }.WellFormed := by
  obtain ⟨sound, below⟩ := wellFormed_iff.mp hf
  exact wellFormed_iff.mpr
    ⟨{ sound with subfields := nodup_names_joinAll sound.subfields gs },
      everywhere_joinAll (fun _ _ => Sound.merge) below hgs⟩

/-- The fields that a selection stands for. -/
theorem fields {s : Selection} {gs : List Field} (built : ∀ b ∈ s.builtFields, b.WellFormed)
    (h : s.fields = .ok gs) : ∀ g ∈ gs, g.WellFormed :=
  Selection.forall_mem_fields (P := WellFormed)
    (fun _ _ hne hgs => (wellFormed_leaf hne).joinAll hgs) built h

theorem select {s : Selection} (hf : f.WellFormed) (built : ∀ b ∈ s.builtFields, b.WellFormed)
    (h : f.select s = .ok g) : g.WellFormed := by
  obtain ⟨gs, hgs, rfl⟩ := select_eq_ok_iff.mp h
  exact hf.joinAll (fields built hgs)

theorem spread {names : List String} (hf : f.WellFormed) (h : f.spread names = .ok g) :
    g.WellFormed := by
  obtain ⟨valid, rfl⟩ := spread_eq_ok_iff.mp h
  obtain ⟨sound, below⟩ := wellFormed_iff.mp hf
  refine wellFormed_iff.mpr ⟨{ sound with
    spreads := nodup_addNames sound.spreads names
    spreadNames := fun n hn => ?_ }, below⟩
  exact (mem_addNames.mp hn).elim (sound.spreadNames n) (valid n)

end WellFormed

theorem Reachable.wellFormed {f : Field} (h : f.Reachable) : f.WellFormed := by
  induction h with
  | named h =>
    obtain ⟨hne, rfl⟩ := named_eq_ok_iff.mp h
    exact wellFormed_leaf hne
  | declaration h =>
    obtain ⟨hne, e⟩ := eq_leaf_of_declaration h
    exact e ▸ wellFormed_leaf hne
  | setArguments _ maps h ih =>
    refine ih.overlay (fun entry he => ?_) h
    exact maps entry.1 entry.2 (mem_givenEntries.mp (Entries.mem_ofList he))
  | select _ _ h ih built => exact ih.select built h
  | spread _ h ih => exact ih.spread h
  | setArgumentsJson _ h ih =>
    obtain ⟨members, args, -, ha, h⟩ := setArgumentsJson_eq_ok_iff.mp h
    exact ih.overlay (Arguments.keysDistinct_ofMembers ha) h
  | selectJson _ h ih =>
    obtain ⟨s, hs, h⟩ := selectJson_eq_ok_iff.mp h
    exact ih.select (Selection.forall_mem_builtFields_ofJson hs) h
  | spreadJson _ h ih =>
    obtain ⟨names, -, h⟩ := spreadJson_eq_ok_iff.mp h
    exact ih.spread h
  | subfield _ h ih => exact ih.of_mem (mem_of_lookup h)
  | modifyRoot _ _ h _ result =>
    obtain ⟨g, hg, h⟩ := bind_eq_ok.mp h
    exact Except.ok.inj h ▸ result g hg

/-! ## All fields that can be built -/

/-- The object `{id:1}`. -/
def sampleFilter : Value := .object [("id", .number (.int 1))]

/-- The field `user(filter:{id:1}){name,posts{title},...Info}`. -/
def sampleUser : Field :=
  { name := "user"
    arguments := [("filter", sampleFilter)]
    subfields := [leaf "name", { leaf "posts" with subfields := [leaf "title"] }]
    spreads := ["Info"] }

theorem everywhere_sampleFilter {p : Value → Prop} (here : p sampleFilter)
    (id : p (.number (.int 1))) : sampleFilter.Everywhere p := by
  refine Value.everywhere_object.mpr ⟨here, List.forall_mem_singleton.mpr ?_⟩
  exact (Value.everywhere_of_no_children rfl).mpr id

theorem reachable_leaf {name : String} (h : name ≠ "") : (leaf name).Reachable :=
  .named (named_eq_ok_iff.mpr ⟨h, rfl⟩)

/-- A field with one argument can be built from any value that can be written. -/
theorem reachable_of_argument {name key : String} {v : Value} (hname : name ≠ "") (hkey : key ≠ "")
    (distinct : v.Everywhere Value.KeysDistinct) (faultless : v.Everywhere Value.Faultless) :
    { leaf name with arguments := [(key, v)] }.Reachable := by
  have maps : ∀ k w, (k, some w) ∈ [(key, some v)] → w.Everywhere Value.KeysDistinct := by
    intro k w hw
    cases List.mem_singleton.mp hw
    exact distinct
  have fine : Arguments.firstFault [(key, v)] = none := by
    refine Arguments.firstFault_eq_none_iff.mpr ⟨?_, List.forall_mem_singleton.mpr faultless⟩
    exact fun empty => hkey (List.mem_singleton.mp empty).symm
  exact (reachable_leaf hname).setArguments maps (setArguments_eq_ok_iff.mpr ⟨fine, rfl⟩)

theorem reachable_sampleUser : sampleUser.Reachable := by
  have filtered : { leaf "user" with arguments := [("filter", sampleFilter)] }.Reachable :=
    reachable_of_argument (by decide) (by decide)
      (everywhere_sampleFilter (List.pairwise_singleton _ _) trivial)
      (everywhere_sampleFilter (show "" ∉ ["id"] by decide) rfl)
  have selected : { leaf "user" with arguments := [("filter", sampleFilter)] }.select
      (.several [.leaf "name", .under "posts" (.leaf "title")]) =
        .ok { sampleUser with spreads := [] } := rfl
  have spread : { sampleUser with spreads := [] }.spread ["Info"] = .ok sampleUser := rfl
  exact (filtered.select (List.forall_mem_nil _) selected).spread spread

/-- Every node `g` of a field that can be built: the parts that have to be named are, nothing is
repeated that must be unique, and every number has a literal. -/
theorem invariant_of_reachable {f g : Field} (hf : f.Reachable) (hg : g.Within f) :
    g.name ≠ "" ∧ (g.subfields.map name).Nodup ∧ g.spreads.Nodup ∧
      (∀ n ∈ g.spreads, ∃ c cs, n.toList = c :: cs ∧
        (c = '_' ∨ ('A' ≤ c ∧ c ≤ 'Z') ∨ ('a' ≤ c ∧ c ≤ 'z')) ∧
        ∀ d ∈ cs, d = '_' ∨ ('0' ≤ d ∧ d ≤ '9') ∨ ('A' ≤ d ∧ d ≤ 'Z') ∨ ('a' ≤ d ∧ d ≤ 'z')) ∧
      (g.arguments.map Prod.fst).Nodup ∧ (∀ key ∈ g.arguments.map Prod.fst, key ≠ "") ∧
      ∀ entry ∈ g.arguments, ∀ v : Value, v.Within entry.2 →
        (∀ entries, v = .object entries →
          (entries.map Prod.fst).Nodup ∧ ∀ key ∈ entries.map Prod.fst, key ≠ "") ∧
        ∀ n, v = .number n → n.isFinite = true := by
  have sound : g.Sound := hf.wellFormed g hg
  refine ⟨sound.named, sound.subfields, sound.spreads, fun n hn => ?_, sound.arguments.distinct,
    fun key hk e => sound.arguments.named (e ▸ hk), fun entry he v hv => ?_⟩
  · obtain ⟨c, cs, spelled, start, rest⟩ := (isName_iff n).mp (sound.spreadNames n hn)
    exact ⟨c, cs, spelled, (isNameStart_iff c).mp start,
      fun d hd => (isNameRest_iff d).mp (rest d hd)⟩
  · have inside : v.Sound := sound.values entry.2 (List.mem_map_of_mem he) v hv
    constructor
    · rintro entries rfl
      exact ⟨inside.keysDistinct, fun key hk e => inside.faultless (e ▸ hk)⟩
    · rintro n rfl
      exact inside.faultless

theorem invariant_of_reachable_sampleUser :
    sampleUser.Reachable ∧ (leaf "name").Within sampleUser ∧ (leaf "name").name ≠ "" ∧
      sampleUser.spreads.Nodup ∧ ["id"].Nodup := by
  have inside : (leaf "name").Within sampleUser := .single List.mem_cons_self
  have node := invariant_of_reachable reachable_sampleUser inside
  have root := invariant_of_reachable reachable_sampleUser .refl
  obtain ⟨-, -, spreads, -, -, -, values⟩ := root
  have object := (values ("filter", sampleFilter) List.mem_cons_self sampleFilter .refl).1 _ rfl
  exact ⟨reachable_sampleUser, inside, node.1, spreads, object.1⟩

end Field

end GraphQLDoc
