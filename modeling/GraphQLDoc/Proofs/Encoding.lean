import GraphQLDoc.Proofs.JsonSelections

/-!
# Fields written as JSON

A field that has nothing but subfields can be written as a JSON selection in many ways. All of them
select it again: no two fields of the selection have one name where the names below a field differ,
so nothing is merged and nothing moves.

* `Field.Encodes`: the value is a way to write what stands below the field.
* `Field.exists_encodes`: every field has an array and an object of this kind.
* `Field.Encodes.exists_selection`: the selection of the value stands for the subfields, in order.
* `Field.selectJson_encoded`: the field is selected again.
-/

namespace GraphQLDoc

namespace Field

mutual

/-- The value has the subfields of the field in their order: as the items of an array, or as the
members of an object. -/
inductive Encodes : Field → Json → Prop
  | array {f : Field} {items : List Json} (h : List.Forall₂ EncodesItem f.subfields items) :
    Encodes f (.array items)
  | object {f : Field} {members : List (String × Json)}
    (h : List.Forall₂ EncodesMember f.subfields members) : Encodes f (.object members)

/-- An item of an array is the name of a field with nothing below it, or an object that has no other
member than the field. -/
inductive EncodesItem : Field → Json → Prop
  | leaf {g : Field} (h : g.subfields = []) : EncodesItem g (.string g.name)
  | branch {g : Field} {member : String × Json} (h : g.subfields ≠ [])
    (below : EncodesMember g member) : EncodesItem g (.object [member])

/-- A member of an object is the name of a field and a value for what is below it. -/
inductive EncodesMember : Field → String × Json → Prop
  | mk {g : Field} {j : Json} (h : Encodes g j) : EncodesMember g (g.name, j)

end

variable {f g : Field} {j : Json} {s : Selection}

theorem exists_encodes (f : Field) :
    (∃ items, f.Encodes (.array items)) ∧ ∃ members, f.Encodes (.object members) := by
  induction f using Field.induction with
  | step f ih =>
    have members : ∀ g ∈ f.subfields, ∃ member, EncodesMember g member := by
      intro g hg
      obtain ⟨items, h⟩ := (ih g hg).1
      exact ⟨_, .mk h⟩
    have items : ∀ g ∈ f.subfields, ∃ item, EncodesItem g item := by
      intro g hg
      by_cases none : g.subfields = []
      · exact ⟨_, .leaf none⟩
      · obtain ⟨member, h⟩ := members g hg
        exact ⟨_, .branch none h⟩
    obtain ⟨_, hi⟩ := exists_forall₂_iff.mpr items
    obtain ⟨_, hm⟩ := exists_forall₂_iff.mpr members
    exact ⟨⟨_, .array hi⟩, ⟨_, .object hm⟩⟩

/-! ## The selection of a written field -/

theorem Bare.eq_leaf (h : f.Bare) : { leaf f.name with subfields := f.subfields } = f := by
  obtain ⟨name, arguments, subfields, spreads⟩ := f
  obtain ⟨rfl, rfl⟩ := h
  rfl

/-- Several selections of one field each. -/
theorem itemFields_of_forall₂ {fields : List Field} {items : List Selection}
    (h : List.Forall₂ (fun g s => s.fields = .ok [g]) fields items) :
    Selection.itemFields items = .ok fields := by
  induction h with
  | nil => rfl
  | cons first _ ih => rw [Selection.itemFields, first, ih]; rfl

section Subfield

variable (sound : g.Sound) (bare : g.Bare)

include sound bare

theorem fields_leaf (none : g.subfields = []) : (Selection.leaf g.name).fields = .ok [g] := by
  have whole : leaf g.name = g := by
    rw [← bare.eq_leaf, none]
    rfl
  rw [Selection.fields, sound.named_eq_ok]
  exact congrArg (fun x => Except.ok [x]) whole

theorem fields_under (h : s.fields = .ok g.subfields) :
    (Selection.under g.name s).fields = .ok [g] := by
  have whole : { leaf g.name with subfields := joinAll [] g.subfields } = g := by
    rw [joinAll_nil sound.subfields, bare.eq_leaf]
  rw [Selection.fields, sound.named_eq_ok, h]
  exact congrArg (fun x => Except.ok [x]) whole

variable (below : ∀ j, g.Encodes j → ∃ s, Selection.ofJson j = .ok s ∧ s.fields = .ok g.subfields)

include below

theorem EncodesMember.exists_selection {member : String × Json} (h : EncodesMember g member) :
    ∃ s : Selection, s.fields = .ok [g] ∧
      ∃ t, Selection.ofJson member.2 = .ok t ∧ s = .under member.1 t := by
  obtain ⟨h⟩ := h
  obtain ⟨t, read, fields⟩ := below _ h
  exact ⟨.under g.name t, fields_under sound bare fields, t, read, rfl⟩

theorem EncodesItem.exists_selection {item : Json} (h : EncodesItem g item) :
    ∃ s : Selection, s.fields = .ok [g] ∧ Selection.ofJson item = .ok s := by
  cases h with
  | leaf none => exact ⟨.leaf g.name, fields_leaf sound bare none, rfl⟩
  | branch _ member =>
    obtain ⟨s, fields, read⟩ := member.exists_selection sound bare below
    exact ⟨.several [s], itemFields_of_forall₂ (.cons fields .nil),
      Selection.ofJson_object_eq_ok_iff.mpr ⟨[s], .cons read .nil, rfl⟩⟩

end Subfield

/-- A written field selects its subfields, one after the other. -/
theorem Encodes.exists_selection (sound : f.WellFormed) (bare : f.Everywhere Bare)
    (h : f.Encodes j) : ∃ s, Selection.ofJson j = .ok s ∧ s.fields = .ok f.subfields := by
  induction f using Field.induction generalizing j with
  | step f ih =>
    have node : ∀ g ∈ f.subfields, g.Sound ∧ g.Bare ∧ ∀ j, g.Encodes j →
        ∃ s, Selection.ofJson j = .ok s ∧ s.fields = .ok g.subfields := fun g hg =>
      ⟨(sound.of_mem hg).here, (bare.of_mem hg).here,
        fun j => ih g hg (sound.of_mem hg) (bare.of_mem hg)⟩
    cases h with
    | array h =>
      have each := (List.forall₂_and_left _ _).mpr ⟨node, h⟩
      obtain ⟨ss, fields, read⟩ := exists_forall₂_of_comp <| each.imp
        fun _ _ ⟨⟨named, bare, below⟩, item⟩ => item.exists_selection named bare below
      exact ⟨_, Selection.ofJson_array_eq_ok_iff.mpr ⟨ss, read, rfl⟩, itemFields_of_forall₂ fields⟩
    | object h =>
      have each := (List.forall₂_and_left _ _).mpr ⟨node, h⟩
      obtain ⟨ss, fields, read⟩ := exists_forall₂_of_comp <| each.imp
        fun _ _ ⟨⟨named, bare, below⟩, member⟩ => member.exists_selection named bare below
      exact ⟨_, Selection.ofJson_object_eq_ok_iff.mpr ⟨ss, read, rfl⟩, itemFields_of_forall₂ fields⟩

/-- A field that has nothing but subfields, at every depth, can be written as an array or an object.
However it is written, and however the fields below it are, a new field of its name that selects
what is written is the same field. The subfields have their order at every depth. -/
theorem selectJson_encoded {f : Field} (hf : f.Reachable) (bare : f.Everywhere Bare) :
    (∃ items, f.Encodes (.array items)) ∧ (∃ members, f.Encodes (.object members)) ∧
      ∀ j, f.Encodes j → (do
        let g ← named f.name
        g.selectJson j) = .ok f := by
  obtain ⟨array, object⟩ := exists_encodes f
  refine ⟨array, object, fun j h => ?_⟩
  have sound : f.Sound := hf.wellFormed.here
  obtain ⟨s, read, fields⟩ := h.exists_selection hf.wellFormed bare
  refine bind_eq_ok.mpr ⟨leaf f.name, sound.named_eq_ok, ?_⟩
  rw [selectJson_eq read]
  refine select_eq_ok_iff.mpr ⟨f.subfields, fields, ?_⟩
  have alone : joinAll (leaf f.name).subfields f.subfields = f.subfields :=
    joinAll_nil sound.subfields
  rw [alone, bare.here.eq_leaf]

/-- The field `author{name,avatar{url}}`. -/
def sampleAuthor : Field :=
  { leaf "author" with
    subfields := [leaf "name", { leaf "avatar" with subfields := [leaf "url"] }] }

/-- The field `book{id,author{name,avatar{url}}}`. -/
def sampleBook : Field := { leaf "book" with subfields := [leaf "id", sampleAuthor] }

/-- The value `["id",{"author":{"name":[],"avatar":["url"]}}]`. -/
def sampleBookJson : Json :=
  .array [.string "id",
    .object [("author", .object [("name", .array []), ("avatar", .array [.string "url"])])]]

theorem reachable_sampleBook : sampleBook.Reachable := by
  have book : (leaf "book").Reachable := reachable_leaf (by decide)
  have selected : (leaf "book").select (.several [.leaf "id", .under "author" (.several
      [.leaf "name", .under "avatar" (.leaf "url")])]) = .ok sampleBook := rfl
  exact book.select (List.forall_mem_nil _) selected

theorem everywhere_bare_sampleBook : sampleBook.Everywhere Bare := by
  have alone : ∀ n, (leaf n).Everywhere Bare := fun n =>
    everywhere_bare_nested n (List.forall_mem_nil _)
  have avatar := everywhere_bare_nested "avatar" (List.forall_mem_singleton.mpr (alone "url"))
  have author := everywhere_bare_nested "author"
    (List.forall_mem_cons.mpr ⟨alone "name", List.forall_mem_singleton.mpr avatar⟩)
  exact everywhere_bare_nested "book"
    (List.forall_mem_cons.mpr ⟨alone "id", List.forall_mem_singleton.mpr author⟩)

/-- An array on the outside, an object for the author, and arrays again below. -/
theorem encodes_sampleBook : sampleBook.Encodes sampleBookJson := by
  have name : EncodesMember (leaf "name") ("name", .array []) := .mk (.array .nil)
  have avatar : EncodesMember { leaf "avatar" with subfields := [leaf "url"] }
      ("avatar", .array [.string "url"]) := .mk (.array (.cons (.leaf rfl) .nil))
  have author : EncodesItem sampleAuthor (.object [("author",
      .object [("name", .array []), ("avatar", .array [.string "url"])])]) :=
    .branch (List.cons_ne_nil _ _) (.mk (.object (.cons name (.cons avatar .nil))))
  exact .array (.cons (.leaf rfl) (.cons author .nil))

theorem selectJson_encoded_sampleBook :
    sampleBook.Reachable ∧ sampleBook.Everywhere Bare ∧ sampleBook.Encodes sampleBookJson ∧
      (do
        let g ← named "book"
        g.selectJson sampleBookJson) = .ok sampleBook := by
  obtain ⟨-, -, again⟩ := selectJson_encoded reachable_sampleBook everywhere_bare_sampleBook
  exact ⟨reachable_sampleBook, everywhere_bare_sampleBook, encodes_sampleBook,
    again sampleBookJson encodes_sampleBook⟩

end Field

end GraphQLDoc
