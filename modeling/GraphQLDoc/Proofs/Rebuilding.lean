import GraphQLDoc.Proofs.Repeating

/-!
# A field from its parts

The arguments, the subfields and the fragments of a field can be taken out of it and added to a new
field of its name. Whatever merging let into a field passes the checks of the building steps again,
and parts that repeat no name are added without a change of order.

* `Field.Part`, `Field.addPart`: the three parts of a field, and the step that adds one.
* `Field.restrict`: the field with some of its parts only.
* `Field.addPart_restrict`, `Field.addParts_restrict`: one step adds one part, and several steps add
  theirs in any order.
* `Field.rebuilt`: all parts make the field.
-/

namespace GraphQLDoc

namespace Field

/-- What a field consists of, besides its name. -/
inductive Part where
  | arguments
  | subfields
  | spreads
  deriving DecidableEq

/-- The step that adds a part of `f` to another field. -/
def addPart (f g : Field) : Part → Except Error Field
  | .arguments => g.setArguments (f.arguments.map fun entry => (entry.1, some entry.2))
  | .subfields => g.select (.several (f.subfields.map .built))
  | .spreads => g.spread f.spreads

/-- The field with some of its parts only. -/
def restrict (f : Field) (parts : List Part) : Field :=
  { name := f.name
    arguments := if .arguments ∈ parts then f.arguments else []
    subfields := if .subfields ∈ parts then f.subfields else []
    spreads := if .spreads ∈ parts then f.spreads else [] }

variable {f : Field} {parts order : List Part}

theorem arguments_restrict (f : Field) (parts : List Part) :
    (f.restrict parts).arguments = if .arguments ∈ parts then f.arguments else [] := rfl

theorem subfields_restrict (f : Field) (parts : List Part) :
    (f.restrict parts).subfields = if .subfields ∈ parts then f.subfields else [] := rfl

theorem spreads_restrict (f : Field) (parts : List Part) :
    (f.restrict parts).spreads = if .spreads ∈ parts then f.spreads else [] := rfl

theorem restrict_nil (f : Field) : f.restrict [] = leaf f.name := rfl

theorem restrict_of_all (h : ∀ part, part ∈ parts) : f.restrict parts = f := by
  cases f
  simp [restrict, h]

theorem givenEntries_some (args : Arguments) :
    givenEntries (args.map fun entry => (entry.1, some entry.2)) = args := by
  rw [givenEntries, List.filterMap_map]
  exact List.filterMap_some

/-- The arguments of a field pass validation. -/
theorem Sound.firstFault_arguments (h : f.Sound) : Arguments.firstFault f.arguments = none := by
  refine Arguments.firstFault_eq_none_iff.mpr ⟨h.arguments.named, fun entry he => ?_⟩
  exact (h.values entry.2 (List.mem_map_of_mem he)).imp fun _ => Value.Sound.faultless

/-! ## One part -/

theorem addPart_arguments (h : f.Sound) :
    f.addPart (f.restrict parts) .arguments = .ok (f.restrict (.arguments :: parts)) := by
  have own : Entries.ofList (givenEntries (f.arguments.map fun entry => (entry.1, some entry.2))) =
      f.arguments := by
    rw [givenEntries_some, Entries.ofList_of_nodup h.arguments.distinct]
  have faultless := h.firstFault_arguments
  have added : Entries.extend (f.restrict parts).arguments f.arguments = f.arguments := by
    rw [arguments_restrict]
    split
    · exact Entries.extend_self h.arguments.distinct
    · exact Entries.ofList_of_nodup h.arguments.distinct
  refine setArguments_eq_ok_iff.mpr ?_
  rw [own, added]
  exact ⟨faultless, by simp [restrict]⟩

theorem addPart_subfields (h : f.Everywhere Unambiguous) :
    f.addPart (f.restrict parts) .subfields = .ok (f.restrict (.subfields :: parts)) := by
  have added : joinAll (f.restrict parts).subfields f.subfields = f.subfields := by
    rw [subfields_restrict]
    split
    · exact joinAll_self h.here.subfields fun g hg => merge_self (h.of_mem hg)
    · exact joinAll_nil h.here.subfields
  have denoted : (Selection.several (f.subfields.map .built)).denoted = f.subfields :=
    denotedByItems_built f.subfields
  have given : (Selection.several (f.subfields.map .built)).givenNames = [] :=
    givenNamesOfItems_built f.subfields
  rw [addPart, select_eq, given, denoted, added, if_neg List.not_mem_nil]
  simp [restrict]

theorem addPart_spreads (h : f.Sound) :
    f.addPart (f.restrict parts) .spreads = .ok (f.restrict (.spreads :: parts)) := by
  have added : addNames (f.restrict parts).spreads f.spreads = f.spreads := by
    rw [spreads_restrict]
    split
    · exact addNames_of_subset (List.Subset.refl _)
    · simp [addNames_eq_append_filter _ h.spreads]
  refine spread_eq_ok_iff.mpr ⟨h.spreadNames, ?_⟩
  rw [added]
  simp [restrict]

/-- A part that is there already can be added again. -/
theorem addPart_restrict (h : f.WellFormed) (part : Part) :
    f.addPart (f.restrict parts) part = .ok (f.restrict (part :: parts)) := by
  cases part with
  | arguments => exact addPart_arguments h.here
  | subfields => exact addPart_subfields h.unambiguous
  | spreads => exact addPart_spreads h.here

/-! ## All parts -/

theorem addParts_restrict (h : f.WellFormed) :
    order.foldlM f.addPart (f.restrict parts) = .ok (f.restrict (order.reverse ++ parts)) := by
  induction order generalizing parts with
  | nil => rfl
  | cons part rest ih =>
    rw [List.foldlM_cons, addPart_restrict h, List.reverse_cons, List.append_assoc]
    exact ih

/-- A new field of the same name that takes the arguments, the subfields and the fragments of a
field, in any order, is this field. No step fails, and everything has its order at every depth. -/
theorem rebuilt {f : Field} (hf : f.Reachable) (order : List Part) (all : ∀ part, part ∈ order) :
    (do
      let g ← named f.name
      order.foldlM f.addPart g) = .ok f := by
  refine bind_eq_ok.mpr ⟨leaf f.name, hf.wellFormed.here.named_eq_ok, ?_⟩
  rw [← restrict_nil, addParts_restrict hf.wellFormed, restrict_of_all]
  intro part
  rw [List.append_nil, List.mem_reverse]
  exact all part

theorem rebuilt_sampleUser :
    sampleUser.Reachable ∧ (∀ part, part ∈ [Part.spreads, .subfields, .arguments]) ∧
      (do
        let g ← named "user"
        let spreading ← g.spread ["Info"]
        let selecting ← spreading.select (.several
          [.built (leaf "name"), .built { leaf "posts" with subfields := [leaf "title"] }])
        selecting.setArguments [("filter", some sampleFilter)]) = .ok sampleUser := by
  have all : ∀ part, part ∈ [Part.spreads, .subfields, .arguments] := by
    intro part
    cases part <;> decide
  have again := rebuilt reachable_sampleUser [.spreads, .subfields, .arguments] all
  exact ⟨reachable_sampleUser, all, again⟩

end Field

end GraphQLDoc
