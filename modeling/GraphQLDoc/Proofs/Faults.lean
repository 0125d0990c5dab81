import GraphQLDoc.Proofs.Build
import GraphQLDoc.Proofs.Collapsing
import Mathlib.Logic.Basic

/-!
# Where validation stops

Arguments are checked site by site in one fixed order, and the first faulty site is reported.

* `Site`: what is checked, a key or a number. `Site.fault?` says what is wrong with it.
* `Arguments.sites`: all sites, depth first, a key before what stands under it.
* `Arguments.firstFault_eq`: the fault that is found is that of the first faulty site.
* `Field.setArguments_congr`: only the last value of a key is checked.
* `Field.setArguments_reports_first`: which arguments are refused, and what is reported.
-/

namespace GraphQLDoc

/-! ## Sites -/

/-- A place among arguments that can be faulty. -/
inductive Site where
  /-- The key of an argument, or of an entry of an object. -/
  | name (key : String)
  /-- A number in the argument or entry `key`, itself or in lists. -/
  | number (key : String) (n : Number)

/-- What is wrong with the site, if anything is. -/
def Site.fault? : Site → Option Error
  | .name key => if key = "" then some .unnamedArgument else none
  | .number key n => if n.isFinite then none else some (.nonFiniteArgument key)

mutual

/-- The sites in the value of `key`. -/
def Value.sites (key : String) : Value → List Site
  | .number n => [.number key n]
  | .list items => Value.sitesOfItems key items
  | .object entries => Value.sitesOfEntries entries
  | _ => []

/-- The sites in the items of a list, one item after the other. -/
def Value.sitesOfItems (key : String) : List Value → List Site
  | [] => []
  | v :: vs => v.sites key ++ Value.sitesOfItems key vs

/-- The sites in a map, one entry after the other and the key of each before its value. -/
def Value.sitesOfEntries : List (String × Value) → List Site
  | [] => []
  | (key, v) :: rest => .name key :: (v.sites key ++ Value.sitesOfEntries rest)

end

/-- All sites among arguments. -/
def Arguments.sites (args : Arguments) : List Site := Value.sitesOfEntries args

namespace Value

theorem sitesOfItems_eq_flatMap (key : String) (items : List Value) :
    sitesOfItems key items = items.flatMap (sites key) := by
  induction items with
  | nil => rfl
  | cons v vs ih => rw [sitesOfItems, ih, List.flatMap_cons]

theorem sitesOfEntries_eq_flatMap (entries : List (String × Value)) :
    sitesOfEntries entries =
      entries.flatMap fun entry => .name entry.1 :: entry.2.sites entry.1 := by
  induction entries with
  | nil => rfl
  | cons entry rest ih => rw [sitesOfEntries, ih, List.flatMap_cons, List.cons_append]

theorem within_of_mem_sites {key place : String} {n : Number} {v : Value}
    (h : Site.number place n ∈ v.sites key) : (number n).Within v := by
  induction v using Value.induction generalizing key with
  | step v ih =>
    have below : ∀ {w : Value} {key}, w ∈ v.children → Site.number place n ∈ w.sites key →
        (number n).Within v := fun hw h => .head hw (ih _ hw h)
    cases v with
    | number m =>
      cases List.mem_singleton.mp h
      exact .refl
    | list items =>
      rw [sites, sitesOfItems_eq_flatMap] at h
      obtain ⟨w, hw, h⟩ := List.mem_flatMap.mp h
      exact below hw h
    | object entries =>
      rw [sites, sitesOfEntries_eq_flatMap] at h
      obtain ⟨entry, he, h⟩ := List.mem_flatMap.mp h
      exact below (List.mem_map_of_mem he) ((List.mem_cons.mp h).resolve_left nofun)
    | _ => exact absurd h List.not_mem_nil

end Value

mutual

theorem Value.firstFault_eq (key : String) : ∀ v : Value,
    v.firstFault key = (v.sites key).findSome? Site.fault?
  | .number n => by
    rw [firstFault, sites, List.findSome?_singleton, Site.fault?]
  | .list items => Value.firstItemFault_eq key items
  | .object entries => Value.firstEntryFault_eq entries
  | .string _ => rfl
  | .boolean _ => rfl
  | .instant _ => rfl
  | .enum _ => rfl

theorem Value.firstItemFault_eq (key : String) : ∀ items : List Value,
    Value.firstItemFault key items = (Value.sitesOfItems key items).findSome? Site.fault?
  | [] => rfl
  | v :: vs => by
    rw [firstItemFault, sitesOfItems, List.findSome?_append, firstFault_eq key v,
      firstItemFault_eq key vs]

theorem Value.firstEntryFault_eq : ∀ entries : List (String × Value),
    Value.firstEntryFault entries = (Value.sitesOfEntries entries).findSome? Site.fault?
  | [] => rfl
  | (key, v) :: rest => by
    rw [firstEntryFault, sitesOfEntries, List.findSome?_cons, List.findSome?_append,
      ← firstFault_eq key v, ← firstEntryFault_eq rest, Site.fault?]
    split <;> rfl

end

namespace Arguments

variable {args : Arguments}

theorem firstFault_eq (args : Arguments) :
    args.firstFault = args.sites.findSome? Site.fault? := Value.firstEntryFault_eq args

theorem firstFault_eq_some_iff {e : Error} :
    args.firstFault = some e ↔ ∃ before site after, args.sites = before ++ site :: after ∧
      (∀ s ∈ before, s.fault? = none) ∧ site.fault? = some e := by
  rw [firstFault_eq, List.findSome?_eq_some_iff]
  simp only [and_comm]

/-- There is a fault exactly if a key or a value at some depth has one. -/
theorem exists_firstFault_iff :
    (∃ e, args.firstFault = some e) ↔
      ∃ entry ∈ args, entry.1 = "" ∨ ∃ v : Value, v.Within entry.2 ∧ ¬v.Faultless := by
  rw [← Option.ne_none_iff_exists', Ne, firstFault_eq_none_iff]
  constructor
  · intro faulty
    rw [not_and_or, not_not] at faulty
    obtain empty | faulty := faulty
    · obtain ⟨entry, he, e⟩ := List.mem_map.mp empty
      exact ⟨entry, he, .inl e⟩
    · simp only [Value.Everywhere, Everywhere, not_forall, exists_prop] at faulty
      obtain ⟨entry, he, v, hv, bad⟩ := faulty
      exact ⟨entry, he, .inr ⟨v, hv, bad⟩⟩
  · rintro ⟨entry, he, empty | ⟨v, hv, bad⟩⟩ ⟨named, faultless⟩
    · exact named (empty ▸ List.mem_map_of_mem he)
    · exact bad (faultless entry he v hv)

end Arguments

theorem Value.not_faultless_iff {v : Value} :
    ¬v.Faultless ↔ (∃ entries, v = .object entries ∧ "" ∈ Entries.keys entries) ∨
      ∃ n, v = .number n ∧ n.isFinite = false := by
  cases v <;> simp [Faultless]

namespace Site

variable {site : Site} {e : Error}

/-- What is reported about a site. -/
theorem report (h : site.fault? = some e) :
    e.kind = .invalidArgument ∧
      ((site = .name "" ∧ e.message = "Argument names must not be empty" ∧ e.context = none) ∨
        ∃ key n, site = .number key n ∧ n.isFinite = false ∧
          e.message = "Argument values must be finite numbers" ∧ e.context = some key) := by
  cases site with
  | name key =>
    rw [fault?, Option.ite_none_right_eq_some] at h
    obtain ⟨rfl, h⟩ := h
    cases h
    exact ⟨rfl, .inl ⟨rfl, rfl, rfl⟩⟩
  | number key n =>
    rw [fault?, Option.ite_none_left_eq_some, Bool.not_eq_true] at h
    obtain ⟨infinite, h⟩ := h
    cases h
    exact ⟨rfl, .inr ⟨key, n, rfl, infinite, rfl, rfl⟩⟩

end Site

/-! ## Refused arguments -/

namespace Field

variable {f : Field}

theorem givenEntries_append (entries more : List (String × Option Value)) :
    givenEntries (entries ++ more) = givenEntries entries ++ givenEntries more :=
  List.filterMap_append

@[simp] theorem givenEntries_cons_some (key : String) (v : Value)
    (entries : List (String × Option Value)) :
    givenEntries ((key, some v) :: entries) = (key, v) :: givenEntries entries := rfl

/-- A value that is overwritten later is not looked at. -/
theorem setArguments_congr {before after : List (String × Option Value)} {key : String}
    (later : ∃ x, (key, some x) ∈ after) (v w : Value) :
    f.setArguments (before ++ (key, some v) :: after) =
      f.setArguments (before ++ (key, some w) :: after) := by
  obtain ⟨x, hx⟩ := later
  have listed : key ∈ Entries.keys (givenEntries after) :=
    List.mem_map_of_mem (mem_givenEntries.mpr hx : (key, x) ∈ givenEntries after)
  rw [setArguments, setArguments, givenEntries_append, givenEntries_append, givenEntries_cons_some,
    givenEntries_cons_some, Entries.ofList_congr listed v w]

/-- Let `m` be the map of the entries that have a value. They are refused exactly if `m` has an
empty key or a number without a literal at some depth of lists and objects. What is reported is the
first such site of `m`, depth first: an empty key without context, and a number with the key of the
innermost entry that it stands in, whatever lists are between them. So a value is not reported if
its key is given a value again. -/
theorem setArguments_reports_first (f : Field) {entries : List (String × Option Value)}
    {m : Arguments} (collapsed : Entries.Collapses (givenEntries entries) m) :
    ((∃ e, f.setArguments entries = .error e) ↔
      ∃ entry ∈ m, entry.1 = "" ∨ ∃ v : Value, v.Within entry.2 ∧
        ((∃ inner, v = .object inner ∧ "" ∈ Entries.keys inner) ∨
          ∃ n, v = .number n ∧ n.isFinite = false)) ∧
    (∀ e, f.setArguments entries = .error e ↔
      ∃ before site after, m.sites = before ++ site :: after ∧
        (∀ s ∈ before, s.fault? = none) ∧ site.fault? = some e) ∧
    (∀ (site : Site) (e : Error), site.fault? = some e → e.kind = .invalidArgument ∧
      ((site = .name "" ∧ e.message = "Argument names must not be empty" ∧ e.context = none) ∨
        ∃ key n, site = .number key n ∧ n.isFinite = false ∧
          e.message = "Argument values must be finite numbers" ∧ e.context = some key)) ∧
    ∀ before key v w after, (∃ x, (key, some x) ∈ after) →
      f.setArguments (before ++ (key, some v) :: after) =
        f.setArguments (before ++ (key, some w) :: after) := by
  have reported : ∀ e, f.setArguments entries = .error e ↔ m.firstFault = some e := by
    intro e
    rw [setArguments, overlay_eq_error_iff, collapsed.eq_ofList]
  refine ⟨?_, fun e => ?_, fun _ _ => Site.report, fun _ _ v w _ later =>
    setArguments_congr later v w⟩
  · simp only [reported, Arguments.exists_firstFault_iff, Value.not_faultless_iff]
  · rw [reported, Arguments.firstFault_eq_some_iff]

/-- The arguments `after:none,where:{ids:[1,inf],:1},ratio:1`. -/
def sampleStats : List (String × Option Value) :=
  [("after", none),
    ("where", some (.object [("ids", .list [.number (.int 1), .number (.float (.infinity false))]),
      ("", .number (.int 1))])),
    ("ratio", some (.number (.int 1)))]

theorem setArguments_reports_first_sampleStats :
    ∃ m e, Entries.Collapses
        (givenEntries (("ratio", some (.number (.float .nan))) :: sampleStats)) m ∧
      m.keys = ["ratio", "where"] ∧
      (leaf "stats").setArguments (("ratio", some (.number (.float .nan))) :: sampleStats) =
        .error e ∧
      e.message = "Argument values must be finite numbers" ∧ e.context = some "ids" ∧
      (∃ x, ("ratio", some x) ∈ sampleStats) ∧
      (leaf "stats").setArguments (("ratio", some (.string "any")) :: sampleStats) = .error e := by
  have collapsed := Entries.collapses_ofList
    (givenEntries (("ratio", some (.number (.float .nan))) :: sampleStats))
  obtain ⟨-, first, -, overwritten⟩ := setArguments_reports_first (leaf "stats") collapsed
  have later : ∃ x, ("ratio", some x) ∈ sampleStats :=
    ⟨_, List.mem_cons_of_mem _ (List.mem_cons_of_mem _ List.mem_cons_self)⟩
  have same := overwritten [] "ratio" (.number (.float .nan)) (.string "any") sampleStats later
  -- Two keys and two numbers are fine, then there is the infinity.
  have infinite : (Site.number "ids" (.float (.infinity false))).fault? =
      some (.nonFiniteArgument "ids") := rfl
  have refused := (first (.nonFiniteArgument "ids")).mpr
    ⟨[.name "ratio", .number "ratio" (.int 1), .name "where", .name "ids", .number "ids" (.int 1)],
      _, [.name "", .number "" (.int 1)], rfl, by decide, infinite⟩
  exact ⟨_, _, collapsed, rfl, refused, rfl, rfl, later, same.symm.trans refused⟩

end Field

end GraphQLDoc
