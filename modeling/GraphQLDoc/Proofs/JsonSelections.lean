import GraphQLDoc.Field.Build
import GraphQLDoc.Json.Text
import GraphQLDoc.Proofs.PathLists
import GraphQLDoc.Proofs.Repeating

/-!
# Selections given as JSON

A JSON value selects paths: a string one of a single name, an array those of its items, and an
object those of its members below their keys.

* `Json.preorder`: a value and everything inside it, depth first. `Json.selectsNothing` are those
  values that select no fields, `Json.ownNames` the names that a value itself gives.
* `Json.paths`: the paths that a value selects.
* `Selection.failure?_ofJson`: the first value that selects nothing is reported.
* `Selection.mem_givenNames_ofJson`, `Selection.mem_pathsOfAll_ofJson`: the names and the paths of
  the selection are those of the value.
* `Field.Bare`: a field has no arguments and spreads no fragments. `Field.at?_merge_of_bare` is what
  merging such fields changes.
* `Field.selectJson_selects_paths`: which values are refused, and what the others select.
-/

namespace GraphQLDoc

namespace Json

/-! ## What a value says -/

/-- The value is null, a boolean or a number. -/
def selectsNothing : Json → Bool
  | null => true
  | bool _ => true
  | number _ => true
  | _ => false

/-- The text of a string, and the keys of an object. -/
def ownNames : Json → List String
  | string s => [s]
  | object members => Entries.keys members
  | _ => []

/-- The name is a string, or a key of an object, in the value. -/
def GivesName (j : Json) (n : String) : Prop := ∃ k : Json, k.Within j ∧ n ∈ k.ownNames

mutual

/-- The value and everything inside it. What stands inside an item or a member comes before the next
one. -/
def preorder : Json → List Json
  | array items => array items :: preorderOfItems items
  | object members => object members :: preorderOfMembers members
  | j => [j]

/-- The items of an array with everything inside them. -/
def preorderOfItems : List Json → List Json
  | [] => []
  | j :: js => preorder j ++ preorderOfItems js

/-- The values of an object with everything inside them. -/
def preorderOfMembers : List (String × Json) → List Json
  | [] => []
  | (_, j) :: members => preorder j ++ preorderOfMembers members

end

mutual

/-- The paths that a value selects. -/
def paths : Json → List (List String)
  | string s => [[s]]
  | array items => pathsOfItems items
  | object members => pathsOfMembers members
  | _ => []

/-- The paths of the items of an array. -/
def pathsOfItems : List Json → List (List String)
  | [] => []
  | j :: js => paths j ++ pathsOfItems js

/-- The paths of the members of an object, each below its key. -/
def pathsOfMembers : List (String × Json) → List (List String)
  | [] => []
  | (key, j) :: members => pathsFrom key (paths j) ++ pathsOfMembers members

end

theorem preorderOfItems_eq_flatMap (items : List Json) :
    preorderOfItems items = items.flatMap preorder := by
  induction items with
  | nil => rfl
  | cons j js ih => rw [preorderOfItems, ih, List.flatMap_cons]

theorem preorderOfMembers_eq_flatMap (members : List (String × Json)) :
    preorderOfMembers members = members.flatMap fun member => member.2.preorder := by
  induction members with
  | nil => rfl
  | cons member rest ih => rw [preorderOfMembers, ih, List.flatMap_cons]

theorem pathsOfItems_eq_flatMap (items : List Json) :
    pathsOfItems items = items.flatMap paths := by
  induction items with
  | nil => rfl
  | cons j js ih => rw [pathsOfItems, ih, List.flatMap_cons]

theorem pathsOfMembers_eq_flatMap (members : List (String × Json)) :
    pathsOfMembers members = members.flatMap fun member => pathsFrom member.1 member.2.paths := by
  induction members with
  | nil => rfl
  | cons member rest ih => rw [pathsOfMembers, ih, List.flatMap_cons]

theorem preorder_eq (j : Json) : j.preorder = j :: j.children.flatMap preorder := by
  cases j with
  | array items => rw [preorder, preorderOfItems_eq_flatMap, children]
  | object members => rw [preorder, preorderOfMembers_eq_flatMap, children, List.flatMap_map]
  | _ => rfl

theorem mem_preorder {j k : Json} : k ∈ j.preorder ↔ k.Within j :=
  mem_preorder_iff sizeOf_lt_of_mem_children preorder_eq

theorem givesName_iff {j : Json} {n : String} :
    j.GivesName n ↔ n ∈ j.preorder.flatMap ownNames := by
  simp only [GivesName, List.mem_flatMap, mem_preorder]

instance (j : Json) (n : String) : Decidable (j.GivesName n) :=
  decidable_of_iff _ givesName_iff.symm

end Json

namespace Selection

variable {j k : Json} {s : Selection}

/-! ## Which values are refused -/

theorem ofItems_eq_mapM (items : List Json) : ofItems items = items.mapM ofJson := by
  induction items with
  | nil => rfl
  | cons j js ih => rw [ofItems, ih, List.mapM_cons]

theorem ofMembers_eq_mapM (members : List (String × Json)) :
    ofMembers members = members.mapM fun member => (ofJson member.2).map (under member.1) := by
  induction members with
  | nil => rfl
  | cons member rest ih =>
    rw [ofMembers, ih, List.mapM_cons]
    cases ofJson member.2 <;> rfl

/-- A selection is refused for the first value in it that selects nothing. -/
theorem failure?_ofJson (j : Json) :
    failure? (ofJson j) = (j.preorder.find? Json.selectsNothing).map .notSelection := by
  induction j using Json.induction with
  | step j ih =>
    rw [Json.preorder_eq]
    cases j with
    | array items =>
      have selects : ¬(Json.array items).selectsNothing = true := Bool.false_ne_true
      rw [ofJson, failure?_map, ofItems_eq_mapM, failure?_mapM, List.find?_cons_of_neg selects,
        List.find?_flatMap, List.map_findSome?]
      exact findSome?_congr ih
    | object members =>
      have selects : ¬(Json.object members).selectsNothing = true := Bool.false_ne_true
      rw [ofJson, failure?_map, ofMembers_eq_mapM, failure?_mapM, List.find?_cons_of_neg selects,
        List.find?_flatMap, List.map_findSome?, Json.children, List.findSome?_map]
      refine findSome?_congr fun member hm => ?_
      rw [failure?_map]
      exact ih member.2 (List.mem_map_of_mem hm)
    | _ => rfl

theorem ofJson_eq_error (h : j.preorder.find? Json.selectsNothing = some k) :
    ofJson j = .error (.notSelection k) := by
  rw [← failure?_eq_some_iff, failure?_ofJson, h]
  rfl

theorem exists_ofJson (h : ∀ k : Json, k.Within j → k.selectsNothing = false) :
    ∃ s, ofJson j = .ok s := by
  rw [← failure?_eq_none_iff, failure?_ofJson, Option.map_eq_none_iff, List.find?_eq_none]
  intro k hk
  simp [h k (Json.mem_preorder.mp hk)]

/-! ## What the others select -/

theorem ofJson_array_eq_ok_iff {items : List Json} :
    ofJson (.array items) = .ok s ↔
      ∃ ss, List.Forall₂ (fun j t => ofJson j = .ok t) items ss ∧ s = several ss := by
  rw [ofJson, map_eq_ok, ofItems_eq_mapM]
  simp only [mapM_eq_ok_iff, @eq_comm _ _ s]

theorem ofJson_object_eq_ok_iff {members : List (String × Json)} :
    ofJson (.object members) = .ok s ↔
      ∃ ss, List.Forall₂ (fun m t => ∃ below, ofJson m.2 = .ok below ∧ t = under m.1 below)
        members ss ∧ s = several ss := by
  rw [ofJson, map_eq_ok, ofMembers_eq_mapM]
  simp only [mapM_eq_ok_iff, map_eq_ok, @eq_comm _ _ s, @eq_comm _ (under _ _)]

theorem mem_givenNamesOfItems {items : List Selection} {n : String} :
    n ∈ givenNamesOfItems items ↔ ∃ s ∈ items, n ∈ s.givenNames := by
  induction items with
  | nil => simp [givenNamesOfItems]
  | cons s rest ih => rw [givenNamesOfItems, List.mem_append, ih, List.exists_mem_cons_iff]

theorem mem_givenNames_ofJson {n : String} (h : ofJson j = .ok s) :
    n ∈ s.givenNames ↔ j.GivesName n := by
  induction j using Json.induction generalizing s with
  | step j ih =>
    rw [Json.GivesName, exists_within_iff]
    cases j with
    | string t =>
      cases h
      simp [givenNames, Json.ownNames, Json.children]
    | array items =>
      obtain ⟨ss, read, rfl⟩ := ofJson_array_eq_ok_iff.mp h
      have unnamed : n ∉ (Json.array items).ownNames := List.not_mem_nil
      rw [givenNames, mem_givenNamesOfItems, or_iff_right unnamed]
      exact (exists_mem_iff_of_forall₂ read fun k hk t ht => (ih k hk ht).symm).symm
    | object members =>
      obtain ⟨ss, read, rfl⟩ := ofJson_object_eq_ok_iff.mp h
      have each : ∀ m ∈ members, ∀ t, (∃ below, ofJson m.2 = .ok below ∧ t = under m.1 below) →
          ((n = m.1 ∨ m.2.GivesName n) ↔ n ∈ t.givenNames) := by
        rintro m hm t ⟨below, hb, rfl⟩
        rw [givenNames, List.mem_cons, ih m.2 (List.mem_map_of_mem hm) hb]
      rw [givenNames, mem_givenNamesOfItems, ← exists_mem_iff_of_forall₂ read each]
      simp only [and_or_left, exists_or, Json.ownNames, Json.children, Entries.keys, List.mem_map,
        exists_exists_and_eq_and, Json.GivesName]
      simp only [eq_comm]
    | _ => cases h

theorem mem_pathsOfAll_denotedByItems {items : List Selection} {p : List String} :
    p ∈ Field.pathsOfAll (denotedByItems items) ↔ ∃ s ∈ items, p ∈ Field.pathsOfAll s.denoted := by
  induction items with
  | nil => simp [denotedByItems, Field.pathsOfAll]
  | cons s rest ih =>
    rw [denotedByItems, Field.pathsOfAll_eq_flatMap, List.flatMap_append, List.mem_append,
      ← Field.pathsOfAll_eq_flatMap, ← Field.pathsOfAll_eq_flatMap, ih, List.exists_mem_cons_iff]

theorem mem_pathsOfAll_under {n : String} {below : Selection} {p : List String} :
    p ∈ Field.pathsOfAll (under n below).denoted ↔
      p ∈ pathsFrom n (Field.pathsOfAll below.denoted) := by
  have one : Field.pathsOfAll (under n below).denoted =
      pathsFrom n (Field.pathsOfAll (Field.joinAll [] below.denoted)) := List.append_nil _
  simp only [one, mem_pathsFrom, Field.mem_pathsOfAll_joinAll, Field.pathsOfAll, List.not_mem_nil,
    false_or]

theorem mem_pathsOfAll_ofJson {p : List String} (h : ofJson j = .ok s) :
    p ∈ Field.pathsOfAll s.denoted ↔ p ∈ j.paths := by
  induction j using Json.induction generalizing s p with
  | step j ih =>
    cases j with
    | string t =>
      cases h
      rfl
    | array items =>
      obtain ⟨ss, read, rfl⟩ := ofJson_array_eq_ok_iff.mp h
      rw [denoted, mem_pathsOfAll_denotedByItems, Json.paths, Json.pathsOfItems_eq_flatMap,
        List.mem_flatMap]
      exact (exists_mem_iff_of_forall₂ read fun k hk t ht => (ih k hk ht).symm).symm
    | object members =>
      obtain ⟨ss, read, rfl⟩ := ofJson_object_eq_ok_iff.mp h
      rw [denoted, mem_pathsOfAll_denotedByItems, Json.paths, Json.pathsOfMembers_eq_flatMap,
        List.mem_flatMap]
      refine (exists_mem_iff_of_forall₂ read ?_).symm
      rintro m hm t ⟨below, hb, rfl⟩
      simp only [mem_pathsOfAll_under, mem_pathsFrom, ih m.2 (List.mem_map_of_mem hm) hb]
    | _ => cases h

end Selection

namespace Field

variable {f g : Field} {j k : Json} {s : Selection}

/-! ## Fields with nothing but subfields -/

/-- The field has no arguments and spreads no fragments. -/
structure Bare (f : Field) : Prop where
  arguments : f.arguments = []
  spreads : f.spreads = []

theorem Bare.arguments_merge (h : g.Bare) : (merge f g).arguments = f.arguments := by
  rw [Field.arguments_merge, h.arguments, Entries.extend_nil]

theorem Bare.spreads_merge (h : g.Bare) : (merge f g).spreads = f.spreads := by
  rw [Field.spreads_merge, h.spreads, addNames_nil]

theorem Bare.merge (hf : f.Bare) (hg : g.Bare) : (Field.merge f g).Bare :=
  ⟨hg.arguments_merge.trans hf.arguments, hg.spreads_merge.trans hf.spreads⟩

theorem everywhere_bare_nested (n : String) {fields : List Field}
    (h : ∀ g ∈ fields, g.Everywhere Bare) : (nested n fields).Everywhere Bare :=
  everywhere_iff.mpr
    ⟨⟨rfl, rfl⟩, everywhere_joinAll (fun _ _ hf hg => hf.merge hg) (List.forall_mem_nil _) h⟩

/-- JSON names fields and gives them nothing else. -/
theorem everywhere_bare_ofJson {gs : List Field} (h : Selection.ofJson j = .ok s)
    (fields : s.fields = .ok gs) : ∀ g ∈ gs, g.Everywhere Bare :=
  Selection.forall_mem_fields (P := Everywhere Bare) (fun n _ _ => everywhere_bare_nested n)
    (Selection.forall_mem_builtFields_ofJson h) fields

section Added

variable (hf : f.Everywhere Unambiguous) (hg : g.Everywhere Unambiguous) (bare : g.Everywhere Bare)
  {p : List String}

include hf hg bare

/-- Merging a bare field onto another one changes nothing where this one has a path. -/
theorem at?_merge_of_mem_paths (listed : p ∈ f.paths) :
    ∃ a b, f.at? p = some a ∧ (merge f g).at? p = some b ∧
      b.arguments = a.arguments ∧ b.spreads = a.spreads := by
  obtain ⟨-, leads⟩ := (mem_paths_iff hf).mp listed
  obtain ⟨a, ha⟩ := Option.isSome_iff_exists.mp leads
  have law := at?_merge hf hg p
  cases hc : g.at? p with
  | none => exact ⟨a, a, ha, by rw [law, ha, hc, Option.merge_none_right], rfl, rfl⟩
  | some c =>
    have node : c.Bare := bare c (within_of_at? hc)
    exact ⟨a, merge a c, ha, by rw [law, ha, hc, Option.merge_some_some], node.arguments_merge,
      node.spreads_merge⟩

/-- At the paths that are new there is nothing but fields. -/
theorem at?_merge_of_not_mem_paths (listed : p ∈ (merge f g).paths) (fresh : p ∉ f.paths) :
    ∃ b, (merge f g).at? p = some b ∧ b.Bare := by
  have onto : (merge f g).Everywhere Unambiguous := everywhere_merge (fun _ _ h _ => h.merge) hf hg
  obtain ⟨long, leads⟩ := (mem_paths_iff onto).mp listed
  obtain ⟨b, hb⟩ := Option.isSome_iff_exists.mp leads
  have absent : f.at? p = none := by
    rw [mem_paths_iff hf, not_and, Option.not_isSome_iff_eq_none] at fresh
    exact fresh long
  have added : g.at? p = some b := by
    rw [← hb, at?_merge hf hg, absent, Option.merge_none_left]
  exact ⟨b, hb, bare b (within_of_at? added)⟩

end Added

/-! ## Selecting -/

/-- Fields that are selected below a field, as a field of its name that is merged onto it. -/
theorem selected_eq_merge (hf : f.Everywhere Unambiguous) {fields : List Field}
    (h : ∀ g ∈ fields, g.Everywhere Unambiguous) :
    { f with subfields := joinAll f.subfields fields } = merge f (nested f.name fields) := by
  have below : joinAll f.subfields (nested f.name fields).subfields = joinAll f.subfields fields :=
    joinAll_collected hf.here.subfields (fun _ => hf.of_mem) h
  rw [merge_eq, below]
  rfl

theorem selectJson_eq (h : Selection.ofJson j = .ok s) : f.selectJson j = f.select s := by
  rw [selectJson, h]
  rfl

/-- What a JSON value selects is merged onto the field like one bare field of its name. -/
theorem selectJson_eq_merge (hf : f.Everywhere Unambiguous) (h : Selection.ofJson j = .ok s)
    (named : "" ∉ s.givenNames) :
    ∃ g, f.selectJson j = .ok (merge f g) ∧ g.Everywhere Unambiguous ∧ g.Everywhere Bare ∧
      ∀ p, p ∈ g.paths ↔ p ∈ j.paths := by
  have fields : s.fields = .ok s.denoted := by
    rw [Selection.fields_eq, if_neg named]
  have denoted : ∀ g ∈ s.denoted, g.Everywhere Unambiguous := fun g hg =>
    (WellFormed.fields (Selection.forall_mem_builtFields_ofJson h) fields g hg).unambiguous
  refine ⟨nested f.name s.denoted, ?_, everywhere_unambiguous_nested f.name denoted,
    everywhere_bare_nested f.name (everywhere_bare_ofJson h fields), fun p => ?_⟩
  · rw [selectJson_eq h, select_eq, if_neg named, selected_eq_merge hf denoted]
  · rw [← Selection.mem_pathsOfAll_ofJson h, paths_eq]
    exact mem_pathsOfAll_joinAll.trans (or_iff_right List.not_mem_nil)

theorem selectJson_of_find (h : j.preorder.find? Json.selectsNothing = some k) :
    f.selectJson j = .error (.notSelection k) := by
  rw [selectJson, Selection.ofJson_eq_error h]
  rfl

theorem selectJson_eq_error_iff {e : Error} (h : Selection.ofJson j = .ok s) :
    f.selectJson j = .error e ↔ j.GivesName "" ∧ e = .unnamedField := by
  rw [selectJson_eq h, select_eq, ← Selection.mem_givenNames_ofJson h]
  split <;> simp_all [eq_comm]

/-- A JSON value is refused as a selection if null, a boolean or a number stands in it at any depth.
The first such value, depth first, is quoted, whatever names there are. Otherwise it is refused if a
string or a key in it is empty. Otherwise the field has the paths that it had and those of the
value, each once. Arguments and fragments at the paths that it had stay as they are, and at the new
paths there are none. -/
theorem selectJson_selects_paths {f : Field} (hf : f.Reachable) (j : Json) :
    ((∃ e, f.selectJson j = .error e ∧ e.kind = .invalidSubfield) ↔
      ∃ k : Json, k.Within j ∧ k.selectsNothing = true) ∧
    (∀ k, j.preorder.find? Json.selectsNothing = some k → ∃ e, f.selectJson j = .error e ∧
      e.kind = .invalidSubfield ∧ e.context = some k.text) ∧
    ((∀ k : Json, k.Within j → k.selectsNothing = false) →
      ((∃ e, f.selectJson j = .error e) ↔ j.GivesName "") ∧
      (∀ e, f.selectJson j = .error e → e.kind = .invalidName) ∧
      (¬j.GivesName "" → ∃ r, f.selectJson j = .ok r ∧ r = { f with subfields := r.subfields } ∧
        r.paths.Nodup ∧ (∀ p, p ∈ r.paths ↔ p ∈ f.paths ∨ p ∈ j.paths) ∧
        (∀ p ∈ f.paths, ∃ a b, f.at? p = some a ∧ r.at? p = some b ∧
          b.arguments = a.arguments ∧ b.spreads = a.spreads) ∧
        ∀ p ∈ r.paths, p ∉ f.paths → ∃ b, r.at? p = some b ∧ b.Bare)) := by
  have whole : f.Everywhere Unambiguous := hf.wellFormed.unambiguous
  have found : (∃ k : Json, k.Within j ∧ k.selectsNothing = true) ↔
      ∃ k, j.preorder.find? Json.selectsNothing = some k := by
    rw [← Option.isSome_iff_exists, List.find?_isSome]
    simp only [Json.mem_preorder]
  refine ⟨⟨?_, fun nothing => ?_⟩, fun k hk => ⟨_, selectJson_of_find hk, rfl, rfl⟩,
    fun complete => ?_⟩
  · rintro ⟨e, failed, kind⟩
    by_contra none
    obtain ⟨s, hs⟩ := Selection.exists_ofJson (j := j) fun k hk => by
      simpa using fun nothing => none ⟨k, hk, nothing⟩
    obtain ⟨-, rfl⟩ := (selectJson_eq_error_iff hs).mp failed
    exact nomatch kind
  · obtain ⟨k, hk⟩ := found.mp nothing
    exact ⟨_, selectJson_of_find hk, rfl⟩
  · obtain ⟨s, hs⟩ := Selection.exists_ofJson complete
    simp only [selectJson_eq_error_iff hs]
    refine ⟨⟨fun ⟨_, unnamed, _⟩ => unnamed, fun unnamed => ⟨_, unnamed, rfl⟩⟩, ?_, fun named => ?_⟩
    · rintro e ⟨-, rfl⟩
      rfl
    · rw [← Selection.mem_givenNames_ofJson hs] at named
      obtain ⟨g, selected, hg, bare, added⟩ := selectJson_eq_merge whole hs named
      refine ⟨merge f g, selected, ?_, ?_, fun p => ?_, fun p => ?_, fun p => ?_⟩
      · have root := bare.here
        rw [merge_eq, root.arguments, root.spreads]
        rfl
      · exact nodup_paths (everywhere_merge (fun _ _ h _ => h.merge) whole hg)
      · rw [mem_paths_merge, added]
      · exact at?_merge_of_mem_paths whole hg bare
      · exact at?_merge_of_not_mem_paths whole hg bare

/-- The value `["id",{"posts":["date",{"title":[]}]},"name"]`. -/
def sampleChoice : Json :=
  .array [.string "id",
    .object [("posts", .array [.string "date", .object [("title", .array [])]])], .string "name"]

/-- The value `["",{"posts":[true,null]}]`. -/
def sampleMisuse : Json :=
  .array [.string "", .object [("posts", .array [.bool true, .null])]]

theorem selectJson_selects_paths_sampleUser :
    sampleUser.Reachable ∧ (∀ k : Json, k.Within sampleChoice → k.selectsNothing = false) ∧
      ¬sampleChoice.GivesName "" ∧
      (∃ r, sampleUser.selectJson sampleChoice = .ok r ∧ r.paths.Nodup ∧
        ["posts", "date"] ∈ r.paths ∧ ["posts", "title"] ∈ r.paths ∧
        ∃ b, r.at? ["posts", "date"] = some b ∧ b.Bare) ∧
      ∃ e, sampleUser.selectJson sampleMisuse = .error e ∧ e.kind = .invalidSubfield ∧
        e.context = some "true" := by
  have complete : ∀ k : Json, k.Within sampleChoice → k.selectsNothing = false := by
    have listed : ∀ k ∈ sampleChoice.preorder, k.selectsNothing = false := by decide
    exact fun k hk => listed k (Json.mem_preorder.mpr hk)
  have named : ¬sampleChoice.GivesName "" := by decide
  obtain ⟨-, -, taken⟩ := selectJson_selects_paths reachable_sampleUser sampleChoice
  obtain ⟨-, -, selects⟩ := taken complete
  obtain ⟨r, selected, -, once, listed, -, fresh⟩ := selects named
  have date : ["posts", "date"] ∈ r.paths := (listed _).mpr (.inr (by decide))
  have title : ["posts", "title"] ∈ r.paths := (listed _).mpr (.inl (by decide))
  obtain ⟨-, quoted, -⟩ := selectJson_selects_paths reachable_sampleUser sampleMisuse
  exact ⟨reachable_sampleUser, complete, named,
    ⟨r, selected, once, date, title, fresh _ date (by decide)⟩, quoted (.bool true) rfl⟩

end Field

end GraphQLDoc
