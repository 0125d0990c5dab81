import GraphQLDoc.Proofs.Collapsing
import GraphQLDoc.Proofs.Patch

/-!
# Spreading fragments by name

Names are checked and added one by one, and the first text that is no name ends the step. In effect
all names are checked, and then the field has its own names and the new ones, each once.

* `FirstLacking`: the first item of a list without a property.
* `NameText`: the texts that are names, character by character.
* `Field.spread_append`: two steps are one step with both lists.
* `Field.spread_decides`: the outcome for a list of names. `Field.namesOfItems_decides`: the names
  that JSON items give, which are read before any of them is checked.
* `Field.spread_law`: all of this, for fields that can be built.
-/

namespace GraphQLDoc

/-! ## The first item without a property -/

/-- The first item of the list that does not have the property. -/
def FirstLacking {α : Type} (p : α → Prop) (l : List α) (a : α) : Prop :=
  ∃ before after, l = before ++ a :: after ∧ (∀ x ∈ before, p x) ∧ ¬p a

theorem forall_or_firstLacking {α : Type} (p : α → Prop) (l : List α) :
    (∀ x ∈ l, p x) ∨ ∃ a, FirstLacking p l a := by
  induction l with
  | nil => exact .inl (List.forall_mem_nil p)
  | cons x xs ih =>
    by_cases here : p x
    · refine ih.imp (fun all => List.forall_mem_cons.mpr ⟨here, all⟩) ?_
      rintro ⟨a, before, after, rfl, valid, lacking⟩
      exact ⟨a, x :: before, after, rfl, List.forall_mem_cons.mpr ⟨here, valid⟩, lacking⟩
    · exact .inr ⟨x, [], xs, rfl, List.forall_mem_nil p, here⟩

/-! ## Names -/

/-- The text matches `[_A-Za-z][_0-9A-Za-z]*`. -/
def NameText (text : String) : Prop :=
  ∃ c cs, text.toList = c :: cs ∧ (c = '_' ∨ ('A' ≤ c ∧ c ≤ 'Z') ∨ ('a' ≤ c ∧ c ≤ 'z')) ∧
    ∀ d ∈ cs, d = '_' ∨ ('0' ≤ d ∧ d ≤ '9') ∨ ('A' ≤ d ∧ d ≤ 'Z') ∨ ('a' ≤ d ∧ d ≤ 'z')

theorem isName_iff_nameText {text : String} : isName text = true ↔ NameText text := by
  simp only [isName_iff, isNameStart_iff, isNameRest_iff, NameText]

/-- Names that do not repeat come first, so they are the first occurrences. -/
theorem addNames_eq_eraseDups_append {names : List String} (h : names.Nodup)
    (more : List String) : addNames names more = (names ++ more).eraseDups := by
  have own : addNames [] names = names := by
    rw [addNames_eq_append_filter [] h]
    simp
  have whole : addNames [] (names ++ more) = (names ++ more).eraseDups := by
    rw [addNames_eq_eraseDups]
    simp
  rw [← whole, addNames_append, own]

namespace Field

variable {f : Field}

/-! ## Two steps -/

theorem spreadNames_append (names a b : List String) :
    spreadNames names (a ++ b) = spreadNames names a >>= fun spreads => spreadNames spreads b := by
  induction a generalizing names with
  | nil => rfl
  | cons name a ih =>
    rw [List.cons_append, spreadNames, spreadNames]
    split
    · exact ih (addName names name)
    · rfl

/-- A second step goes on where the first one has ended. -/
theorem spread_append (f : Field) (a b : List String) :
    (f.spread a >>= fun g => g.spread b) = f.spread (a ++ b) := by
  rw [spread, spread, spreadNames_append]
  cases spreadNames f.spreads a <;> rfl

/-! ## Outcomes -/

/-- Fragments that are spread already are not spread again. -/
theorem spread_of_listed {again : List String} (valid : ∀ n ∈ f.spreads, isName n = true)
    (listed : ∀ n ∈ again, n ∈ f.spreads) : f.spread again = .ok f := by
  cases f
  refine spread_eq_ok_iff.mpr ⟨fun n hn => valid n (listed n hn), ?_⟩
  rw [addNames_of_subset listed]

/-- The error is about the first text that is no name, and shows it. -/
def ReportsName (names : List String) (e : Error) : Prop :=
  ∃ n, FirstLacking NameText names n ∧ e = .invalidFragmentName n ∧ e.context = some n

theorem spread_of_invalid {n : String} {before after : List String}
    (valid : ∀ m ∈ before, isName m = true) (invalid : isName n = false) :
    f.spread (before ++ n :: after) = .error (.invalidFragmentName n) := by
  have first : f.spread before = .ok { f with spreads := addNames f.spreads before } :=
    spread_eq_ok_iff.mpr ⟨valid, rfl⟩
  rw [← spread_append, first]
  show spread _ (n :: after) = _
  rw [spread, spreadNames, if_neg (by simp [invalid])]
  rfl

theorem spread_decides (distinct : f.spreads.Nodup) (names : List String) :
    Decides (f.spread names)
      (fun g => (∀ n ∈ names, NameText n) ∧
        g = { f with spreads := (f.spreads ++ names).eraseDups })
      (ReportsName names) := by
  rw [← addNames_eq_eraseDups_append distinct]
  refine .of_total ?_ ?_ ?_
  · rintro g ⟨valid, rfl⟩
    exact spread_eq_ok_iff.mpr ⟨fun n hn => isName_iff_nameText.mpr (valid n hn), rfl⟩
  · rintro _ ⟨n, ⟨before, after, rfl, valid, invalid⟩, rfl, -⟩
    rw [← isName_iff_nameText, Bool.not_eq_true] at invalid
    exact spread_of_invalid (fun m hm => isName_iff_nameText.mpr (valid m hm)) invalid
  · exact (forall_or_firstLacking NameText names).imp (fun valid => ⟨_, valid, rfl⟩)
      fun ⟨n, first⟩ => ⟨_, n, first, rfl, rfl⟩

/-! ## Names from JSON -/

/-- The error is about the first item that is no string, and shows it. -/
def ReportsItem (items : List Json) (e : Error) : Prop :=
  ∃ j, FirstLacking (fun j => ∃ n, j = .string n) items j ∧ e = .fragmentNameNotString j ∧
    e.context = some j.text

theorem exists_map_string {items : List Json} (h : ∀ j ∈ items, ∃ n, j = .string n) :
    ∃ names : List String, items = names.map .string := by
  obtain ⟨names, pairs⟩ := exists_forall₂_iff.mpr h
  refine ⟨names, ?_⟩
  rw [← List.forall₂_eq_eq_eq, List.forall₂_map_right_iff]
  exact pairs

theorem namesOfItems_map (names : List String) (items : List Json) :
    namesOfItems (names.map .string ++ items) = (namesOfItems items).map (names ++ ·) := by
  induction names with
  | nil =>
    rw [List.map_nil, List.nil_append]
    cases namesOfItems items <;> rfl
  | cons n names ih =>
    rw [List.map_cons, List.cons_append, namesOfItems, ih]
    cases namesOfItems items <;> rfl

theorem namesOfItems_decides (items : List Json) :
    Decides (namesOfItems items) (fun names => items = names.map .string) (ReportsItem items) := by
  refine .of_total ?_ ?_ ?_
  · rintro names rfl
    have all := namesOfItems_map names []
    rwa [List.append_nil, namesOfItems, Except.map, List.append_nil] at all
  · rintro _ ⟨j, ⟨before, after, rfl, strings, other⟩, rfl, -⟩
    obtain ⟨names, rfl⟩ := exists_map_string strings
    have stops : namesOfItems (j :: after) = .error (.fragmentNameNotString j) := by
      cases j with
      | string n => exact absurd ⟨n, rfl⟩ other
      | _ => rfl
    rw [namesOfItems_map, stops]
    rfl
  · exact (forall_or_firstLacking _ items).imp exists_map_string
      fun ⟨j, first⟩ => ⟨_, j, first, rfl, rfl⟩

/-! ## The law -/

/-- Fragments are spread exactly if all texts are names. The field then has its own fragments and
the new ones, without those that have come before, and nothing else has changed. Otherwise the first
text that is no name is reported. Spreading fragments in two steps is spreading them in one, and
fragments that are spread already change nothing.

The items of a JSON array are all read before the names are looked at. So an item that is no string
is reported even if there is a text before it that is no name. -/
theorem spread_law (hf : f.Reachable) :
    (∀ names, Decides (f.spread names)
      (fun g => (∀ n ∈ names, NameText n) ∧
        g = { f with spreads := (f.spreads ++ names).eraseDups })
      (ReportsName names)) ∧
    (∀ a b, (f.spread a >>= fun g => g.spread b) = f.spread (a ++ b)) ∧
    (∀ again, (∀ n ∈ again, n ∈ f.spreads) → f.spread again = .ok f) ∧
    ∀ items, Decides (f.spreadJson (.array items))
      (fun g => ∃ names : List String, items = names.map .string ∧ (∀ n ∈ names, NameText n) ∧
        g = { f with spreads := (f.spreads ++ names).eraseDups })
      fun e => ReportsItem items e ∨
        ∃ names : List String, items = names.map .string ∧ ReportsName names e := by
  have sound := hf.wellFormed.here
  exact ⟨spread_decides sound.spreads, spread_append f,
    fun again listed => spread_of_listed sound.spreadNames listed, fun items =>
      (namesOfItems_decides items).bind fun names _ => spread_decides sound.spreads names⟩

theorem spread_law_sampleUser :
    sampleUser.Reachable ∧
      sampleUser.spread ["More", "Info", "_x1", "More"] =
        .ok { sampleUser with spreads := ["Info", "More", "_x1"] } ∧
      sampleUser.spread ["More", "1x", ""] = .error (.invalidFragmentName "1x") ∧
      (sampleUser.spread ["More"] >>= fun g => g.spread ["", "Info"]) =
        .error (.invalidFragmentName "") ∧
      sampleUser.spread ["Info", "Info"] = .ok sampleUser ∧
      ∃ e, sampleUser.spreadJson (.array [.string "1x", .bool true, .null]) = .error e ∧
        e = .fragmentNameNotString (.bool true) ∧ e.context = some "true" := by
  obtain ⟨one, two, again, items⟩ := spread_law reachable_sampleUser
  have name : ∀ {n : String}, isName n = true → NameText n := isName_iff_nameText.mp
  have none : ∀ {n : String}, isName n = false → ¬NameText n := fun invalid valid =>
    Bool.false_ne_true (invalid.symm.trans (isName_iff_nameText.mpr valid))
  have valid : ∀ n ∈ ["More", "Info", "_x1", "More"], NameText n := fun n hn =>
    name ((by decide : ∀ n ∈ ["More", "Info", "_x1", "More"], isName n = true) n hn)
  have digit : FirstLacking NameText ["More", "1x", ""] "1x" :=
    ⟨["More"], [""], rfl, List.forall_mem_singleton.mpr (name rfl), none rfl⟩
  have empty : FirstLacking NameText ["More", "", "Info"] "" :=
    ⟨["More"], ["Info"], rfl, List.forall_mem_singleton.mpr (name rfl), none rfl⟩
  have other : FirstLacking (fun j => ∃ n, j = Json.string n) [.string "1x", .bool true, .null]
      (.bool true) :=
    ⟨[.string "1x"], [.null], rfl, List.forall_mem_singleton.mpr ⟨_, rfl⟩, fun ⟨_, h⟩ => nomatch h⟩
  refine ⟨reachable_sampleUser, ((one _).ok _).mpr ⟨valid, rfl⟩,
    ((one _).error _).mpr ⟨_, digit, rfl, rfl⟩, ?_, again _ ?_,
    _, ((items _).error _).mpr (.inl ⟨_, other, rfl, rfl⟩), rfl, rfl⟩
  · rw [two]
    exact ((one _).error _).mpr ⟨_, empty, rfl, rfl⟩
  · exact List.forall_mem_cons.mpr ⟨List.mem_cons_self,
      List.forall_mem_singleton.mpr List.mem_cons_self⟩

end Field

end GraphQLDoc
