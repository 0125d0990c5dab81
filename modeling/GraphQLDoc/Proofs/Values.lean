import GraphQLDoc.Proofs.Depth
import GraphQLDoc.Proofs.Entries
import GraphQLDoc.Proofs.Steps
import GraphQLDoc.Value.OfJson
import GraphQLDoc.Value.Validation

/-!
# Values that can be written

* `Value.ofItems_eq_mapM`, `Value.ofMembers_eq_map`: JSON values are converted one by one.
* `Value.KeysDistinct`: the entries of an object form a map. Values from JSON have this at every
  depth (`keysDistinct_ofJson`).
* `Value.Faultless`: a number is finite, and no entry of an object lacks a name. Validation finds no
  fault exactly if this holds at every depth (`firstFault_eq_none_iff`).
* `Value.Sound`: both.
-/

namespace GraphQLDoc

namespace Value

/-! ## Depth -/

section Depth

variable {p : Value → Prop}

theorem everywhere_of_no_children {v : Value} (h : v.children = []) :
    v.Everywhere p ↔ p v := GraphQLDoc.everywhere_of_no_children h

theorem everywhere_list {items : List Value} :
    (list items).Everywhere p ↔ p (list items) ∧ ∀ v ∈ items, v.Everywhere p := everywhere_iff

theorem everywhere_object {entries : List (String × Value)} :
    (object entries).Everywhere p ↔
      p (object entries) ∧ ∀ entry ∈ entries, entry.2.Everywhere p := by
  rw [Value.Everywhere, everywhere_iff, children, List.forall_mem_map]

end Depth

/-! ## Values from JSON -/

theorem ofItems_eq_mapM (items : List Json) : ofItems items = items.mapM ofJson := by
  induction items with
  | nil => rfl
  | cons j js ih => rw [ofItems, ih, List.mapM_cons]

/-- The members of an object are converted like the items of an array, and keep their keys. -/
theorem ofMembers_eq_map (members : List (String × Json)) :
    ofMembers members =
      (ofItems (members.map Prod.snd)).map fun values => (Entries.keys members).zip values := by
  induction members with
  | nil => rfl
  | cons member members ih =>
    obtain ⟨key, j⟩ := member
    rw [ofMembers, ih, List.map_cons, ofItems]
    cases ofJson j with
    | error e => rfl
    | ok v => cases ofItems (members.map Prod.snd) <;> rfl

/-- An object repeats no key. -/
def KeysDistinct : Value → Prop
  | object entries => (Entries.keys entries).Nodup
  | _ => True

/-- Members of one name become one entry. -/
theorem keysDistinct_ofJson {j : Json} {v : Value} (h : ofJson j = .ok v) :
    v.Everywhere KeysDistinct := by
  induction j using Json.induction generalizing v with
  | step j ih =>
    have below : ∀ {values}, ofItems j.children = .ok values →
        ∀ w ∈ values, w.Everywhere KeysDistinct := by
      intro values hv w hw
      rw [ofItems_eq_mapM] at hv
      obtain ⟨k, hk, hkw⟩ := mem_of_mapM hv hw
      exact ih k hk hkw
    cases j with
    | null => cases h
    | array items =>
      obtain ⟨values, hv, rfl⟩ := map_eq_ok.mp h
      exact everywhere_list.mpr ⟨trivial, below hv⟩
    | object members =>
      obtain ⟨entries, he, rfl⟩ := map_eq_ok.mp h
      rw [ofMembers_eq_map] at he
      obtain ⟨values, hv, rfl⟩ := map_eq_ok.mp he
      refine everywhere_object.mpr ⟨Entries.nodup_keys_ofList _, fun entry he => ?_⟩
      exact below hv entry.2 (List.of_mem_zip (Entries.mem_ofList he)).2
    | _ =>
      cases h
      exact (everywhere_of_no_children rfl).mpr trivial

/-! ## Validation -/

/-- A number is finite, and each entry of an object has a name. -/
def Faultless : Value → Prop
  | number n => n.isFinite = true
  | object entries => "" ∉ Entries.keys entries
  | _ => True

theorem firstItemFault_eq_none_iff {key : String} {items : List Value} :
    firstItemFault key items = none ↔ ∀ v ∈ items, v.firstFault key = none := by
  induction items with
  | nil => simp [firstItemFault]
  | cons v vs ih => simp [firstItemFault, ih]

theorem firstEntryFault_eq_none_iff {entries : List (String × Value)} :
    firstEntryFault entries = none ↔
      "" ∉ Entries.keys entries ∧ ∀ entry ∈ entries, entry.2.firstFault entry.1 = none := by
  induction entries with
  | nil => simp [firstEntryFault]
  | cons entry rest ih =>
    obtain ⟨key, v⟩ := entry
    by_cases hk : key = ""
    · simp [firstEntryFault, hk]
    · rw [firstEntryFault, if_neg hk, Option.or_eq_none_iff, ih, Entries.keys_cons,
        List.mem_cons, List.forall_mem_cons]
      grind

/-- The key only matters for the report. -/
theorem firstFault_eq_none_iff {key : String} {v : Value} :
    v.firstFault key = none ↔ v.Everywhere Faultless := by
  induction v using Value.induction generalizing key with
  | step v ih =>
    cases v with
    | number n =>
      rw [everywhere_of_no_children rfl, firstFault, Faultless]
      cases n.isFinite <;> simp
    | list items =>
      rw [everywhere_list, firstFault, firstItemFault_eq_none_iff]
      exact ⟨fun h => ⟨trivial, fun v hv => (ih v hv).mp (h v hv)⟩,
        fun h v hv => (ih v hv).mpr (h.2 v hv)⟩
    | object entries =>
      rw [everywhere_object, firstFault, firstEntryFault_eq_none_iff, Faultless]
      have child : ∀ entry ∈ entries, entry.2 ∈ (object entries).children :=
        fun entry he => List.mem_map_of_mem he
      exact and_congr_right fun _ =>
        ⟨fun h e he => (ih e.2 (child e he)).mp (h e he),
          fun h e he => (ih e.2 (child e he)).mpr (h e he)⟩
    | _ => exact ⟨fun _ => (everywhere_of_no_children rfl).mpr trivial, fun _ => rfl⟩

/-- Objects are maps, and nothing in the value lacks a literal. -/
structure Sound (v : Value) : Prop where
  keysDistinct : v.KeysDistinct
  faultless : v.Faultless

theorem everywhere_sound {v : Value} (distinct : v.Everywhere KeysDistinct)
    (faultless : v.Everywhere Faultless) : v.Everywhere Sound :=
  (distinct.and faultless).imp fun _ h => ⟨h.1, h.2⟩

end Value

namespace Arguments

theorem firstFault_eq_none_iff {args : Arguments} :
    firstFault args = none ↔
      "" ∉ Entries.keys args ∧ ∀ entry ∈ args, entry.2.Everywhere Value.Faultless := by
  simp only [firstFault, Value.firstEntryFault_eq_none_iff, Value.firstFault_eq_none_iff]

theorem keysDistinct_ofMembers {members : List (String × Json)} {args : Arguments}
    (h : ofMembers members = .ok args) :
    ∀ entry ∈ args, entry.2.Everywhere Value.KeysDistinct := by
  obtain ⟨entries, converted, rfl⟩ := map_eq_ok.mp h
  have object : Value.ofJson (.object (members.filter fun member => !member.2.isNull)) =
      .ok (.object (Entries.ofList entries)) := map_eq_ok.mpr ⟨entries, converted, rfl⟩
  exact (Value.everywhere_object.mp (Value.keysDistinct_ofJson object)).2

end Arguments

end GraphQLDoc
