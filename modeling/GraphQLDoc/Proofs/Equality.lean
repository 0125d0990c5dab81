import GraphQLDoc.Proofs.Nearest
import GraphQLDoc.Proofs.Reachable

/-!
# Equality without order

Equality does not look at the order of arguments and of the entries of objects, and nothing that
holds NaN is equal to itself.

* `Value.equalEntries_iff`, `Field.equal_iff`: what the comparisons look at.
* `Value.equal_self`, `Field.equal_self`: what can be written is equal to itself.
* `Arguments.equal_iff`: maps are equal if they have equal values by key. `Arguments.equal_of_get?`:
  so maps that have the same values by key are equal.
-/

namespace GraphQLDoc

theorem Binary64.beq_self {x : Binary64} (h : x.isNaN = false) : (x == x) = true :=
  Binary64.beq_eq_true_iff.mpr ⟨h, h, .inl rfl⟩

/-! ## Values -/

namespace Value

variable {v : Value} {entries others : List (String × Value)} {items : List Value}

/-- A number is not NaN. -/
def Comparable : Value → Prop
  | number (.float x) => x.isNaN = false
  | _ => True

theorem Faultless.comparable (h : v.Faultless) : v.Comparable := by
  cases v with
  | number n =>
    cases n with
    | int n => trivial
    | float x => exact Binary64.isNaN_of_isFinite h
  | _ => trivial

theorem equalEntries_iff :
    equalEntries entries others = true ↔
      ∀ entry ∈ entries, ∃ w, Entries.get? others entry.1 = some w ∧ entry.2.equal w = true := by
  induction entries with
  | nil => simp [equalEntries]
  | cons entry rest ih =>
    obtain ⟨key, v⟩ := entry
    rw [equalEntries, Bool.and_eq_true, ih, List.forall_mem_cons]
    cases Entries.get? others key <;> simp

theorem equalItems_iff {others : List Value} :
    equalItems items others = true ↔ List.Forall₂ (fun v w => v.equal w = true) items others := by
  induction items generalizing others with
  | nil => cases others <;> simp [equalItems]
  | cons v vs ih => cases others <;> simp [equalItems, ih]

theorem equal_self (distinct : v.Everywhere KeysDistinct) (comparable : v.Everywhere Comparable) :
    v.equal v = true := by
  induction v using Value.induction with
  | step v ih =>
    have below : ∀ w ∈ v.children, w.equal w = true := fun w hw =>
      ih w hw (distinct.of_mem hw) (comparable.of_mem hw)
    cases v with
    | number n =>
      cases n with
      | int n => exact beq_self_eq_true n
      | float x => exact Binary64.beq_self comparable.here
    | list items => exact equalItems_iff.mpr (List.forall₂_same.mpr below)
    | object entries =>
      have found : ∀ entry ∈ entries,
          ∃ w, Entries.get? entries entry.1 = some w ∧ entry.2.equal w = true :=
        fun entry he => ⟨entry.2, Entries.get?_of_mem distinct.here he,
          below entry.2 (List.mem_map_of_mem he)⟩
      rw [equal, beq_self_eq_true, equalEntries_iff.mpr found, Bool.and_self]
    | string s => exact beq_self_eq_true s
    | boolean b => exact beq_self_eq_true b
    | instant t => exact beq_self_eq_true t
    | enum name => exact beq_self_eq_true name

end Value

/-! ## Arguments -/

namespace Entries

variable {α β : Type} {entries : Entries α} {others : Entries β}

/-- Maps that have values for the same keys list the same keys. -/
theorem perm_keys (distinct : entries.keys.Nodup) (distinct' : others.keys.Nodup)
    (same : ∀ key, entries.get? key = none ↔ others.get? key = none) :
    entries.keys.Perm others.keys := by
  refine (List.perm_ext_iff_of_nodup distinct distinct').mpr fun key => not_iff_not.mp ?_
  rw [← get?_eq_none_iff, ← get?_eq_none_iff, same]

end Entries

namespace Arguments

variable {args others : Arguments}

/-- Maps are equal if they have equal values under each key. The comparison looks at one side only,
but of two maps with as many entries neither has a key that the other one lacks. -/
theorem equal_iff (distinct : (Entries.keys args).Nodup)
    (distinct' : (Entries.keys others).Nodup) :
    args.equal others = true ↔ ∀ key, Option.Rel (fun v w => Value.equal v w = true)
      (Entries.get? args key) (Entries.get? others key) := by
  rw [equal, Bool.and_eq_true, beq_iff_eq, Value.equalEntries_iff]
  constructor
  · rintro ⟨lengths, found⟩ key
    cases h : Entries.get? args key with
    | some v =>
      obtain ⟨w, hw, same⟩ := found (key, v) (Entries.mem_of_get? h)
      dsimp only at hw
      rw [hw]
      exact .some same
    | none =>
      have listed : Entries.keys args ⊆ Entries.keys others := by
        intro k hk
        obtain ⟨entry, he, rfl⟩ := List.mem_map.mp hk
        obtain ⟨w, hw, -⟩ := found entry he
        exact Entries.mem_keys_of_get? hw
      have few : (Entries.keys others).length ≤ (Entries.keys args).length := by
        rw [Entries.keys, Entries.keys, List.length_map, List.length_map, lengths]
      have perm := (List.subperm_of_subset distinct listed).perm_of_length_le few
      have absent : key ∉ Entries.keys others := fun hk =>
        Entries.get?_eq_none_iff.mp h (perm.mem_iff.mpr hk)
      rw [Entries.get?_eq_none absent]
      exact .none
  · intro same
    have perm : (Entries.keys args).Perm (Entries.keys others) :=
      Entries.perm_keys distinct distinct' fun key => eq_none_iff_of_rel (same key)
    have lengths := perm.length_eq
    rw [Entries.keys, Entries.keys, List.length_map, List.length_map] at lengths
    refine ⟨lengths, fun entry he => ?_⟩
    have here := same entry.1
    rw [Entries.get?_of_mem distinct he] at here
    exact exists_of_rel_some here

theorem equal_of_get? (distinct : (Entries.keys args).Nodup)
    (distinct' : (Entries.keys others).Nodup)
    (same : ∀ key, Entries.get? args key = Entries.get? others key)
    (self : ∀ entry ∈ args, entry.2.equal entry.2 = true) : args.equal others = true := by
  refine (equal_iff distinct distinct').mpr fun key => ?_
  rw [← same key]
  cases found : Entries.get? args key with
  | none => exact .none
  | some v => exact .some (self (key, v) (Entries.mem_of_get? found))

end Arguments

/-! ## Fields -/

namespace Field

variable {f g : Field} {fields others : List Field}

theorem equal_iff :
    f.equal g = true ↔ f.name = g.name ∧ Arguments.equal f.arguments g.arguments = true ∧
      equalAll f.subfields g.subfields = true ∧ f.spreads = g.spreads := by
  cases f
  simp [equal, and_assoc]

theorem equalAll_iff :
    equalAll fields others = true ↔ List.Forall₂ (fun f g => f.equal g = true) fields others := by
  induction fields generalizing others with
  | nil => cases others <;> simp [equalAll]
  | cons f fs ih => cases others <;> simp [equalAll, ih]

theorem equalAll_self (h : ∀ f ∈ fields, f.equal f = true) : equalAll fields fields = true :=
  equalAll_iff.mpr (List.forall₂_same.mpr h)

theorem Sound.values_equal_self (h : f.Sound) :
    ∀ entry ∈ f.arguments, entry.2.equal entry.2 = true := by
  intro entry he
  have sound : entry.2.Everywhere Value.Sound := h.values entry.2 (List.mem_map_of_mem he)
  exact Value.equal_self (sound.imp fun _ => Value.Sound.keysDistinct)
    (sound.imp fun _ s => s.faultless.comparable)

theorem equal_self (hf : f.WellFormed) : f.equal f = true := by
  induction f using Field.induction with
  | step f ih =>
    have below : ∀ g ∈ f.subfields, g.equal g = true := fun g hg => ih g hg (hf.of_mem hg)
    have distinct := hf.here.arguments.distinct
    exact equal_iff.mpr ⟨rfl, Arguments.equal_of_get? distinct distinct (fun _ => rfl)
      hf.here.values_equal_self, equalAll_self below, rfl⟩

end Field

end GraphQLDoc
