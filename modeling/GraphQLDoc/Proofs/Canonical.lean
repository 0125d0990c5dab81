import GraphQLDoc.Proofs.Collapsing
import GraphQLDoc.Proofs.Equality
import GraphQLDoc.Proofs.Exact
import Mathlib.Data.List.Sort
import Mathlib.Data.String.Basic

/-!
# Canonical forms

The order of the entries of an object does not matter to equality, and neither does the sign of
zero. A canonical form settles both, so values without NaN are equal exactly if their canonical
forms are the same tree.

* `Entries.sorted`: the entries of a map in the order of their keys. Maps with the same values by
  key are sorted into the same list (`sorted_eq_iff`).
* `Value.arranged`: a value with the entries of all its objects sorted, and with its numbers changed
  by a step. `Value.sorted` leaves numbers as they are, `Value.canonical` drops the sign of zero.
* `Value.equal_iff_sameForm`: equality in terms of canonical forms.
* `Value.SameForm.text_sorted`: values of one form are written alike once they are sorted.
* `Value.beq_iff_canonical`: what this makes of equality.
-/

namespace GraphQLDoc

/-! ## Maps in the order of their keys -/

namespace Entries

variable {α β : Type} {entries others : Entries α}

/-- The entries in the order of their keys. -/
def sorted (entries : Entries α) : Entries α := List.mergeSort entries fun a b => a.1 ≤ b.1

theorem perm_sorted (entries : Entries α) : (sorted entries).Perm entries :=
  List.mergeSort_perm entries _

theorem keys_sorted (entries : Entries α) :
    (sorted entries).keys = entries.keys.mergeSort fun a b => a ≤ b :=
  List.map_mergeSort fun _ _ _ _ => rfl

theorem sorted_pair {a b : String} (h : a ≤ b) (v w : α) :
    sorted [(a, v), (b, w)] = [(a, v), (b, w)] :=
  List.mergeSort_of_pairwise (by simpa using h)

theorem get?_sorted (distinct : entries.keys.Nodup) (key : String) :
    (sorted entries).get? key = entries.get? key :=
  (get?_perm distinct (perm_sorted entries).symm key).symm

/-- Changing values without changing keys leaves the order as it is. -/
theorem sorted_map (entries : Entries α) (step : α → β) :
    sorted (entries.map fun entry => (entry.1, step entry.2)) =
      (sorted entries).map fun entry => (entry.1, step entry.2) :=
  (List.map_mergeSort (f := fun entry : String × α => (entry.1, step entry.2))
    fun _ _ _ _ => rfl).symm

theorem sorted_eq_iff (distinct : entries.keys.Nodup) (distinct' : others.keys.Nodup) :
    sorted entries = sorted others ↔ ∀ key, entries.get? key = others.get? key := by
  constructor
  · intro same key
    rw [← get?_sorted distinct, ← get?_sorted distinct', same]
  · intro same
    have perm : entries.keys.Perm others.keys :=
      perm_keys distinct distinct' fun key => by rw [same key]
    have sameKeys : (sorted entries).keys = (sorted others).keys := by
      have reordered : (sorted entries).keys.Perm (sorted others).keys :=
        ((perm_sorted entries).map _).trans (perm.trans ((perm_sorted others).map _).symm)
      rw [keys_sorted, keys_sorted] at reordered ⊢
      exact reordered.eq_of_sortedLE List.sortedLE_mergeSort List.sortedLE_mergeSort
    refine eq_of_get? ?_ sameKeys fun key => ?_
    · exact ((perm_sorted entries).map Prod.fst).nodup_iff.mpr distinct
    · rw [get?_sorted distinct, get?_sorted distinct', same]

/-- What holds of all values of a map, by key and by entry. -/
theorem forall_get?_iff {p : α → Prop} (distinct : entries.keys.Nodup) :
    (∀ key, ∀ v ∈ entries.get? key, p v) ↔ ∀ entry ∈ entries, p entry.2 := by
  constructor
  · exact fun h entry he => h entry.1 entry.2 (get?_of_mem distinct he)
  · exact fun h key v hv => h (key, v) (mem_of_get? hv)

end Entries

/-! ## Zero without a sign -/

/-- Negative zero becomes zero. All other numbers stay as they are. -/
def Binary64.unsigned (x : Binary64) : Binary64 := if x.isZero then ⟨0⟩ else x

theorem Binary64.unsigned_eq_iff {x y : Binary64} :
    x.unsigned = y.unsigned ↔ x = y ∨ x.isZero = true ∧ y.isZero = true := by
  have zero : isZero ⟨0⟩ = true := rfl
  unfold unsigned
  split <;> split <;> grind

/-- Negative zero becomes zero. All other numbers stay as they are. -/
def Number.unsigned : Number → Number
  | .int n => .int n
  | .float x => .float x.unsigned

/-- Both zeros are written without a sign. -/
theorem Number.chars_unsigned (n : Number) : n.unsigned.chars = n.chars := by
  cases n with
  | int n => rfl
  | float x =>
    rw [unsigned, Binary64.unsigned]
    split
    · next zero => exact (chars_of_isZero (Binary64.isFinite_of_isZero zero) zero).symm
    · rfl

namespace Value

variable {v w a b c : Value}

mutual

/-- The value with the entries of all objects sorted by key, at every depth, and with a step taken
on every number. -/
def arranged (step : Number → Number) : Value → Value
  | .string s => .string s
  | .number n => .number (step n)
  | .boolean b => .boolean b
  | .instant t => .instant t
  | .enum name => .enum name
  | .list items => .list (arrangedItems step items)
  | .object entries => .object (Entries.sorted (arrangedEntries step entries))

def arrangedItems (step : Number → Number) : List Value → List Value
  | [] => []
  | v :: vs => v.arranged step :: arrangedItems step vs

def arrangedEntries (step : Number → Number) : List (String × Value) → List (String × Value)
  | [] => []
  | (key, v) :: rest => (key, v.arranged step) :: arrangedEntries step rest

end

/-- The value with the entries of all objects sorted by key, at every depth. -/
def sorted (v : Value) : Value := v.arranged id

/-- The value with the entries of all objects sorted by key, at every depth, and with zero in place
of negative zero. -/
def canonical (v : Value) : Value := v.arranged Number.unsigned

theorem arrangedItems_eq_map (step : Number → Number) (items : List Value) :
    arrangedItems step items = items.map (arranged step) := by
  induction items with
  | nil => rfl
  | cons v vs ih => rw [arrangedItems, ih, List.map_cons]

theorem arrangedEntries_eq_map (step : Number → Number) (entries : List (String × Value)) :
    arrangedEntries step entries = entries.map fun entry => (entry.1, entry.2.arranged step) := by
  induction entries with
  | nil => rfl
  | cons entry rest ih => rw [arrangedEntries, ih, List.map_cons]

/-! ## Equality and canonical forms -/

/-- Neither value holds NaN, and their canonical forms are the same. -/
def SameForm (v w : Value) : Prop :=
  v.Everywhere Comparable ∧ w.Everywhere Comparable ∧ v.canonical = w.canonical

theorem sameForm_of_no_children (hv : v.children = []) (hw : w.children = []) :
    v.SameForm w ↔ v.Comparable ∧ w.Comparable ∧ v.canonical = w.canonical :=
  and_congr (everywhere_of_no_children hv) (and_congr_left' (everywhere_of_no_children hw))

theorem sameForm_number_iff {m n : Number} : (number m).SameForm (number n) ↔ (m == n) = true := by
  rw [sameForm_of_no_children rfl rfl]
  cases m with
  | int m =>
    cases n with
    | int n =>
      have same : (Number.int m == Number.int n) = (m == n) := rfl
      rw [same, beq_iff_eq]
      simp [Comparable, canonical, arranged, Number.unsigned]
    | float y => exact iff_of_false (fun h => nomatch h.2.2) nofun
  | float x =>
    cases n with
    | int n => exact iff_of_false (fun h => nomatch h.2.2) nofun
    | float y =>
      have same : (Number.float x == Number.float y) = (x == y) := rfl
      rw [same, Binary64.beq_eq_true_iff, ← Binary64.unsigned_eq_iff]
      simp [Comparable, canonical, arranged, Number.unsigned]

/-- Lists have one form if their items have, one by one. -/
theorem sameForm_list_iff {items others : List Value} :
    (list items).SameForm (list others) ↔ List.Forall₂ SameForm items others := by
  have items_iff := forall₂_iff_map_eq (p := Everywhere Comparable) (f := Value.canonical)
    (l := items) (m := others)
  rw [SameForm, everywhere_list, everywhere_list, Value.canonical, Value.canonical, arranged,
    arranged, arrangedItems_eq_map, arrangedItems_eq_map, list.injEq]
  simp only [Comparable, true_and]
  exact items_iff.symm

/-- Objects have one form if they have values of one form under each key. -/
theorem sameForm_object_iff {entries others : Entries Value} (distinct : entries.keys.Nodup)
    (distinct' : others.keys.Nodup) :
    (object entries).SameForm (object others) ↔
      ∀ key, Option.Rel SameForm (entries.get? key) (others.get? key) := by
  have forms : (object entries).canonical = (object others).canonical ↔
      ∀ key, (entries.get? key).map Value.canonical = (others.get? key).map Value.canonical := by
    have kept : ∀ entries : Entries Value, entries.keys.Nodup →
        (Entries.keys (entries.map fun entry => (entry.1, entry.2.canonical))).Nodup := by
      intro entries distinct
      rwa [Entries.keys, List.map_map]
    have lists := Entries.sorted_eq_iff (kept entries distinct) (kept others distinct')
    simp only [Entries.get?_map] at lists
    rw [Value.canonical, Value.canonical, arranged, arranged, arrangedEntries_eq_map,
      arrangedEntries_eq_map, object.injEq]
    exact lists
  have found : (∀ key, Option.Rel SameForm (entries.get? key) (others.get? key)) ↔
      (∀ key, ∀ v ∈ entries.get? key, v.Everywhere Comparable) ∧
        (∀ key, ∀ w ∈ others.get? key, w.Everywhere Comparable) ∧
        ∀ key, (entries.get? key).map Value.canonical = (others.get? key).map Value.canonical := by
    rw [← forall_and, ← forall_and]
    exact forall_congr' fun key => rel_iff_map_eq
  rw [found, Entries.forall_get?_iff distinct, Entries.forall_get?_iff distinct', SameForm, forms,
    everywhere_object, everywhere_object]
  simp only [Comparable, true_and]

theorem equal_iff_sameForm (ha : a.Everywhere KeysDistinct) (hb : b.Everywhere KeysDistinct) :
    a.equal b = true ↔ a.SameForm b := by
  induction a using Value.induction generalizing b with
  | step a ih =>
    cases a with
    | list items =>
      cases b with
      | list others =>
        rw [equal, equalItems_iff, sameForm_list_iff]
        exact forall₂_congr_of_mem fun v hv w hw => ih v hv (ha.of_mem hv) (hb.of_mem hw)
      | _ => simp [equal, SameForm, canonical, arranged]
    | object entries =>
      cases b with
      | object others =>
        have whole : (object entries).equal (object others) = Arguments.equal entries others := rfl
        rw [whole, Arguments.equal_iff ha.here hb.here, sameForm_object_iff ha.here hb.here]
        refine forall_congr' fun key => rel_congr_of_mem fun v hv w hw => ?_
        have inside : v ∈ (object entries).children := List.mem_map_of_mem (Entries.mem_of_get? hv)
        have inside' : w ∈ (object others).children := List.mem_map_of_mem (Entries.mem_of_get? hw)
        exact ih v inside (ha.of_mem inside) (hb.of_mem inside')
      | _ => simp [equal, SameForm, canonical, arranged]
    | number m =>
      cases b with
      | number n => exact sameForm_number_iff.symm
      | _ => simp [equal, SameForm, canonical, arranged]
    | _ =>
      cases b <;> first
        | rw [sameForm_of_no_children rfl rfl]; simp [equal, canonical, arranged, Comparable]
        | simp [equal, SameForm, canonical, arranged]

/-! ## Texts of arranged values -/

/-- The text of an arranged value depends on the step by way of the texts of numbers only. -/
theorem chars_arranged_congr {step other : Number → Number}
    (same : ∀ n, (step n).chars = (other n).chars) (v : Value) :
    (v.arranged step).chars = (v.arranged other).chars := by
  induction v using Value.induction with
  | step v ih =>
    cases v with
    | number n => exact same n
    | list items =>
      have texts : (items.map (arranged step)).map chars =
          (items.map (arranged other)).map chars := by
        rw [List.map_map, List.map_map]
        exact List.map_congr_left ih
      rw [arranged, arranged, arrangedItems_eq_map, arrangedItems_eq_map, chars_list, chars_list,
        texts]
    | object entries =>
      have texts : ((Entries.sorted entries).map fun entry => (entry.1, entry.2.arranged step)).map
            (fun entry => entry.1.toList ++ ':' :: entry.2.chars) =
          ((Entries.sorted entries).map fun entry => (entry.1, entry.2.arranged other)).map
            fun entry => entry.1.toList ++ ':' :: entry.2.chars := by
        rw [List.map_map, List.map_map]
        refine List.map_congr_left fun entry he => ?_
        have inside : entry ∈ entries := (Entries.perm_sorted entries).subset he
        exact congrArg (fun literal => entry.1.toList ++ ':' :: literal)
          (ih entry.2 (List.mem_map_of_mem inside))
      rw [arranged, arranged, arrangedEntries_eq_map, arrangedEntries_eq_map, Entries.sorted_map,
        Entries.sorted_map, chars_object, chars_object, texts]
    | _ => rfl

theorem SameForm.text_sorted (h : a.SameForm b) : a.sorted.text = b.sorted.text := by
  have unsigned : ∀ v : Value, v.canonical.chars = v.sorted.chars :=
    chars_arranged_congr Number.chars_unsigned
  rw [text, text, ← unsigned, ← unsigned, h.2.2]

/-- Values whose objects are maps are equal exactly if neither holds NaN at any depth and they have
the same canonical form, with the entries of objects in the order of their keys and without negative
zeros. So equality is symmetric and transitive, a value is equal to itself exactly if it does not
hold NaN, and equal values are written alike once the entries of their objects are sorted. -/
theorem beq_iff_canonical (ha : a.Everywhere KeysDistinct) (hb : b.Everywhere KeysDistinct) :
    ((a == b) = true ↔
      a.Everywhere Comparable ∧ b.Everywhere Comparable ∧ a.canonical = b.canonical) ∧
    ((a == b) = true ↔ (b == a) = true) ∧
    (∀ c : Value, c.Everywhere KeysDistinct → (a == b) = true → (b == c) = true →
      (a == c) = true) ∧
    ((a == a) = true ↔ a.Everywhere Comparable) ∧
    ((a == b) = true → a.sorted.text = b.sorted.text) := by
  have forms : ∀ {v w : Value}, v.Everywhere KeysDistinct → w.Everywhere KeysDistinct →
      ((v == w) = true ↔ v.SameForm w) := equal_iff_sameForm
  refine ⟨forms ha hb, ?_, fun c hc => ?_, ?_, fun h => ((forms ha hb).mp h).text_sorted⟩
  · rw [forms ha hb, forms hb ha]
    exact ⟨fun ⟨l, r, e⟩ => ⟨r, l, e.symm⟩, fun ⟨l, r, e⟩ => ⟨r, l, e.symm⟩⟩
  · rw [forms ha hb, forms hb hc, forms ha hc]
    exact fun ⟨first, _, e⟩ ⟨_, last, e'⟩ => ⟨first, last, e.trans e'⟩
  · rw [forms ha ha]
    exact ⟨fun h => h.1, fun h => ⟨h, h, rfl⟩⟩

/-- The object `{where:{b:1,a:true},at:[-0.0]}`. -/
def sampleTurned : Value :=
  .object [("where", .object [("b", .number (.int 1)), ("a", .boolean true)]),
    ("at", .list [.number (.float ⟨0x8000000000000000⟩)])]

/-- The object `{at:[0.0],where:{a:true,b:1}}`. -/
def sampleUpright : Value :=
  .object [("at", .list [.number (.float ⟨0⟩)]),
    ("where", .object [("a", .boolean true), ("b", .number (.int 1))])]

theorem sorted_sampleUpright : sampleUpright.sorted = sampleUpright := by
  have inner : "a" ≤ "b" := by decide
  have outer : "at" ≤ "where" := by decide
  simp only [sampleUpright, Value.sorted, arranged, arrangedEntries_eq_map, arrangedItems_eq_map,
    List.map_cons, List.map_nil, Entries.sorted_pair inner, Entries.sorted_pair outer, id_eq]

theorem beq_iff_canonical_samples :
    sampleTurned.Everywhere KeysDistinct ∧ sampleUpright.Everywhere KeysDistinct ∧
      (sampleTurned == sampleUpright) = true ∧ sampleTurned.canonical = sampleUpright.canonical ∧
      sampleTurned.sorted.text = "{at:[0],where:{a:true,b:1}}" ∧
      ¬(number (.float .nan) == number (.float .nan)) = true := by
  let one : Json := .number (.int 1 (by decide))
  have turned : sampleTurned.Everywhere KeysDistinct :=
    keysDistinct_ofJson (j := .object [("where", .object [("b", one), ("a", .bool true)]),
      ("at", .array [.number (.float ⟨0x8000000000000000⟩ rfl)])]) rfl
  have upright : sampleUpright.Everywhere KeysDistinct :=
    keysDistinct_ofJson (j := .object [("at", .array [.number (.float ⟨0⟩ rfl)]),
      ("where", .object [("a", .bool true), ("b", one)])]) rfl
  have equal : (sampleTurned == sampleUpright) = true := rfl
  obtain ⟨forms, -, -, -, texts⟩ := beq_iff_canonical turned upright
  have nan : (number (.float .nan)).Everywhere KeysDistinct :=
    (everywhere_of_no_children rfl).mpr trivial
  obtain ⟨-, -, -, self, -⟩ := beq_iff_canonical nan nan
  refine ⟨turned, upright, equal, (forms.mp equal).2.2, (texts equal).trans ?_, fun same => ?_⟩
  · rw [sorted_sampleUpright]
    rfl
  · exact absurd (self.mp same).here (show ¬Binary64.nan.isNaN = false by decide)

end Value

end GraphQLDoc
