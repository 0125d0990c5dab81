import GraphQLDoc.Proofs.Grouping
import Mathlib.Data.List.Dedup

/-!
# Selections with repetitions

A selection may name one field many times, directly, in nested lists and among built fields. Each
time the field is merged onto what stands under its name, and moves to the end once more.

* `Field.mergeAll`: several fields merged into one, from the left.
* `Field.names_joinAll_dedup`, `Field.lookup_joinAll_mergeAll`: the order of the siblings and the
  field of each name, after any fields have been added.
* `Selection.givenNames`, `Selection.denoted`: the names that a selection gives, and the flat list
  of its fields. `Selection.fields_eq`: it stands for these fields if no name is empty.
* `Field.select_siblings`: what selecting does to the subfields of a field, and when it fails.
-/

namespace GraphQLDoc

namespace Field

/-! ## Siblings -/

/-- The fields merged into one, from the left. Without fields there is none. -/
def mergeAll : List Field → Option Field
  | [] => none
  | f :: fs => some (fs.foldl merge f)

variable {siblings : List Field}

theorem names_joinAll_dedup (distinct : (names siblings).Nodup) (fields : List Field) :
    names (joinAll siblings fields) =
      (names siblings).filter (· ∉ names fields) ++ (names fields).dedup := by
  induction fields generalizing siblings with
  | nil => simp [joinAll]
  | cons g gs ih =>
    rw [joinAll_cons, ih (nodup_names_join distinct g), names_join distinct, List.filter_append,
      List.filter_filter, names_cons]
    have kept : ∀ n, (decide (n ∉ names gs) && decide (n ≠ g.name)) =
        decide (n ∉ g.name :: names gs) := by
      intro n
      simp [not_or, Bool.and_comm]
    simp only [kept]
    by_cases again : g.name ∈ names gs
    · -- `g` moves on to where its name comes last.
      rw [List.dedup_cons_of_mem again, List.filter_cons_of_neg (by simpa using again),
        List.filter_nil, List.append_nil]
    · rw [List.dedup_cons_of_notMem again, List.filter_cons_of_pos (by simpa using again),
        List.filter_nil, List.append_assoc, List.singleton_append]

theorem mergeAll_mergeInto (g : Field) (gs : List Field) :
    mergeAll (mergeInto siblings g :: gs) =
      mergeAll ((lookup siblings g.name).toList ++ g :: gs) := by
  unfold mergeInto
  cases lookup siblings g.name <;> rfl

theorem lookup_joinAll_mergeAll (distinct : (names siblings).Nodup) (fields : List Field)
    (name : String) :
    lookup (joinAll siblings fields) name =
      mergeAll ((lookup siblings name).toList ++ fields.filter fun g => g.name = name) := by
  induction fields generalizing siblings with
  | nil => cases h : lookup siblings name <;> simp [joinAll, h, mergeAll]
  | cons g gs ih =>
    rw [joinAll_cons, ih (nodup_names_join distinct g), lookup_join distinct]
    by_cases same : g.name = name
    · subst same
      rw [if_pos rfl, List.filter_cons_of_pos (by simp), ← mergeAll_mergeInto]
      rfl
    · rw [if_neg same, List.filter_cons_of_neg (by simpa using same)]

end Field

/-! ## What a selection denotes -/

namespace Selection

mutual

/-- The names that the selection gives, at any depth but outside of built fields. -/
def givenNames : Selection → List String
  | .leaf n => [n]
  | .several items => givenNamesOfItems items
  | .under n below => n :: givenNames below
  | .built _ => []

/-- The names that several selections give. -/
def givenNamesOfItems : List Selection → List String
  | [] => []
  | s :: rest => givenNames s ++ givenNamesOfItems rest

end

mutual

/-- The flat list of the fields that the selection denotes, whatever their names are. -/
def denoted : Selection → List Field
  | .leaf n => [Field.leaf n]
  | .several items => denotedByItems items
  | .under n below => [Field.nested n (denoted below)]
  | .built f => [f]

/-- The fields that several selections denote, one after the other. -/
def denotedByItems : List Selection → List Field
  | [] => []
  | s :: rest => denoted s ++ denotedByItems rest

end

mutual

/-- A selection stands for the fields that it denotes, unless it gives an empty name. -/
theorem fields_eq : ∀ s : Selection,
    s.fields = if "" ∈ s.givenNames then .error .unnamedField else .ok s.denoted
  | .leaf n => by
    rw [fields, givenNames, denoted, Field.named]
    by_cases empty : n = ""
    · rw [if_pos empty, if_pos (by simp [empty])]
      rfl
    · rw [if_neg empty, if_neg (by simpa using Ne.symm empty)]
      rfl
  | .several items => itemFields_eq items
  | .under n below => by
    have given : "" ∈ n :: below.givenNames ↔ n = "" ∨ "" ∈ below.givenNames := by
      simp [eq_comm]
    rw [fields, givenNames, denoted, Field.named, fields_eq below]
    simp only [given]
    by_cases empty : n = ""
    · simp only [empty, if_true, true_or]
      rfl
    · simp only [empty, if_false, false_or]
      by_cases deeper : "" ∈ below.givenNames
      · simp only [deeper, if_true]
        rfl
      · simp only [deeper, if_false]
        rfl
  | .built f => (if_neg List.not_mem_nil).symm

theorem itemFields_eq : ∀ items : List Selection,
    itemFields items =
      if "" ∈ givenNamesOfItems items then .error .unnamedField else .ok (denotedByItems items)
  | [] => (if_neg List.not_mem_nil).symm
  | s :: rest => by
    rw [itemFields, givenNamesOfItems, denotedByItems, fields_eq s, itemFields_eq rest]
    simp only [List.mem_append]
    by_cases first : "" ∈ s.givenNames
    · simp only [first, if_true, true_or]
      rfl
    · simp only [first, if_false, false_or]
      by_cases later : "" ∈ givenNamesOfItems rest
      · simp only [later, if_true]
        rfl
      · simp only [later, if_false]
        rfl

end

end Selection

/-! ## Selecting -/

namespace Field

theorem select_eq (f : Field) (s : Selection) :
    f.select s =
      if "" ∈ s.givenNames then .error .unnamedField
      else .ok { f with subfields := joinAll f.subfields s.denoted } := by
  rw [select, Selection.fields_eq]
  split <;> rfl

/-- Selecting fails, for the lack of a name, exactly if the selection gives an empty name at some
depth outside of built fields. Otherwise the names below the field are those that the selection does
not name, in their order, and then the names of the selected fields, each at its last occurrence
among them. Under a name stands what was selected there before, merged from the left with all
selected fields of this name in their order. The field is not changed otherwise. -/
theorem select_siblings {f : Field} (hf : f.Reachable) (s : Selection) :
    ((∃ e, f.select s = .error e) ↔ "" ∈ s.givenNames) ∧
    (∀ e, f.select s = .error e → e = .unnamedField ∧ e.kind = .invalidName) ∧
    ("" ∉ s.givenNames → ∃ r, f.select s = .ok r ∧
      r.name = f.name ∧ r.arguments = f.arguments ∧ r.spreads = f.spreads ∧
      names r.subfields =
        (names f.subfields).filter (· ∉ names s.denoted) ++ (names s.denoted).dedup ∧
      ∀ n, r.subfield? n =
        mergeAll ((f.subfield? n).toList ++ s.denoted.filter fun g => g.name = n)) := by
  have distinct : (names f.subfields).Nodup := hf.wellFormed.here.subfields
  rw [select_eq]
  by_cases empty : "" ∈ s.givenNames
  · rw [if_pos empty]
    refine ⟨⟨fun _ => empty, fun _ => ⟨_, rfl⟩⟩, fun e he => ?_, fun h => absurd empty h⟩
    cases he
    exact ⟨rfl, rfl⟩
  · rw [if_neg empty]
    refine ⟨⟨fun ⟨_, he⟩ => (nomatch he), fun h => absurd h empty⟩, fun e he => (nomatch he),
      fun _ => ⟨_, rfl, rfl, rfl, rfl, names_joinAll_dedup distinct s.denoted, fun n => ?_⟩⟩
    exact lookup_joinAll_mergeAll distinct s.denoted n

/-- The selection `posts,id,posts{date}`. -/
def samplePortions : Selection :=
  .several [.several [.leaf "posts", .leaf "id"], .under "posts" (.leaf "date")]

theorem select_siblings_sampleUser :
    sampleUser.Reachable ∧
      (∃ r p, sampleUser.select samplePortions = .ok r ∧
        names r.subfields = ["name", "id", "posts"] ∧
        r.subfield? "posts" = some p ∧ names p.subfields = ["title", "date"]) ∧
      ∃ e, sampleUser.select (.several [.leaf "id", .under "posts" (.leaf "")]) = .error e := by
  obtain ⟨-, -, selected⟩ := select_siblings reachable_sampleUser samplePortions
  obtain ⟨r, found, -, -, -, order, byName⟩ := selected (by decide)
  obtain ⟨fails, -, -⟩ := select_siblings reachable_sampleUser
    (.several [.leaf "id", .under "posts" (.leaf "")])
  exact ⟨reachable_sampleUser, ⟨r, _, found, order.trans rfl, byName "posts", rfl⟩,
    fails.mpr (by decide)⟩

end Field

end GraphQLDoc
