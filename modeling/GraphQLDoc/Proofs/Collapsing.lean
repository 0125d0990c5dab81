import GraphQLDoc.Proofs.Entries

/-!
# Entries that repeat keys

Entries that are set one after the other may repeat keys. In the map that results a key stands where
it was set first, with the value that was set last.

* `addNames_eq_eraseDups`: a name list grows by the first occurrences of the names it lacks.
* `Entries.lastOf?`: the last value of a key. `Entries.keys_extend_eraseDups` and
  `Entries.get?_extend_lastOf?` say where the keys of a map go and what their values are.
* `Entries.Collapses`: the map of the entries, and `Entries.Collapses.eq_ofList`: there is just one.
-/

namespace GraphQLDoc

/-- Of several occurrences of a name the first one counts. -/
theorem addNames_eq_eraseDups (names more : List String) :
    addNames names more = names ++ (more.filter (· ∉ names)).eraseDups := by
  induction more generalizing names with
  | nil => simp
  | cons name rest ih =>
    rw [addNames_cons, ih]
    by_cases listed : name ∈ names
    · rw [addName_of_mem listed, List.filter_cons_of_neg (by simpa using listed)]
    · have others : (rest.filter (· ∉ names)).filter (fun x => !x == name) =
          rest.filter (· ∉ names ++ [name]) := by
        rw [List.filter_filter]
        apply List.filter_congr
        intro x _
        by_cases same : x = name <;> simp [same]
      rw [addName_of_not_mem listed, List.filter_cons_of_pos (by simpa using listed),
        List.eraseDups_cons, others, List.append_assoc, List.singleton_append]

namespace Entries

variable {α : Type} {entries others m : Entries α} {key : String} {value : α}

/-! ## The last value of a key -/

/-- The value of the last entry with the key. -/
def lastOf? (entries : List (String × α)) (key : String) : Option α :=
  ((entries.filter fun entry => entry.1 = key).getLast?).map Prod.snd

theorem lastOf?_append (entries others : List (String × α)) (key : String) :
    lastOf? (entries ++ others) key = (lastOf? others key).or (lastOf? entries key) := by
  rw [lastOf?, List.filter_append, List.getLast?_append, Option.map_or]
  rfl

theorem lastOf?_cons (k : String) (v : α) (entries : List (String × α)) (key : String) :
    lastOf? ((k, v) :: entries) key =
      (lastOf? entries key).or (if k = key then some v else none) := by
  have one : lastOf? [(k, v)] key = if k = key then some v else none := by
    by_cases same : k = key <;> simp [lastOf?, same]
  rw [← one, ← lastOf?_append, List.singleton_append]

theorem mem_of_lastOf? (h : lastOf? entries key = some value) : (key, value) ∈ entries := by
  obtain ⟨⟨k, v⟩, last, rfl⟩ := Option.map_eq_some_iff.mp h
  obtain ⟨listed, same⟩ := List.mem_filter.mp (List.mem_of_getLast? last)
  exact of_decide_eq_true same ▸ listed

theorem lastOf?_eq_none_iff : lastOf? entries key = none ↔ key ∉ entries.keys := by
  rw [lastOf?, Option.map_eq_none_iff, List.getLast?_eq_none_iff, List.filter_eq_nil_iff]
  simp only [keys, List.mem_map, decide_eq_true_eq, not_exists, not_and]

/-! ## Maps of such entries -/

theorem keys_extend_eraseDups (entries others : Entries α) :
    (entries.extend others).keys =
      entries.keys ++ (others.keys.filter (· ∉ entries.keys)).eraseDups := by
  rw [keys_extend, addNames_eq_eraseDups]

theorem get?_extend_lastOf? (entries others : Entries α) (key : String) :
    (entries.extend others).get? key = (lastOf? others key).or (entries.get? key) := by
  induction others generalizing entries with
  | nil => rfl
  | cons entry rest ih =>
    obtain ⟨k, v⟩ := entry
    rw [extend_cons, ih, get?_insert, lastOf?_cons, Option.or_assoc]
    split <;> rfl

theorem eq_of_get? (distinct : entries.keys.Nodup) (keys : entries.keys = others.keys)
    (values : ∀ key, entries.get? key = others.get? key) : entries = others := by
  induction entries generalizing others with
  | nil => exact (List.map_eq_nil_iff.mp keys.symm).symm
  | cons entry rest ih =>
    obtain ⟨k, v⟩ := entry
    obtain ⟨⟨k', w⟩, rest', rfl⟩ : ∃ entry rest', others = entry :: rest' := by
      cases others with
      | nil => exact nomatch keys
      | cons entry rest' => exact ⟨entry, rest', rfl⟩
    obtain ⟨first, later⟩ := List.cons.inj keys
    obtain ⟨fresh, distinct⟩ := List.nodup_cons.mp distinct
    dsimp only at first
    subst first
    have same : v = w := by
      have here := values k
      rw [get?, get?, if_pos rfl, if_pos rfl] at here
      exact Option.some.inj here
    subst same
    have fresh' : k ∉ Entries.keys rest' := fun h => fresh (later.symm ▸ h)
    rw [ih distinct later fun key => ?_]
    by_cases hk : k = key
    · subst hk
      rw [get?_eq_none fresh, get?_eq_none fresh']
    · have there := values key
      rwa [get?, get?, if_neg hk, if_neg hk] at there

/-- The map has each key of the entries where it stands first, with the value that it has last. -/
structure Collapses (entries : List (String × α)) (m : Entries α) : Prop where
  keys : m.keys = (Entries.keys entries).eraseDups
  values : ∀ key, m.get? key = lastOf? entries key

theorem collapses_ofList (entries : List (String × α)) : Collapses entries (ofList entries) where
  keys := by
    have all : (Entries.keys entries).filter (· ∉ Entries.keys ([] : Entries α)) =
        Entries.keys entries := List.filter_eq_self.mpr (by simp)
    rw [ofList, keys_extend_eraseDups, all, keys_nil, List.nil_append]
  values key := by
    rw [ofList, get?_extend_lastOf?, get?_nil, Option.or_none]

theorem Collapses.eq_ofList (h : Collapses entries m) : m = ofList entries := by
  have whole := collapses_ofList entries
  have keys : m.keys = (ofList entries).keys := h.keys.trans whole.keys.symm
  refine eq_of_get? ?_ keys fun key => (h.values key).trans (whole.values key).symm
  exact keys ▸ nodup_keys_ofList entries

/-- A value that is set again later might be any other. -/
theorem ofList_congr {before after : List (String × α)} (later : key ∈ keys after) (v w : α) :
    ofList (before ++ (key, v) :: after) = ofList (before ++ (key, w) :: after) := by
  have whole := collapses_ofList (before ++ (key, v) :: after)
  refine Collapses.eq_ofList ⟨whole.keys.trans ?_, fun k => (whole.values k).trans ?_⟩
  · simp only [keys, List.map_append, List.map_cons]
  · rw [lastOf?_append, lastOf?_append, lastOf?_cons, lastOf?_cons]
    by_cases same : key = k
    · subst same
      obtain ⟨x, hx⟩ := Option.ne_none_iff_exists'.mp fun none => lastOf?_eq_none_iff.mp none later
      rw [hx]
      rfl
    · rw [if_neg same, if_neg same]

end Entries

end GraphQLDoc
