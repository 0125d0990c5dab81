import GraphQLDoc.Entries
import GraphQLDoc.Proofs.Names

/-!
# Laws of ordered maps

Maps are compared as lists of entries, so every equation here is one of contents and order.

* `keys_extend`: the keys of a map that is laid over another are added like names to a name list.
* `get?_extend`: the value of a key is that of the upper map, if it has one.
* `get?_append`, `get?_perm`: the first entry of a key counts, and the order of entries does not
  matter where no key is repeated.
* `extend_extend`: laying a map over another and both over a third is laying one after the other.
* `ofList_of_nodup`: entries that repeat no key are the map that they make.
* `extend_self`: a map that is laid over itself stays as it is.
-/

namespace GraphQLDoc

namespace Entries

variable {α : Type}

@[simp] theorem keys_nil : keys ([] : Entries α) = [] := rfl

@[simp] theorem keys_cons (entry : String × α) (rest : Entries α) :
    keys (entry :: rest) = entry.1 :: keys rest := rfl

/-- A map that no key is repeated in, and none is empty. -/
structure Proper (entries : Entries α) : Prop where
  distinct : entries.keys.Nodup
  named : "" ∉ entries.keys

/-! ## Keys -/

theorem keys_insert_eq_addName (entries : Entries α) (key : String) (value : α) :
    (entries.insert key value).keys = addName entries.keys key := keys_insert entries key value

theorem keys_extend (entries others : Entries α) :
    (entries.extend others).keys = addNames entries.keys others.keys := by
  induction others generalizing entries with
  | nil => rfl
  | cons entry rest ih => rw [extend_cons, ih, keys_insert_eq_addName, keys_cons, addNames_cons]

theorem nodup_keys_extend {entries : Entries α} (h : entries.keys.Nodup) (others : Entries α) :
    (entries.extend others).keys.Nodup := by
  rw [keys_extend]
  exact nodup_addNames h _

theorem nodup_keys_ofList (entries : List (String × α)) : (ofList entries).keys.Nodup := by
  have none : (keys ([] : Entries α)).Nodup := List.nodup_nil
  exact nodup_keys_extend none entries

theorem Proper.extend {entries others : Entries α} (h : entries.Proper) (ho : "" ∉ others.keys) :
    (entries.extend others).Proper := by
  refine ⟨nodup_keys_extend h.distinct others, ?_⟩
  rw [keys_extend, mem_addNames]
  exact fun he => he.elim h.named ho

/-! ## Entries -/

theorem mem_insert {entries : Entries α} {key : String} {value : α} {entry : String × α}
    (h : entry ∈ entries.insert key value) : entry ∈ entries ∨ entry = (key, value) := by
  induction entries with
  | nil => exact .inr (List.mem_singleton.mp h)
  | cons head rest ih =>
    obtain ⟨k, v⟩ := head
    unfold insert at h
    split at h
    · next hk =>
      subst hk
      rcases List.mem_cons.mp h with rfl | h
      · exact .inr rfl
      · exact .inl (List.mem_cons_of_mem _ h)
    · rcases List.mem_cons.mp h with rfl | h
      · exact .inl List.mem_cons_self
      · exact (ih h).imp (List.mem_cons_of_mem _) id

theorem mem_extend {entries others : Entries α} {entry : String × α}
    (h : entry ∈ entries.extend others) : entry ∈ entries ∨ entry ∈ others := by
  induction others generalizing entries with
  | nil => exact .inl h
  | cons head rest ih =>
    rcases ih h with h | h
    · rcases mem_insert h with h | rfl
      · exact .inl h
      · exact .inr List.mem_cons_self
    · exact .inr (List.mem_cons_of_mem _ h)

theorem mem_ofList {entries : List (String × α)} {entry : String × α}
    (h : entry ∈ ofList entries) : entry ∈ entries :=
  (mem_extend h).resolve_left List.not_mem_nil

/-! ## Values by key -/

theorem get?_eq_none {entries : Entries α} {key : String} (h : key ∉ entries.keys) :
    entries.get? key = none := by
  induction entries with
  | nil => rfl
  | cons entry rest ih =>
    obtain ⟨k, v⟩ := entry
    rw [keys_cons, List.mem_cons, not_or] at h
    rw [get?, if_neg (Ne.symm h.1), ih h.2]

theorem mem_of_get? {entries : Entries α} {key : String} {value : α}
    (h : entries.get? key = some value) : (key, value) ∈ entries := by
  induction entries with
  | nil => exact nomatch h
  | cons entry rest ih =>
    obtain ⟨k, v⟩ := entry
    unfold get? at h
    split at h
    · next hk => exact hk ▸ Option.some.inj h ▸ List.mem_cons_self
    · exact List.mem_cons_of_mem _ (ih h)

theorem mem_keys_of_get? {entries : Entries α} {key : String} {value : α}
    (h : entries.get? key = some value) : key ∈ entries.keys := List.mem_map_of_mem (mem_of_get? h)

theorem get?_eq_none_iff {entries : Entries α} {key : String} :
    entries.get? key = none ↔ key ∉ entries.keys := by
  refine ⟨fun none listed => ?_, get?_eq_none⟩
  induction entries with
  | nil => exact List.not_mem_nil listed
  | cons entry rest ih =>
    obtain ⟨k, v⟩ := entry
    unfold get? at none
    split at none
    · cases none
    · next other => exact ih none ((List.mem_cons.mp listed).resolve_left (Ne.symm other))

theorem get?_of_mem {entries : Entries α} (h : entries.keys.Nodup) {entry : String × α}
    (he : entry ∈ entries) : entries.get? entry.1 = some entry.2 := by
  induction entries with
  | nil => exact absurd he List.not_mem_nil
  | cons head rest ih =>
    obtain ⟨k, v⟩ := head
    obtain ⟨fresh, distinct⟩ := List.nodup_cons.mp h
    rcases List.mem_cons.mp he with rfl | he
    · exact if_pos rfl
    · have listed : entry.1 ∈ keys rest := List.mem_map_of_mem he
      have hne : k ≠ entry.1 := fun e => fresh (e ▸ listed)
      rw [get?, if_neg hne, ih distinct he]

theorem get?_cons_self (key : String) (value : α) (rest : Entries α) :
    get? ((key, value) :: rest) key = some value := if_pos rfl

theorem get?_append (entries others : Entries α) (key : String) :
    get? (entries ++ others) key = (entries.get? key).or (others.get? key) := by
  induction entries with
  | nil => rfl
  | cons entry rest ih =>
    rw [List.cons_append, get?, get?, ih]
    split <;> rfl

/-- The order of entries does not matter if no key is repeated. -/
theorem get?_perm {entries others : Entries α} (distinct : entries.keys.Nodup)
    (h : List.Perm entries others) (key : String) : entries.get? key = others.get? key := by
  have distinct' : others.keys.Nodup := (h.map Prod.fst).nodup_iff.mp distinct
  cases found : entries.get? key with
  | some value => exact (get?_of_mem distinct' (h.subset (mem_of_get? found))).symm
  | none =>
    have absent := get?_eq_none_iff.mp found
    exact (get?_eq_none fun listed => absent ((h.map Prod.fst).mem_iff.mpr listed)).symm

/-- Changing values without changing keys. -/
theorem get?_map {β : Type} (entries : Entries α) (step : α → β) (key : String) :
    get? (entries.map fun entry => (entry.1, step entry.2)) key = (entries.get? key).map step := by
  induction entries with
  | nil => rfl
  | cons entry rest ih =>
    rw [List.map_cons, get?, get?, ih]
    split <;> rfl

theorem get?_extend (entries : Entries α) {others : Entries α} (h : others.keys.Nodup)
    (key : String) :
    (entries.extend others).get? key = (others.get? key).or (entries.get? key) := by
  induction others generalizing entries with
  | nil => rfl
  | cons entry rest ih =>
    obtain ⟨k, v⟩ := entry
    obtain ⟨fresh, distinct⟩ := List.nodup_cons.mp h
    rw [extend_cons, ih _ distinct, get?_insert, get?]
    by_cases hk : k = key
    · subst hk
      rw [get?_eq_none fresh, if_pos rfl, if_pos rfl]
      rfl
    · rw [if_neg hk, if_neg hk]

/-! ## Order -/

theorem insert_of_not_mem {entries : Entries α} {key : String} (h : key ∉ entries.keys)
    (value : α) : entries.insert key value = entries ++ [(key, value)] := by
  induction entries with
  | nil => rfl
  | cons entry rest ih =>
    obtain ⟨k, v⟩ := entry
    rw [keys_cons, List.mem_cons, not_or] at h
    rw [insert, if_neg (Ne.symm h.1), ih h.2, List.cons_append]

theorem extend_of_nodup {entries others : Entries α} (h : (entries ++ others).keys.Nodup) :
    entries.extend others = entries ++ others := by
  induction others generalizing entries with
  | nil => exact (List.append_nil _).symm
  | cons entry rest ih =>
    have split : entries ++ entry :: rest = entries ++ [entry] ++ rest := by simp
    have fresh : entry.1 ∉ entries.keys := by
      rw [keys, List.map_append, List.map_cons] at h
      exact fun listed => (List.nodup_append.mp h).2.2 _ listed _ List.mem_cons_self rfl
    rw [extend_cons, insert_of_not_mem fresh, ih (split ▸ h), ← split]

theorem ofList_of_nodup {entries : List (String × α)} (h : (keys entries).Nodup) :
    ofList entries = entries := by
  have whole : (keys ([] ++ entries)).Nodup := h
  exact extend_of_nodup whole

theorem insert_insert_self (entries : Entries α) (key : String) (value other : α) :
    (entries.insert key value).insert key other = entries.insert key other := by
  induction entries with
  | nil => simp [insert]
  | cons entry rest ih =>
    obtain ⟨k, v⟩ := entry
    by_cases hk : k = key
    · simp [insert, hk]
    · simp [insert, hk, ih]

/-- A new value for a key that is there already can be set before another entry. -/
theorem insert_insert_comm {entries : Entries α} {key other : String} (h : key ∈ entries.keys)
    (hne : other ≠ key) (value w : α) :
    (entries.insert other w).insert key value = (entries.insert key value).insert other w := by
  induction entries with
  | nil => exact absurd h List.not_mem_nil
  | cons entry rest ih =>
    obtain ⟨k, v⟩ := entry
    by_cases hk : k = key
    · subst hk
      simp [insert, Ne.symm hne]
    · have hr : key ∈ keys rest := (List.mem_cons.mp h).resolve_left (Ne.symm hk)
      by_cases ho : k = other
      · subst ho
        simp [insert, hk]
      · simp [insert, hk, ho, ih hr]

theorem insert_extend_comm {entries others : Entries α} {key : String} (h : key ∈ entries.keys)
    (ho : key ∉ others.keys) (value : α) :
    (entries.extend others).insert key value = (entries.insert key value).extend others := by
  induction others generalizing entries with
  | nil => rfl
  | cons entry rest ih =>
    obtain ⟨k, v⟩ := entry
    rw [keys_cons, List.mem_cons, not_or] at ho
    have hk : key ∈ (entries.insert k v).keys := by
      rw [keys_insert_eq_addName]
      exact mem_addName.mpr (.inl h)
    rw [extend_cons, extend_cons, ih hk ho.2, insert_insert_comm h (Ne.symm ho.1)]

theorem extend_insert (entries : Entries α) {others : Entries α} (h : others.keys.Nodup)
    (key : String) (value : α) :
    entries.extend (others.insert key value) = (entries.extend others).insert key value := by
  induction others generalizing entries with
  | nil => rfl
  | cons entry rest ih =>
    obtain ⟨k, v⟩ := entry
    obtain ⟨fresh, distinct⟩ := List.nodup_cons.mp h
    by_cases hk : k = key
    · subst hk
      have listed : k ∈ (entries.insert k v).keys := by
        rw [keys_insert_eq_addName]
        exact mem_addName.mpr (.inr rfl)
      rw [insert, if_pos rfl, extend_cons, extend_cons, insert_extend_comm listed fresh,
        insert_insert_self]
    · rw [insert, if_neg hk, extend_cons, extend_cons, ih _ distinct]

theorem extend_extend (entries : Entries α) {others : Entries α} (h : others.keys.Nodup)
    (more : Entries α) :
    entries.extend (others.extend more) = (entries.extend others).extend more := by
  induction more generalizing others with
  | nil => rfl
  | cons entry rest ih =>
    have distinct : (others.insert entry.1 entry.2).keys.Nodup := by
      rw [keys_insert_eq_addName]
      exact nodup_addName h _
    rw [extend_cons, ih distinct, extend_insert _ h, extend_cons]

/-! ## Entries that are there already -/

theorem insert_of_get? {entries : Entries α} {key : String} {value : α}
    (h : entries.get? key = some value) : entries.insert key value = entries := by
  induction entries with
  | nil => exact nomatch h
  | cons entry rest ih =>
    obtain ⟨k, v⟩ := entry
    rw [get?] at h
    by_cases hk : k = key
    · rw [if_pos hk, Option.some.injEq] at h
      rw [insert, if_pos hk, h]
    · rw [if_neg hk] at h
      rw [insert, if_neg hk, ih h]

theorem extend_of_get? {entries others : Entries α}
    (h : ∀ entry ∈ others, entries.get? entry.1 = some entry.2) :
    entries.extend others = entries := by
  induction others with
  | nil => rfl
  | cons entry rest ih =>
    obtain ⟨first, rest⟩ := List.forall_mem_cons.mp h
    rw [extend_cons, insert_of_get? first, ih rest]

theorem extend_self {entries : Entries α} (h : entries.keys.Nodup) :
    entries.extend entries = entries :=
  extend_of_get? fun _ he => get?_of_mem h he

end Entries

end GraphQLDoc
