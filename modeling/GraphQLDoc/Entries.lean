/-!
# Maps in insertion order

A map from names to values is the list of its entries. The order is that of the first insertion of
each key: a new key goes to the end, and a new value for an old key takes the place of the old one.

* `get?`, `keys`: the value of a key, and all keys in order.
* `insert`, `extend`, `ofList`: one entry more, several more, and a map from entries that may repeat
  keys. The last value of a key wins.
-/

namespace GraphQLDoc

/-- A map from names to values, in the order of insertion. -/
abbrev Entries (α : Type) : Type := List (String × α)

namespace Entries

variable {α : Type}

def keys (entries : Entries α) : List String := List.map Prod.fst entries

/-- The value of a key. -/
def get? : Entries α → String → Option α
  | [], _ => none
  | (k, v) :: rest, key => if k = key then some v else get? rest key

/-- The map with one entry set. -/
def insert : Entries α → String → α → Entries α
  | [], key, value => [(key, value)]
  | (k, v) :: rest, key, value =>
    if k = key then (k, value) :: rest else (k, v) :: insert rest key value

/-- The map with several entries set, one after the other. -/
def extend (entries others : Entries α) : Entries α :=
  others.foldl (fun acc entry => acc.insert entry.1 entry.2) entries

/-- The map of a list of entries that may repeat keys. -/
def ofList (entries : List (String × α)) : Entries α := extend [] entries

@[simp] theorem get?_nil (key : String) : get? ([] : Entries α) key = none := rfl

theorem get?_insert (entries : Entries α) (key : String) (value : α) (other : String) :
    (entries.insert key value).get? other =
      if key = other then some value else entries.get? other := by
  induction entries with
  | nil => simp [insert, get?]
  | cons entry rest ih =>
    obtain ⟨k, v⟩ := entry
    by_cases hk : k = key
    · subst hk
      by_cases ho : k = other <;> simp [insert, get?, ho]
    · by_cases ho : k = other
      · subst ho
        simp [insert, get?, hk, Ne.symm hk]
      · simp [insert, get?, hk, ho, ih]

theorem keys_insert (entries : Entries α) (key : String) (value : α) :
    (entries.insert key value).keys =
      if key ∈ entries.keys then entries.keys else entries.keys ++ [key] := by
  induction entries with
  | nil => simp [insert, keys]
  | cons entry rest ih =>
    obtain ⟨k, v⟩ := entry
    by_cases hk : k = key
    · simp [insert, keys, hk]
    · have : key ≠ k := fun h => hk h.symm
      simp only [keys] at ih
      by_cases hm : key ∈ List.map Prod.fst rest <;> simp [insert, keys, hk, this, ih, hm]

@[simp] theorem extend_nil (entries : Entries α) : entries.extend [] = entries := rfl

@[simp] theorem extend_cons (entries : Entries α) (key : String) (value : α) (others : Entries α) :
    entries.extend ((key, value) :: others) = (entries.insert key value).extend others := rfl

theorem extend_append (entries others more : Entries α) :
    entries.extend (others ++ more) = (entries.extend others).extend more :=
  List.foldl_append

end Entries

end GraphQLDoc
