import GraphQLDoc.Names

/-!
# Laws of names and name lists

* `isName_iff`: a name is a letter or an underscore, and after it letters, digits and underscores.
* `addNames_eq_append_filter`: names without repetition are appended where they are lacking.
* `addNames_addNames`: adding names that were collected first is adding them one by one.
-/

namespace GraphQLDoc

/-! ## Characters of names -/

theorem isNameStart_iff (c : Char) :
    isNameStart c = true ↔ c = '_' ∨ ('A' ≤ c ∧ c ≤ 'Z') ∨ ('a' ≤ c ∧ c ≤ 'z') := by
  have upper : c.isUpper = true ↔ 'A' ≤ c ∧ c ≤ 'Z' := decide_eq_true_iff
  have lower : c.isLower = true ↔ 'a' ≤ c ∧ c ≤ 'z' := Bool.and_eq_true_iff.trans
    (and_congr decide_eq_true_iff decide_eq_true_iff)
  have letter : c.isAlpha = true ↔ c.isUpper = true ∨ c.isLower = true := Bool.or_eq_true_iff
  rw [isNameStart, Bool.or_eq_true, beq_iff_eq, letter, upper, lower]

theorem isNameRest_iff (c : Char) :
    isNameRest c = true ↔
      c = '_' ∨ ('0' ≤ c ∧ c ≤ '9') ∨ ('A' ≤ c ∧ c ≤ 'Z') ∨ ('a' ≤ c ∧ c ≤ 'z') := by
  have digit : c.isDigit = true ↔ '0' ≤ c ∧ c ≤ '9' := Bool.and_eq_true_iff.trans
    (and_congr decide_eq_true_iff decide_eq_true_iff)
  have both : isNameRest c = true ↔ isNameStart c = true ∨ c.isDigit = true := by
    rw [isNameRest, isNameStart, Char.isAlphanum, ← Bool.or_assoc, Bool.or_eq_true]
  rw [both, isNameStart_iff, digit]
  grind

theorem isName_iff (text : String) :
    isName text = true ↔
      ∃ c cs, text.toList = c :: cs ∧ isNameStart c = true ∧ ∀ d ∈ cs, isNameRest d = true := by
  unfold isName
  cases text.toList with
  | nil => simp
  | cons c cs =>
    rw [Bool.and_eq_true, List.all_eq_true]
    constructor
    · exact fun h => ⟨c, cs, rfl, h⟩
    · rintro ⟨c', cs', e, h⟩
      cases e
      exact h

theorem isNameRest_of_isNameStart {c : Char} (h : isNameStart c = true) : isNameRest c = true := by
  rw [isNameStart_iff] at h
  rw [isNameRest_iff]
  grind

theorem isNameRest_of_isName {text : String} (h : isName text = true) :
    ∀ c ∈ text.toList, isNameRest c = true := by
  obtain ⟨c, cs, spelled, start, rest⟩ := (isName_iff text).mp h
  rw [spelled]
  exact List.forall_mem_cons.mpr ⟨isNameRest_of_isNameStart start, rest⟩

/-! ## Lists of names -/

@[simp] theorem addNames_nil (names : List String) : addNames names [] = names := rfl

@[simp] theorem addNames_cons (names : List String) (name : String) (more : List String) :
    addNames names (name :: more) = addNames (addName names name) more := rfl

theorem addName_of_mem {names : List String} {name : String} (h : name ∈ names) :
    addName names name = names := if_pos h

theorem addName_of_not_mem {names : List String} {name : String} (h : name ∉ names) :
    addName names name = names ++ [name] := if_neg h

theorem nodup_addNames {names : List String} (h : names.Nodup) (more : List String) :
    (addNames names more).Nodup := by
  induction more generalizing names with
  | nil => exact h
  | cons name rest ih => exact ih (nodup_addName h name)

/-- Names that are listed already change nothing. -/
theorem addNames_of_subset {names more : List String} (h : more ⊆ names) :
    addNames names more = names := by
  induction more with
  | nil => rfl
  | cons name rest ih =>
    obtain ⟨listed, others⟩ := List.cons_subset.mp h
    rw [addNames_cons, addName_of_mem listed, ih others]

theorem addNames_eq_append_filter (names : List String) {more : List String} (h : more.Nodup) :
    addNames names more = names ++ more.filter (· ∉ names) := by
  induction more generalizing names with
  | nil => simp
  | cons name rest ih =>
    obtain ⟨fresh, distinct⟩ := List.nodup_cons.mp h
    rw [addNames_cons, ih _ distinct]
    by_cases listed : name ∈ names
    · rw [addName_of_mem listed, List.filter_cons_of_neg (by simpa using listed)]
    · have same : ∀ x ∈ rest, decide (x ∉ names ++ [name]) = decide (x ∉ names) := by
        intro x hx
        have : x ≠ name := fun e => fresh (e ▸ hx)
        simp [this]
      rw [addName_of_not_mem listed, List.filter_cons_of_pos (by simpa using listed),
        List.filter_congr same, List.append_assoc, List.singleton_append]

theorem addNames_addName (names more : List String) (name : String) :
    addNames names (addName more name) = addName (addNames names more) name := by
  by_cases listed : name ∈ more
  · rw [addName_of_mem listed, addName_of_mem (mem_addNames.mpr (.inr listed))]
  · rw [addName_of_not_mem listed, addNames_append, addNames_cons, addNames_nil]

theorem addNames_addNames (names first second : List String) :
    addNames names (addNames first second) = addNames (addNames names first) second := by
  induction second generalizing first with
  | nil => rfl
  | cons name rest ih => rw [addNames_cons, ih, addNames_addName, addNames_cons]

end GraphQLDoc
