/-!
# Names

* `isName`: the names of the GraphQL grammar, `/[_A-Za-z][_0-9A-Za-z]*/`. Letters and digits are
  those of ASCII.
* `addName`, `addNames`: a list of names without repetition grows by the names it lacks.
-/

namespace GraphQLDoc

/-- A name may start with the character. -/
def isNameStart (c : Char) : Bool := c == '_' || c.isAlpha

/-- A name may go on with the character. -/
def isNameRest (c : Char) : Bool := c == '_' || c.isAlphanum

/-- The text is a name. -/
def isName (text : String) : Bool :=
  match text.toList with
  | [] => false
  | c :: cs => isNameStart c && cs.all isNameRest

/-- The list with the name at its end, unless it is listed already. -/
def addName (names : List String) (name : String) : List String :=
  if name ∈ names then names else names ++ [name]

/-- The list with all names that it lacks, in their order. -/
def addNames (names more : List String) : List String := more.foldl addName names

theorem mem_addName {names : List String} {name x : String} :
    x ∈ addName names name ↔ x ∈ names ∨ x = name := by
  unfold addName
  split
  · next h => exact ⟨.inl, fun hx => hx.elim id fun e => e ▸ h⟩
  · simp

theorem nodup_addName {names : List String} (h : names.Nodup) (name : String) :
    (addName names name).Nodup := by
  unfold addName
  split
  · exact h
  · next hn =>
    refine List.nodup_append.2 ⟨h, by simp, fun x hx y hy e => hn ?_⟩
    rw [List.mem_singleton.1 hy] at e
    exact e ▸ hx

theorem mem_addNames {names more : List String} {x : String} :
    x ∈ addNames names more ↔ x ∈ names ∨ x ∈ more := by
  induction more generalizing names with
  | nil => simp [addNames]
  | cons name rest ih =>
    have step : addNames names (name :: rest) = addNames (addName names name) rest := rfl
    rw [step, ih, mem_addName, List.mem_cons, or_assoc]

theorem addNames_append (names first second : List String) :
    addNames names (first ++ second) = addNames (addNames names first) second :=
  List.foldl_append

end GraphQLDoc
