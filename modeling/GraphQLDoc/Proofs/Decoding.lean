import GraphQLDoc.Proofs.Grammar
import GraphQLDoc.Proofs.Numbers
import GraphQLDoc.Proofs.Reachable

/-!
# Reading texts back

A text says everything about the field that it was written for, as long as its names are names.

* `Value.Legible`, `Field.Legible`: the names, keys and constants of one node are GraphQL names.
* `Reader.reads_value`, `Reader.reads_field`, `Reader.reads_operation`: the readers take exactly
  what is written for a value, a field and an operation, whatever is made of numbers.
-/

namespace GraphQLDoc

/-- Keys are names, and a constant is a name that stands for nothing else. -/
def Value.Legible : Value → Prop
  | .enum name => isName name = true ∧ name ∉ ["true", "false", "null"]
  | .object entries => ∀ key ∈ Entries.keys entries, isName key = true
  | _ => True

/-- The field is named by a name, and so is everything inside its arguments. -/
structure Field.Legible (f : Field) : Prop where
  name : isName f.name = true
  keys : ∀ key ∈ Entries.keys f.arguments, isName key = true
  values : ∀ v ∈ f.values, v.Everywhere Value.Legible

/-- The literal of every number is read as what `number` makes of it. -/
def ReadsNumbers {ν : Type} (number? : List Char → Option ν) (number : Number → ν) : Prop :=
  ∀ n : Number, n.isFinite = true → number? n.chars = some (number n)

namespace Reader

section Numbers

variable {ν : Type} {number? : List Char → Option ν} {number : Number → ν}

/-! ## Constants -/

theorem reads_constant {cs : List Char} {l : Literal ν} (nonempty : cs ≠ [])
    (plain : ∀ c ∈ cs, isDelimiter c = false) (h : constant? number? cs = some l) (n : Nat) :
    Reads (value number? (n + 1)) cs l := by
  intro rest closes
  have first : word (cs ++ rest) = some (cs, rest) :=
    word_append nonempty plain fun c hc => isDelimiter_of_isClosing (closes c hc)
  obtain ⟨c, cs, rfl⟩ := List.exists_cons_of_ne_nil nonempty
  have inside : isDelimiter c = false := plain c List.mem_cons_self
  rw [List.cons_append] at first ⊢
  unfold value
  split
  · next e => exact nomatch e
  · next e =>
    cases e
    exact nomatch inside
  · next e =>
    cases e
    exact nomatch inside
  · next e =>
    cases e
    exact nomatch inside
  · simp only [first, Option.bind_some, h, Option.map_some]

theorem constant?_enum {name : String} (h : (Value.enum name).Legible) :
    constant? number? name.toList = some (.enum name) := by
  obtain ⟨named, other⟩ := h
  simp only [List.mem_cons, List.not_mem_nil, or_false, not_or] at other
  obtain ⟨notTrue, notFalse, notNull⟩ := other
  unfold constant?
  rw [String.ofList_toList]
  split
  · exact absurd rfl notTrue
  · exact absurd rfl notFalse
  · exact absurd rfl notNull
  · exact if_pos named

theorem constant?_number {n : Number} (finite : n.isFinite = true)
    (read : number? n.chars = some (number n)) :
    constant? number? n.chars = some (.number (number n)) := by
  have unnamed : isName (String.ofList n.chars) = false := by
    obtain ⟨c, cs, starts, notStart⟩ := (n.spells_chars finite).starts
    rw [isName, String.toList_ofList, starts]
    simp [notStart]
  unfold constant?
  split
  · next e =>
    rw [e] at unnamed
    exact nomatch unnamed
  · next e =>
    rw [e] at unnamed
    exact nomatch unnamed
  · next e =>
    rw [e] at unnamed
    exact nomatch unnamed
  · rw [unnamed, read]
    rfl

/-! ## Values -/

theorem value_eq_none (n : Nat) {c : Char} (h : isClosing c = true) (text : List Char) :
    value number? n (c :: text) = none := by
  cases n with
  | zero => rfl
  | succ n =>
    unfold value
    split
    · next e => exact nomatch e
    · next e =>
      cases e
      exact nomatch h
    · next e =>
      cases e
      exact nomatch h
    · next e =>
      cases e
      exact nomatch h
    · rw [word_eq_none (isDelimiter_of_isClosing h), Option.bind_none]

theorem chars_ne_nil {v : Value} (legible : v.Legible) (faultless : v.Faultless) :
    v.chars ≠ [] := by
  cases v with
  | number m =>
    obtain ⟨c, cs, starts, -⟩ := (m.spells_chars faultless).starts
    show m.chars ≠ []
    rw [starts]
    exact List.cons_ne_nil c cs
  | boolean b => cases b <;> decide
  | enum name =>
    obtain ⟨c, cs, spelled, -⟩ := (isName_iff name).mp legible.1
    show name.toList ≠ []
    rw [spelled]
    exact List.cons_ne_nil c cs
  | _ => exact List.cons_ne_nil _ _

theorem reads_quoted (text : List Char) (n : Nat) :
    Reads (value number? (n + 1)) (quoted text) (.string (String.ofList text)) := by
  intro rest _
  have read : string ('"' :: (text.flatMap escape ++ ['"'] ++ rest)) = some (text, rest) :=
    string_quoted text rest
  rw [quoted, List.cons_append, value, read, Option.map_some]

theorem reads_list {items : List Value} {n : Nat}
    (long : (Value.list items).chars.length ≤ n + 1)
    (each : ∀ v ∈ items, v.chars.length < n → Reads (value number? n) v.chars (v.literal number)) :
    Reads (value number? (n + 1)) (Value.list items).chars
      ((Value.list items).literal number) := by
  intro rest _
  rw [Value.chars_list] at long ⊢
  obtain ⟨enough, short⟩ : items.length ≤ n ∧ ∀ v ∈ items, v.chars.length < n := by
    apply shorter_of_intercalate
    simp only [List.length_cons, List.length_append, List.length_nil] at long
    omega
  have all := enclosed_intercalate (by decide : isClosing ']' = true) (by decide) enough
    (fun v hv => each v hv (short v hv)) (fun text => value_eq_none n rfl text) rest
  rw [List.cons_append, List.append_assoc, List.singleton_append, value, all, Value.literal,
    Value.literals_eq_map]
  rfl

theorem reads_object {entries : Entries Value} (legible : (Value.object entries).Legible) {n : Nat}
    (long : (Value.object entries).chars.length ≤ n + 1)
    (each : ∀ e ∈ entries, e.2.chars.length < n →
      Reads (value number? n) e.2.chars (e.2.literal number)) :
    Reads (value number? (n + 1)) (Value.object entries).chars
      ((Value.object entries).literal number) := by
  intro rest _
  rw [Value.chars_object] at long ⊢
  obtain ⟨enough, short⟩ : entries.length ≤ n ∧
      ∀ e ∈ entries, (e.1.toList ++ ':' :: e.2.chars).length < n := by
    apply shorter_of_intercalate
    simp only [List.length_cons, List.length_append, List.length_nil] at long
    omega
  have reads : ∀ e ∈ entries, Reads (entry (value number? n))
      (e.1.toList ++ ':' :: e.2.chars) (e.1, e.2.literal number) := by
    intro e he
    have len := short e he
    rw [List.length_append, List.length_cons] at len
    exact reads_entry (legible e.1 (List.mem_map_of_mem he)) (each e he (by omega))
  have all := enclosed_intercalate (by decide : isClosing '}' = true) (by decide) enough reads
    (fun text => entry_eq_none rfl text) rest
  rw [List.cons_append, List.append_assoc, List.singleton_append, value, all, Value.literal,
    Value.entryLiterals_eq_map]
  rfl

/-- The reader takes the literal of every value. -/
theorem reads_value (hn : ReadsNumbers number? number)
    {v : Value} (legible : v.Everywhere Value.Legible) (faultless : v.Everywhere Value.Faultless)
    {n : Nat} (long : v.chars.length ≤ n) : Reads (value number? n) v.chars (v.literal number) := by
  induction v using Value.induction generalizing n with
  | step v ih =>
    have nonempty := chars_ne_nil legible.here faultless.here
    obtain ⟨n, rfl⟩ : ∃ m, n = m + 1 := by
      have := List.length_pos_iff.mpr nonempty
      exact ⟨n - 1, by omega⟩
    cases v with
    | string s =>
      have read : Reads (value number? (n + 1)) _ _ := reads_quoted s.toList n
      rwa [String.ofList_toList] at read
    | number m =>
      exact reads_constant nonempty (m.spells_chars faultless.here).plain
        (constant?_number faultless.here (hn m faultless.here)) n
    | boolean b =>
      cases b with
      | true =>
        exact reads_constant nonempty (isDelimiter_eq_false_of_isName (n := "true") rfl) rfl n
      | false =>
        exact reads_constant nonempty (isDelimiter_eq_false_of_isName (n := "false") rfl) rfl n
    | instant t =>
      have read : Reads (value number? (n + 1)) _ _ := reads_quoted t.chars n
      rwa [quoted_chars_instant] at read
    | enum name =>
      exact reads_constant nonempty (isDelimiter_eq_false_of_isName legible.here.1)
        (constant?_enum legible.here) n
    | list items =>
      exact reads_list long fun v hv short =>
        ih v hv (legible.of_mem hv) (faultless.of_mem hv) (Nat.le_of_lt short)
    | object entries =>
      apply reads_object legible.here long
      intro e he short
      have child : e.2 ∈ (Value.object entries).children := List.mem_map_of_mem he
      exact ih e.2 child (legible.of_mem child) (faultless.of_mem child) (Nat.le_of_lt short)

/-! ## Fields -/

theorem argumentChars_eq (args : Arguments) :
    Field.argumentChars args =
      bracketed '(' ')' (args.map fun e => e.1.toList ++ ':' :: e.2.chars) := by
  rw [Field.argumentChars, Arguments.chars, Value.entryChars_eq_map, bracketed, List.isEmpty_map]

/-- What stands between the braces of a field: subfields first, and then fragments. -/
def selections (f : Field) : List (Field ⊕ String) := f.subfields.map .inl ++ f.spreads.map .inr

/-- The text between the braces of a field, with the braces. -/
def selectedChars (f : Field) : List Char :=
  bracketed '{' '}' ((selections f).map (Sum.elim Field.chars Field.spreadChars))

theorem chars_field (f : Field) :
    f.chars = f.name.toList ++ (Field.argumentChars f.arguments ++ selectedChars f) := by
  cases f
  rw [Field.chars, Field.selectionChars, Field.allChars_eq_map, List.append_assoc]
  simp [selectedChars, bracketed, selections]

theorem reads_spread {α : Type} {field : Reader α} {n : String} (h : isName n = true) :
    Reads (selection field) (Field.spreadChars n) (.inr n) := by
  intro rest closes
  have read := reads_name h rest closes
  have spelled : Field.spreadChars n ++ rest = '.' :: '.' :: '.' :: (n.toList ++ rest) := rfl
  rw [spelled, selection, read, Option.map_some]

theorem reads_subfield {α : Type} {field : Reader α} {c : Char} {cs : List Char} {x : α}
    (h : Reads field (c :: cs) x) (point : c ≠ '.') :
    Reads (selection field) (c :: cs) (.inl x) := by
  intro rest closes
  have read := h rest closes
  rw [List.cons_append] at read ⊢
  unfold selection
  split
  · next e => exact absurd (List.cons.inj e).1 point
  · rw [read, Option.map_some]

theorem starts_chars_field {f : Field} (legible : f.Legible) :
    ∃ c cs, f.chars = c :: cs ∧ c ≠ '.' := by
  obtain ⟨c, cs, spelled, start, -⟩ := (isName_iff f.name).mp legible.name
  refine ⟨c, _, by rw [chars_field, spelled, List.cons_append], ?_⟩
  rintro rfl
  exact nomatch start

theorem reads_arguments (hn : ReadsNumbers number? number)
    {f : Field} (legible : f.Legible) (sound : f.Sound) {n : Nat}
    (long : (Field.argumentChars f.arguments).length ≤ n) {rest : List Char}
    (absent : ∀ c ∈ rest.head?, c ≠ '(') :
    optional '(' (separated (entry (value number? n)) ')' n)
        (Field.argumentChars f.arguments ++ rest) =
      some (f.arguments.map fun e => (e.1, e.2.literal number), rest) := by
  rw [argumentChars_eq] at long ⊢
  obtain ⟨enough, short⟩ := shorter_of_bracketed long
  refine optional_bracketed rfl (by decide) enough (fun e he => ?_) '(' absent
  have inside : e.2 ∈ f.values := List.mem_map_of_mem he
  have len := short e he
  rw [List.length_append, List.length_cons] at len
  exact reads_entry (legible.keys e.1 (List.mem_map_of_mem he))
    (reads_value hn (legible.values e.2 inside)
      ((sound.values e.2 inside).imp fun _ => Value.Sound.faultless) (by omega))

theorem reads_selections {α : Type} {field : Reader α} {tree : Field → α} {f : Field}
    (legible : ∀ g ∈ f.subfields, g.Legible) (sound : f.Sound) {n : Nat}
    (each : ∀ g ∈ f.subfields, g.chars.length ≤ n → Reads field g.chars (tree g))
    (long : (selectedChars f).length ≤ n) {rest : List Char} (absent : ∀ c ∈ rest.head?, c ≠ '{') :
    optional '{' (separated (selection field) '}' n) (selectedChars f ++ rest) =
      some ((selections f).map (Sum.map tree id), rest) := by
  obtain ⟨enough, short⟩ := shorter_of_bracketed long
  refine optional_bracketed rfl (by decide) enough (fun s hs => ?_) '{' absent
  rcases s with g | spread
  · have hg : g ∈ f.subfields := by simpa [selections] using hs
    have read : Reads field g.chars (tree g) := each g hg (Nat.le_of_lt (short _ hs))
    obtain ⟨c, cs, starts, point⟩ := starts_chars_field (legible g hg)
    show Reads (selection field) g.chars (.inl (tree g))
    rw [starts] at read ⊢
    exact reads_subfield read point
  · have hspread : spread ∈ f.spreads := by simpa [selections] using hs
    exact reads_spread (sound.spreadNames spread hspread)

theorem outline_eq_of_selections (f : Field) :
    { name := f.name
      arguments := f.arguments.map fun e => (e.1, e.2.literal number)
      subfields :=
        ((selections f).map (Sum.map (Field.outline number) id)).filterMap Sum.getLeft?
      spreads :=
        ((selections f).map (Sum.map (Field.outline number) id)).filterMap Sum.getRight? } =
      f.outline number := by
  rw [Field.outline_eq]
  simp [selections, List.filterMap_map, Function.comp_def]

/-- The reader takes the text of every field. -/
theorem reads_field (hn : ReadsNumbers number? number)
    {f : Field} (legible : f.Everywhere Field.Legible) (sound : f.WellFormed) {n : Nat}
    (long : f.chars.length ≤ n) : Reads (field number? n) f.chars (f.outline number) := by
  induction f using Field.induction generalizing n with
  | step f ih =>
    obtain ⟨c, cs, starts, -⟩ := (isName_iff f.name).mp legible.here.name
    rw [chars_field, starts, List.length_append, List.length_append, List.length_cons] at long
    obtain ⟨n, rfl⟩ : ∃ m, n = m + 1 := ⟨n - 1, by omega⟩
    intro rest closes
    have noBrace : ∀ c ∈ rest.head?, c ≠ '{' := by
      rintro c hc rfl
      exact nomatch closes _ hc
    have noParenthesis : ∀ c ∈ (selectedChars f ++ rest).head?, c ≠ '(' := by
      rintro c hc rfl
      rcases head?_bracketed_append _ rest _ hc with e | hc
      · exact nomatch e
      · exact nomatch closes _ hc
    have ends : ∀ c ∈ (Field.argumentChars f.arguments ++ (selectedChars f ++ rest)).head?,
        isDelimiter c = true := by
      intro c hc
      rw [argumentChars_eq] at hc
      rcases head?_bracketed_append _ _ c hc with rfl | hc
      · rfl
      · rcases head?_bracketed_append _ rest c hc with rfl | hc
        · rfl
        · exact isDelimiter_of_isClosing (closes c hc)
    have named := name_append legible.here.name ends
    have arguments := reads_arguments hn legible.here sound.here (show _ ≤ n by omega) noParenthesis
    have selected := reads_selections (fun g hg => (legible.of_mem hg).here) sound.here
      (fun g hg => ih g hg (legible.of_mem hg) (sound.of_mem hg)) (show _ ≤ n by omega) noBrace
    rw [chars_field, List.append_assoc, List.append_assoc, field, ← outline_eq_of_selections]
    simp only [named, arguments, selected, Option.bind_eq_bind, Option.bind_some]
    rfl

/-! ## Operations -/

theorem isName_keyword (type : OperationType) : isName type.keyword = true := by
  cases type <;> decide

theorem operationType?_keyword (type : OperationType) :
    operationType? type.keyword = some type := by
  cases type <;> rfl

theorem reads_operation (hn : ReadsNumbers number? number)
    {o : Operation} (legible : o.root.Everywhere Field.Legible) (sound : o.root.WellFormed)
    {n : Nat} (long : o.chars.length ≤ n) :
    Reads (operation number? n) o.chars (o.type, o.root.outline number) := by
  intro rest _
  rw [Operation.chars, List.length_append, List.length_cons, List.length_append] at long
  have keyword : name (o.type.keyword.toList ++ '{' :: (o.root.chars ++ '}' :: rest)) =
      some (o.type.keyword, '{' :: (o.root.chars ++ '}' :: rest)) :=
    name_append (isName_keyword o.type) (by simp [isDelimiter])
  have each : ∀ f ∈ [o.root], Reads (field number? n) f.chars (f.outline number) := by
    intro f hf
    cases List.mem_singleton.mp hf
    exact reads_field hn legible sound (by omega)
  have root := separated_intercalate (rfl : isClosing '}' = true) (by decide)
    (show [o.root].length ≤ n by simp; omega) each (List.cons_ne_nil _ _) rest
  rw [List.map_singleton, List.intercalate_singleton] at root
  rw [Operation.chars, List.append_assoc, List.cons_append, List.append_assoc,
    List.singleton_append, operation]
  simp only [keyword, operationType?_keyword, optional, root, Option.bind_eq_bind, Option.bind_some]
  rfl

end Numbers

end Reader

end GraphQLDoc
