import GraphQLDoc.Proofs.Decoding
import GraphQLDoc.Proofs.Scanning

/-!
# The layout of trees

With line breaks, the text of a field looks as if it had been laid out along the tree.

* `Value.layout`, `Field.layout`, `Operation.layout`: the layout by recursion on the tree.
* `Shows`: the same by rules on texts, one for each kind of thing that a text is made of.
* `Value.Unmarked`, `Field.Unmarked`: no name holds a character that has a meaning for the layout.
* `Shows.indentedFrom`, `Shows.closed`: what the rules give is what reading the text from left to
  right gives, and such a text leads back to the position that it starts from.
* `indent_eq_layout`: all texts of fields and operations.
-/

namespace GraphQLDoc

/-! ## Layout -/

/-- Entries with a comma and a line break in between, all on one level. -/
def onLines (width level : Nat) (entries : List (List Char)) : List Char :=
  List.intercalate (',' :: '\n' :: margin width level) entries

/-- Entries between brackets, on lines of the next level. Even without entries there is a line. -/
def block (width level : Nat) (opening close : Char) (entries : List (List Char)) : List Char :=
  ' ' :: opening :: '\n' :: (margin width (level + 1) ++ (onLines width (level + 1) entries ++
    '\n' :: (margin width level ++ [close])))

/-- The same, if there are entries. -/
def blockOfSome (width level : Nat) (opening close : Char) (entries : List (List Char)) :
    List Char :=
  if entries.isEmpty then [] else block width level opening close entries

mutual

/-- The layout of a value on a level. A list stays on the level and an object opens a new one. All
other literals stand as they are. -/
def Value.layout (width : Nat) : Nat → Value → List Char
  | level, .list items => '[' :: (onLines width level (Value.itemLayouts width level items) ++ [']'])
  | level, .object entries =>
    block width level '{' '}' (Value.entryLayouts width (level + 1) entries)
  | _, v => v.chars

def Value.itemLayouts (width level : Nat) : List Value → List (List Char)
  | [] => []
  | v :: vs => v.layout width level :: Value.itemLayouts width level vs

/-- Entries are laid out as key, colon, space and value. -/
def Value.entryLayouts (width level : Nat) : List (String × Value) → List (List Char)
  | [] => []
  | (key, v) :: rest =>
    (key.toList ++ ':' :: ' ' :: v.layout width level) :: Value.entryLayouts width level rest

end

mutual

/-- The layout of a field on a level. Its arguments and its selections stand on the next one. -/
def Field.layout (width : Nat) : Nat → Field → List Char
  | level, ⟨name, arguments, subfields, spreads⟩ =>
    name.toList ++
      (blockOfSome width level '(' ')' (Value.entryLayouts width (level + 1) arguments) ++
        blockOfSome width level '{' '}'
          (Field.layouts width (level + 1) subfields ++ spreads.map Field.spreadChars))

def Field.layouts (width level : Nat) : List Field → List (List Char)
  | [] => []
  | f :: fs => f.layout width level :: Field.layouts width level fs

end

def Operation.layout (width : Nat) (o : Operation) : List Char :=
  o.type.keyword.toList ++ block width 0 '{' '}' [o.root.layout width 1]

def Sendable.layout (width : Nat) : Sendable → List Char
  | .field f => f.layout width 0
  | .operation o => o.layout width

theorem Value.itemLayouts_eq_map (width level : Nat) (items : List Value) :
    Value.itemLayouts width level items = items.map (Value.layout width level) := by
  induction items with
  | nil => rfl
  | cons v vs ih => rw [Value.itemLayouts, ih, List.map_cons]

theorem Value.entryLayouts_eq_map (width level : Nat) (entries : List (String × Value)) :
    Value.entryLayouts width level entries =
      entries.map fun e => e.1.toList ++ ':' :: ' ' :: e.2.layout width level := by
  induction entries with
  | nil => rfl
  | cons entry rest ih => rw [Value.entryLayouts, ih, List.map_cons]

theorem Field.layouts_eq_map (width level : Nat) (fields : List Field) :
    Field.layouts width level fields = fields.map (Field.layout width level) := by
  induction fields with
  | nil => rfl
  | cons f fs ih => rw [Field.layouts, ih, List.map_cons]

theorem Field.layout_eq (width level : Nat) (f : Field) :
    f.layout width level =
      f.name.toList ++
        (blockOfSome width level '(' ')' (f.arguments.map fun e =>
            e.1.toList ++ ':' :: ' ' :: e.2.layout width (level + 1)) ++
          blockOfSome width level '{' '}' ((Reader.selections f).map
            (Sum.elim (Field.layout width (level + 1)) Field.spreadChars))) := by
  cases f
  rw [Field.layout, Value.entryLayouts_eq_map, Field.layouts_eq_map]
  simp [Reader.selections, Function.comp_def]

/-! ## Rules -/

/-- On a level the text is shown as the second text. -/
inductive Shows (width : Nat) : Nat → List Char → List Char → Prop
  | nil (level : Nat) : Shows width level [] []
  | char (level : Nat) {c : Char} (h : isMark c = false) : Shows width level [c] [c]
  | literal (level : Nat) (text : List Char) : Shows width level (quoted text) (quoted text)
  | comma (level : Nat) : Shows width level [','] (',' :: '\n' :: margin width level)
  | colon (level : Nat) : Shows width level [':'] [':', ' ']
  | brackets {level : Nat} {opening close : Char} {text shown : List Char}
      (pair : IsPair opening close) (h : Shows width (level + 1) text shown) :
      Shows width level (opening :: (text ++ [close]))
        (' ' :: opening :: '\n' :: (margin width (level + 1) ++ (shown ++
          '\n' :: (margin width level ++ [close]))))
  | append {level : Nat} {text shown more moreShown : List Char} (h : Shows width level text shown)
      (hm : Shows width level more moreShown) :
      Shows width level (text ++ more) (shown ++ moreShown)

namespace Shows

variable {width level : Nat} {text shown : List Char}

theorem closed (h : Shows width level text shown) : Closed text := by
  induction h with
  | nil => exact .of_copies (Position.copies_nil _)
  | char _ h =>
    exact .of_copies (Position.copies_plain (List.forall_mem_singleton.mpr h))
  | literal _ text => exact .of_copies (Position.copies_quoted text 0)
  | comma => exact .of_char (by decide)
  | colon => exact .of_char (by decide)
  | brackets pair _ ih => exact ih.brackets pair
  | append _ _ ih ihm => exact ih.append ihm

theorem indentedFrom (h : Shows width level text shown) :
    indentedFrom width .outside level text = shown := by
  induction h with
  | nil level => exact indentedFrom_nil width ⟨.outside, level⟩
  | char _ h => exact (Position.copies_plain (List.forall_mem_singleton.mpr h)).shown width
  | literal level text => exact (Position.copies_quoted text level).shown width
  | comma => exact congrArg (fun line => ',' :: '\n' :: line) (List.append_nil _)
  | colon => rfl
  | @brackets level opening close text shown pair h ih =>
    have inside := indentedFrom_append width ⟨.outside, level + 1⟩ text [close]
    rw [h.closed.after] at inside
    dsimp only at inside
    rcases pair with ⟨rfl, rfl⟩ | ⟨rfl, rfl⟩ <;>
      simp [GraphQLDoc.indentedFrom, inside, ih]
  | @append level text shown more moreShown h _ ih ihm =>
    have parts := indentedFrom_append width ⟨.outside, level⟩ text more
    rw [h.closed.after] at parts
    dsimp only at parts
    rw [parts, ih, ihm]

end Shows

/-! ## Rules for parts of trees -/

section Parts

variable {width level : Nat} {text shown : List Char}

theorem shows_plain (h : ∀ c ∈ text, isMark c = false) : Shows width level text text := by
  induction text with
  | nil => exact .nil level
  | cons c text ih =>
    obtain ⟨first, others⟩ := List.forall_mem_cons.mp h
    exact (Shows.char level first).append (ih others)

theorem isMark_eq_false_of_isDelimiter {c : Char} (h : isDelimiter c = false) :
    isMark c = false := by
  simp only [isDelimiter, List.mem_cons, List.not_mem_nil, or_false, not_or,
    decide_eq_false_iff_not] at h
  simp [isMark, h]

theorem shows_word (h : ∀ c ∈ text, isDelimiter c = false) : Shows width level text text :=
  shows_plain fun c hc => isMark_eq_false_of_isDelimiter (h c hc)

theorem shows_onLines {α : Type} {xs : List α} {print look : α → List Char}
    (h : ∀ x ∈ xs, Shows width level (print x) (look x)) :
    Shows width level (List.intercalate [','] (xs.map print))
      (onLines width level (xs.map look)) := by
  unfold onLines
  induction xs with
  | nil => exact .nil level
  | cons x xs ih =>
    obtain ⟨first, others⟩ := List.forall_mem_cons.mp h
    cases xs with
    | nil =>
      rw [List.map_singleton, List.map_singleton, List.intercalate_singleton,
        List.intercalate_singleton]
      exact first
    | cons y ys =>
      rw [List.map_cons, List.map_cons, List.map_cons, List.map_cons, List.intercalate_cons_cons,
        List.intercalate_cons_cons]
      exact (first.append (Shows.comma level)).append (ih others)

theorem shows_entry {key : List Char} (hk : ∀ c ∈ key, isMark c = false)
    (h : Shows width level text shown) :
    Shows width level (key ++ ':' :: text) (key ++ ':' :: ' ' :: shown) :=
  (shows_plain hk).append ((Shows.colon level).append h)

theorem shows_blockOfSome {α : Type} {xs : List α} {print look : α → List Char}
    {opening close : Char} (pair : IsPair opening close)
    (h : ∀ x ∈ xs, Shows width (level + 1) (print x) (look x)) :
    Shows width level (Reader.bracketed opening close (xs.map print))
      (blockOfSome width level opening close (xs.map look)) := by
  unfold Reader.bracketed blockOfSome
  rw [List.isEmpty_map, List.isEmpty_map]
  split
  · exact .nil level
  · exact .brackets pair (shows_onLines h)

end Parts

/-! ## Trees -/

/-- No character of the name has a meaning for the layout. -/
def Unmarked (name : String) : Prop := ∀ c ∈ name.toList, isMark c = false

instance (name : String) : Decidable (Unmarked name) :=
  List.decidableBAll (fun c => isMark c = false) name.toList

/-- Keys and constants are unmarked. -/
def Value.Unmarked : Value → Prop
  | .enum name => GraphQLDoc.Unmarked name
  | .object entries => ∀ key ∈ Entries.keys entries, GraphQLDoc.Unmarked key
  | _ => True

/-- The name of the field is unmarked, and so are those inside its arguments. -/
structure Field.Unmarked (f : Field) : Prop where
  name : GraphQLDoc.Unmarked f.name
  keys : ∀ key ∈ Entries.keys f.arguments, GraphQLDoc.Unmarked key
  values : ∀ v ∈ f.values, v.Everywhere Value.Unmarked

variable {width level : Nat}

theorem shows_value {v : Value} (unmarked : v.Everywhere Value.Unmarked)
    (faultless : v.Everywhere Value.Faultless) :
    Shows width level v.chars (v.layout width level) := by
  induction v using Value.induction generalizing level with
  | step v ih =>
    cases v with
    | string s => exact .literal level s.toList
    | number n => exact shows_word (n.spells_chars faultless.here).plain
    | boolean b =>
      cases b with
      | false => exact shows_plain (show Unmarked "false" by decide)
      | true => exact shows_plain (show Unmarked "true" by decide)
    | instant t =>
      have literal : Shows width level (quoted t.chars) (quoted t.chars) := .literal level t.chars
      rw [quoted_chars_instant] at literal
      exact literal
    | enum name => exact shows_plain unmarked.here
    | list items =>
      rw [Value.chars_list, Value.layout, Value.itemLayouts_eq_map]
      have inside : Shows width level (List.intercalate [','] (items.map Value.chars))
          (onLines width level (items.map (Value.layout width level))) :=
        shows_onLines fun v hv => ih v hv (unmarked.of_mem hv) (faultless.of_mem hv)
      exact (Shows.char level (by decide)).append (inside.append (Shows.char level (by decide)))
    | object entries =>
      rw [Value.chars_object, Value.layout, Value.entryLayouts_eq_map]
      refine .brackets (.inl ⟨rfl, rfl⟩) (shows_onLines fun e he => ?_)
      have child : e.2 ∈ (Value.object entries).children := List.mem_map_of_mem he
      exact shows_entry (unmarked.here e.1 (List.mem_map_of_mem he))
        (ih e.2 child (unmarked.of_mem child) (faultless.of_mem child))

theorem shows_argument {f : Field} {e : String × Value} (he : e ∈ f.arguments)
    (unmarked : f.Unmarked) (sound : f.Sound) :
    Shows width level (e.1.toList ++ ':' :: e.2.chars)
      (e.1.toList ++ ':' :: ' ' :: e.2.layout width level) := by
  have inside : e.2 ∈ f.values := List.mem_map_of_mem he
  exact shows_entry (unmarked.keys e.1 (List.mem_map_of_mem he))
    (shows_value (unmarked.values e.2 inside)
      ((sound.values e.2 inside).imp fun _ => Value.Sound.faultless))

theorem shows_spread {n : String} (h : isName n = true) :
    Shows width level (Field.spreadChars n) (Field.spreadChars n) := by
  have points : Unmarked "..." := by decide
  exact (shows_plain points).append (shows_word (Reader.isDelimiter_eq_false_of_isName h))

theorem shows_selection {f : Field} {s : Field ⊕ String} (hs : s ∈ Reader.selections f)
    (sound : f.Sound)
    (below : ∀ g ∈ f.subfields, Shows width level g.chars (g.layout width level)) :
    Shows width level (Sum.elim Field.chars Field.spreadChars s)
      (Sum.elim (Field.layout width level) Field.spreadChars s) := by
  rcases s with g | n
  · exact below g (by simpa [Reader.selections] using hs)
  · exact shows_spread (sound.spreadNames n (by simpa [Reader.selections] using hs))

theorem shows_field {f : Field} (unmarked : f.Everywhere Field.Unmarked) (sound : f.WellFormed) :
    Shows width level f.chars (f.layout width level) := by
  induction f using Field.induction generalizing level with
  | step f ih =>
    rw [Reader.chars_field, Reader.argumentChars_eq, Reader.selectedChars, Field.layout_eq]
    refine (shows_plain unmarked.here.name).append
      ((shows_blockOfSome (.inr ⟨rfl, rfl⟩) fun e he => ?_).append
        (shows_blockOfSome (.inl ⟨rfl, rfl⟩) fun s hs => ?_))
    · exact shows_argument he unmarked.here sound.here
    · exact shows_selection hs sound.here fun g hg => ih g hg (unmarked.of_mem hg) (sound.of_mem hg)

theorem shows_operation {o : Operation} (unmarked : o.root.Everywhere Field.Unmarked)
    (sound : o.root.WellFormed) : Shows width 0 o.chars (o.layout width) := by
  have keyword : Shows width 0 o.type.keyword.toList o.type.keyword.toList :=
    shows_word (Reader.isDelimiter_eq_false_of_isName (Reader.isName_keyword o.type))
  have root : Shows width 1 (List.intercalate [','] ([o.root].map Field.chars))
      (onLines width 1 ([o.root].map (Field.layout width 1))) :=
    shows_onLines (List.forall_mem_singleton.mpr (shows_field unmarked sound))
  rw [List.map_singleton, List.intercalate_singleton] at root
  exact keyword.append (root.brackets (.inl ⟨rfl, rfl⟩))

theorem shows_sendable {x : Sendable} (unmarked : x.root.Everywhere Field.Unmarked)
    (sound : x.root.WellFormed) : Shows width 0 x.chars (x.layout width) := by
  cases x with
  | field f => exact shows_field unmarked sound
  | operation o => exact shows_operation unmarked sound

/-- The text of a field or an operation is shown as the tree is laid out, and what follows the text
is shown as if it stood alone: at the end all brackets and literals are closed. Wherever the text is
split, its second part is shown from the position after the first, and there a bracket that closes
meets an open one. -/
theorem indent_eq_layout {x : Sendable} (hx : x.root.Reachable)
    (unmarked : x.root.Everywhere Field.Unmarked) (width : Nat) :
    indent width x.text = String.ofList (x.layout width) ∧
      (∀ rest, indented width (x.chars ++ rest) = x.layout width ++ indented width rest) ∧
      Position.start.after x.chars = .start ∧
      ∀ text c rest p, x.chars = text ++ c :: rest → Position.start.after text = p →
        indented width x.chars =
            indented width text ++ indentedFrom width p.place p.level (c :: rest) ∧
          (p.place = .outside → (c = '}' ∨ c = ')') → 0 < p.level) := by
  have shows' : Shows width 0 x.chars (x.layout width) := shows_sendable unmarked hx.wellFormed
  have closed : Closed x.chars := shows'.closed
  refine ⟨?_, fun rest => ?_, closed.returns, fun text c rest p split reached => ⟨?_, ?_⟩⟩
  · rw [indent, Sendable.text, String.toList_ofList]
    exact congrArg String.ofList shows'.indentedFrom
  · have parts := indentedFrom_append width .start x.chars rest
    rw [closed.returns] at parts
    exact parts.trans (congrArg (· ++ _) shows'.indentedFrom)
  · rw [split, ← reached]
    exact indentedFrom_append width .start text (c :: rest)
  · intro outside closes
    have balanced := closed.balanced
    rw [split] at balanced
    rw [← reached] at outside ⊢
    exact balanced.level_pos closes outside

/-- The object `{q:"x,{\"",in:[A,{}]}`. -/
def sampleWhere : Value :=
  .object [("q", .string "x,\x7b\""), ("in", .list [.enum "A", .object []])]

/-- The field `search(where:{q:"x,{\"",in:[A,{}]}){id,...Outer,...Frag}`. -/
def sampleSearch : Field :=
  { name := "search"
    arguments := [("where", sampleWhere)]
    subfields := [.leaf "id"]
    spreads := ["Outer", "Frag"] }

theorem everywhere_sampleWhere {p : Value → Prop} (whole : p sampleWhere)
    (text : p (.string "x,\x7b\"")) (items : p (.list [.enum "A", .object []]))
    (constant : p (.enum "A")) (empty : p (.object [])) : sampleWhere.Everywhere p := by
  have scalar : ∀ {v : Value}, v.children = [] → p v → v.Everywhere p :=
    fun flat h => (Value.everywhere_of_no_children flat).mpr h
  have list : (Value.list [.enum "A", .object []]).Everywhere p :=
    Value.everywhere_list.mpr ⟨items, List.forall_mem_cons.mpr ⟨scalar rfl constant,
      List.forall_mem_singleton.mpr (scalar rfl empty)⟩⟩
  exact Value.everywhere_object.mpr ⟨whole, List.forall_mem_cons.mpr ⟨scalar rfl text,
    List.forall_mem_singleton.mpr list⟩⟩

theorem reachable_sampleSearch : sampleSearch.Reachable := by
  have filtered : { Field.leaf "search" with arguments := [("where", sampleWhere)] }.Reachable := by
    refine Field.reachable_of_argument (by decide) (by decide) ?_ ?_
    · exact everywhere_sampleWhere (show ["q", "in"].Nodup by decide) trivial trivial trivial
        List.nodup_nil
    · exact everywhere_sampleWhere (show "" ∉ ["q", "in"] by decide) trivial trivial trivial
        List.not_mem_nil
  have selected : { Field.leaf "search" with arguments := [("where", sampleWhere)] }.select
      (.leaf "id") = .ok { sampleSearch with spreads := [] } := rfl
  have spread : { sampleSearch with spreads := [] }.spread ["Outer", "Frag"] =
      .ok sampleSearch := rfl
  exact (filtered.select (List.forall_mem_nil _) selected).spread spread

theorem unmarked_of_no_arguments {f : Field} (name : Unmarked f.name) (bare : f.arguments = [])
    (below : ∀ g ∈ f.subfields, g.Everywhere Field.Unmarked) : f.Everywhere Field.Unmarked := by
  obtain ⟨_, _, _, _⟩ := f
  cases bare
  exact everywhere_iff.mpr ⟨⟨name, List.forall_mem_nil _, List.forall_mem_nil _⟩, below⟩

theorem unmarked_sampleSearch : sampleSearch.Everywhere Field.Unmarked := by
  have values : sampleWhere.Everywhere Value.Unmarked :=
    everywhere_sampleWhere (show ∀ key ∈ ["q", "in"], Unmarked key by decide) trivial trivial
      (show Unmarked "A" by decide) (List.forall_mem_nil _)
  have id : (Field.leaf "id").Everywhere Field.Unmarked :=
    unmarked_of_no_arguments (by decide) rfl (List.forall_mem_nil _)
  have name : Unmarked "search" := by decide
  have key : Unmarked "where" := by decide
  refine everywhere_iff.mpr ⟨⟨name, ?_, ?_⟩, List.forall_mem_singleton.mpr id⟩
  · exact List.forall_mem_singleton.mpr key
  · exact List.forall_mem_singleton.mpr values

theorem indent_eq_layout_sampleSearch :
    sampleSearch.Reachable ∧ sampleSearch.Everywhere Field.Unmarked ∧
      indent 2 (Sendable.field sampleSearch).text =
        "search (\n  where:  \x7b\n    q: \"x,\x7b\\\"\",\n    in: [A,\n     \x7b\n      \n    \x7d]\n" ++
        "  \x7d\n) \x7b\n  id,\n  ...Outer,\n  ...Frag\n\x7d" ∧
      Position.start.after (Sendable.field sampleSearch).chars = .start := by
  obtain ⟨shown, -, returns, -⟩ :=
    indent_eq_layout (x := .field sampleSearch) reachable_sampleSearch unmarked_sampleSearch 2
  exact ⟨reachable_sampleSearch, unmarked_sampleSearch, shown, returns⟩

end GraphQLDoc
