import GraphQLDoc.Proofs.Chains
import GraphQLDoc.Proofs.Layout

/-!
# Cutting documents

The parts of a document stand one right after the other. Each declaration with content ends with the
brace that closes its outermost bracket, and no other brace on the way does so.

* `cutFrom`, `pieces`, `leftover`: a text cut behind each such brace, and what comes after the last
  one.
* `Uncut`, `Lead`, `Piece`: no cut falls into the text, or exactly one does, behind its last
  character.
* `piece_field`, `piece_operation`: fields with content and operations are pieces.
* `lead_leaf`: within a field without content there is no cut.
* `parts_document`: a document is cut into the texts that it was made of.
-/

namespace GraphQLDoc

/-! ## Cuts -/

/-- The pieces of a text, each up to a brace that closes the only open bracket, and what comes after
the last such brace. The characters in `piece` were read since the cut before. -/
def cutFrom : Position → List Char → List Char → List (List Char) × List Char
  | _, piece, [] => ([], piece)
  | p, piece, c :: cs =>
    if p = ⟨.outside, 1⟩ ∧ c = '}' then
      let (more, rest) := cutFrom (p.next c) [] cs
      ((piece ++ [c]) :: more, rest)
    else cutFrom (p.next c) (piece ++ [c]) cs

/-- The pieces that end with a brace. -/
def pieces (text : String) : List String := (cutFrom .start [] text.toList).1.map String.ofList

/-- What comes after the last of these braces. -/
def leftover (text : String) : String := String.ofList (cutFrom .start [] text.toList).2

/-- All parts of a text: its pieces, and what is left over if anything is. -/
def parts (text : String) : List String :=
  if leftover text = "" then pieces text else pieces text ++ [leftover text]

/-- From the position on, no cut falls into the text. -/
def Uncut (p : Position) (text : List Char) : Prop :=
  ∀ piece rest, cutFrom p piece (text ++ rest) = cutFrom (p.after text) (piece ++ text) rest

/-- Outside of brackets, the text is passed without a cut. -/
def Lead (text : List Char) : Prop :=
  ∀ piece rest, cutFrom .start piece (text ++ rest) = cutFrom .start (piece ++ text) rest

/-- After the text a cut falls, and none falls into it. -/
def Piece (text : List Char) : Prop :=
  ∀ rest, cutFrom .start [] (text ++ rest) =
    (text :: (cutFrom .start [] rest).1, (cutFrom .start [] rest).2)

section Cuts

variable {p : Position} {text more : List Char}

theorem uncut_nil (p : Position) : Uncut p [] := fun piece rest => by
  rw [Position.after_nil, List.nil_append, List.append_nil]

theorem Uncut.cons {c : Char} (h : ¬(p = ⟨.outside, 1⟩ ∧ c = '}')) (hc : Uncut (p.next c) text) :
    Uncut p (c :: text) := by
  intro piece rest
  rw [List.cons_append, cutFrom, if_neg h, hc, Position.after_cons, List.append_assoc,
    List.singleton_append]

theorem Uncut.append (h : Uncut p text) (hm : Uncut (p.after text) more) :
    Uncut p (text ++ more) := by
  intro piece rest
  rw [List.append_assoc, h, hm, Position.after_append, List.append_assoc]

/-- Without braces that close anything there is no cut. -/
theorem uncut_plain (h : ∀ c ∈ text, c ≠ '}') : Uncut p text := by
  induction text generalizing p with
  | nil => exact uncut_nil p
  | cons c text ih =>
    obtain ⟨first, others⟩ := List.forall_mem_cons.mp h
    exact .cons (fun ends => first ends.2) (ih others)

/-- Below an open bracket, a text that closes only what it opens never closes this bracket. -/
theorem uncut_raise (h : p.Balanced text) : Uncut (p.raise 1) text := by
  induction text generalizing p with
  | nil => exact uncut_nil _
  | cons c text ih =>
    have below : ¬(p.raise 1 = ⟨.outside, 1⟩ ∧ c = '}') := by
      rintro ⟨only, closes⟩
      have outside : p.place = .outside := congrArg Position.place only
      have level : p.level + 1 = 0 + 1 := congrArg Position.level only
      exact h.1 ⟨outside, Nat.succ.inj level, .inl closes⟩
    have rest := ih h.2
    rw [← Position.next_raise h.1] at rest
    exact .cons below rest

theorem Uncut.lead (h : Uncut .start text) (returns : Position.start.after text = .start) :
    Lead text := fun piece rest => by rw [h, returns]

theorem Lead.append (h : Lead text) (hm : Lead more) : Lead (text ++ more) := by
  intro piece rest
  rw [List.append_assoc, h, hm, List.append_assoc]

theorem lead_unmarked (h : ∀ c ∈ text, isMark c = false) : Lead text := by
  have plain : ∀ c ∈ text, c ≠ '}' := fun c hc => (isMark_eq_false_iff.mp (h c hc)).2.1
  exact (uncut_plain plain).lead (Position.copies_plain h).after

theorem lead_parentheses (h : Closed text) : Lead ('(' :: (text ++ [')'])) := by
  have inside : Uncut (Position.start.raise 1) text := uncut_raise h.balanced
  have close : ∀ c ∈ [')'], c ≠ '}' := List.forall_mem_singleton.mpr (by decide)
  have uncut : Uncut .start ('(' :: (text ++ [')'])) :=
    .cons (by decide) (inside.append (uncut_plain close))
  exact uncut.lead (h.brackets (.inr ⟨rfl, rfl⟩)).returns

theorem cutFrom_braces (h : Closed text) (piece rest : List Char) :
    cutFrom .start piece ('{' :: (text ++ ['}']) ++ rest) =
      ((piece ++ '{' :: (text ++ ['}'])) :: (cutFrom .start [] rest).1,
        (cutFrom .start [] rest).2) := by
  have inside : Uncut (Position.start.raise 1) text := uncut_raise h.balanced
  have opened : Position.start.next '{' = Position.start.raise 1 := rfl
  have reached : (Position.start.raise 1).after text = ⟨.outside, 1⟩ := h.after 1
  have closed : (Position.mk .outside 1).next '}' = .start := rfl
  rw [List.cons_append, cutFrom, if_neg (by decide), opened, List.append_assoc, inside, reached,
    List.singleton_append, cutFrom, if_pos ⟨rfl, rfl⟩, closed, List.append_assoc, List.append_assoc,
    List.singleton_append]

/-- A text up to braces around something that is closed. -/
theorem Lead.piece (h : Lead text) (hm : Closed more) : Piece (text ++ '{' :: (more ++ ['}'])) := by
  intro rest
  rw [List.append_assoc, h, cutFrom_braces hm, List.nil_append]

theorem Lead.cutFrom_eq (h : Lead text) : cutFrom .start [] text = ([], text) := by
  have whole := h [] []
  rw [List.append_nil, List.nil_append] at whole
  exact whole

theorem cutFrom_flatMap {α : Type} {xs : List α} {print : α → List Char}
    (h : ∀ x ∈ xs, Piece (print x)) :
    cutFrom .start [] (xs.flatMap print) = (xs.map print, []) := by
  induction xs with
  | nil => rfl
  | cons x xs ih =>
    obtain ⟨first, others⟩ := List.forall_mem_cons.mp h
    rw [List.flatMap_cons, first, ih others, List.map_cons]

end Cuts

/-! ## Trees -/

section Trees

variable {f : Field} (unmarked : f.Everywhere Field.Unmarked) (sound : f.WellFormed)

include unmarked sound

/-- The entries between the parentheses of a field. -/
theorem closed_arguments :
    Closed (List.intercalate [','] (f.arguments.map fun e => e.1.toList ++ ':' :: e.2.chars)) := by
  have entries : Shows 0 0 _ _ :=
    shows_onLines fun e he => shows_argument he unmarked.here sound.here
  exact entries.closed

/-- The selections between the braces of a field. -/
theorem closed_selections :
    Closed (List.intercalate [','] ((Reader.selections f).map
      (Sum.elim Field.chars Field.spreadChars))) := by
  have selections : Shows 0 0 _ _ := shows_onLines fun s hs =>
    shows_selection hs sound.here fun g hg => shows_field (unmarked.of_mem hg) (sound.of_mem hg)
  exact selections.closed

/-- The name and the arguments of a field. -/
theorem lead_head : Lead (f.name.toList ++ Field.argumentChars f.arguments) := by
  have name : Lead f.name.toList := lead_unmarked unmarked.here.name
  rw [Reader.argumentChars_eq, Reader.bracketed]
  split
  · rw [List.append_nil]
    exact name
  · exact name.append (lead_parentheses (closed_arguments unmarked sound))

theorem piece_field (content : f.isLeaf = false) : Piece f.chars := by
  have selected : Reader.selectedChars f = '{' :: (List.intercalate [','] ((Reader.selections f).map
      (Sum.elim Field.chars Field.spreadChars)) ++ ['}']) := by
    have nonempty : (Reader.selections f).isEmpty = false := by
      simpa [Reader.selections, Field.isLeaf] using content
    rw [Reader.selectedChars, Reader.bracketed, List.isEmpty_map, nonempty]
    rfl
  rw [Reader.chars_field, ← List.append_assoc, selected]
  exact (lead_head unmarked sound).piece (closed_selections unmarked sound)

theorem lead_leaf (leaf : f.isLeaf = true) : Lead f.chars := by
  have selected : Reader.selectedChars f = [] := by
    have empty : (Reader.selections f).isEmpty = true := by
      simpa [Reader.selections, Field.isLeaf] using leaf
    rw [Reader.selectedChars, Reader.bracketed, List.isEmpty_map, empty]
    rfl
  rw [Reader.chars_field, selected, List.append_nil]
  exact lead_head unmarked sound

end Trees

theorem piece_operation {o : Operation} (unmarked : o.root.Everywhere Field.Unmarked)
    (sound : o.root.WellFormed) : Piece o.chars := by
  have word := Reader.isDelimiter_eq_false_of_isName (Reader.isName_keyword o.type)
  have keyword : Lead o.type.keyword.toList :=
    lead_unmarked fun c hc => isMark_eq_false_of_isDelimiter (word c hc)
  have root : Shows 0 0 o.root.chars _ := shows_field unmarked sound
  exact keyword.piece root.closed

/-! ## Documents -/

/-- A field without anything selected is sent. -/
def Sendable.isLeaf : Sendable → Bool
  | .field f => f.isLeaf
  | .operation _ => false

theorem piece_sendable {x : Sendable} (unmarked : x.root.Everywhere Field.Unmarked)
    (sound : x.root.WellFormed) (content : x.isLeaf = false) : Piece x.chars := by
  cases x with
  | field f => exact piece_field unmarked sound content
  | operation o => exact piece_operation unmarked sound

theorem Field.text_ne_empty {f : Field} (named : f.name ≠ "") : f.text ≠ "" := by
  intro empty
  have chars : f.chars = [] := by simpa [Field.text] using empty
  rw [Reader.chars_field] at chars
  exact named (String.toList_eq_nil_iff.mp (List.append_eq_nil_iff.mp chars).1)

theorem parts_eq_of_cutFrom {text : String} {texts : List (List Char)}
    (h : cutFrom .start [] text.toList = (texts, [])) :
    parts text = texts.map String.ofList ∧ leftover text = "" := by
  have nothing : leftover text = "" := by rw [leftover, h, String.ofList_nil]
  rw [parts, if_pos nothing, pieces, h]
  exact ⟨rfl, nothing⟩

theorem parts_eq_of_uncut {text : String} (h : cutFrom .start [] text.toList = ([], text.toList))
    (nonempty : text ≠ "") : parts text = [text] ∧ leftover text = text := by
  have all : leftover text = text := by rw [leftover, h, String.ofList_toList]
  rw [parts, all, if_neg nonempty, pieces, h]
  exact ⟨rfl, rfl⟩

theorem parts_leaf {f : Field} (unmarked : f.Everywhere Field.Unmarked) (sound : f.WellFormed)
    (leaf : f.isLeaf = true) : parts f.text = [f.text] ∧ leftover f.text = f.text := by
  refine parts_eq_of_uncut ?_ (Field.text_ne_empty sound.here.named)
  rw [Field.text, String.toList_ofList]
  exact (lead_leaf unmarked sound leaf).cutFrom_eq

/-- A document is cut into the text of what is sent and those of the declarations that it needs, in
order, and nothing is left over. Only a field without anything selected needs no declarations and
is not cut at all. -/
theorem parts_document {ds : Declarations} {x : Sendable} {text : String} (hx : x.root.Reachable)
    (built : ∀ n d, ds.get? n = some d → d.Reachable) (h : ds.document x = .ok text) :
    ∃ declarations, ds.neededBy x.root = .ok declarations ∧
      (x.root.Everywhere Field.Unmarked →
        (∀ d ∈ declarations, d.Everywhere Field.Unmarked ∧ d.isLeaf = false) →
          parts text = x.text :: declarations.map Field.text ∧
            (x.isLeaf = false → leftover text = "") ∧
            (x.isLeaf = true → declarations = [] ∧ leftover text = text)) := by
  obtain ⟨declarations, found, rfl⟩ := Declarations.document_eq_ok_iff.mp h
  refine ⟨declarations, found, fun unmarked listed => ?_⟩
  cases leaf : x.isLeaf with
  | false =>
    have declared : ∀ d ∈ declarations, Piece d.chars := by
      intro d hd
      obtain ⟨n, -, hn⟩ := Declarations.needs_of_mem_neededWithin found hd
      exact piece_field (listed d hd).1 (built n d hn).wellFormed (listed d hd).2
    have cut : cutFrom .start [] (x.chars ++ declarations.flatMap Field.chars) =
        (x.chars :: declarations.map Field.chars, []) := by
      rw [piece_sendable unmarked hx.wellFormed leaf, cutFrom_flatMap declared]
    rw [← String.toList_ofList (l := x.chars ++ _)] at cut
    obtain ⟨whole, nothing⟩ := parts_eq_of_cutFrom cut
    refine ⟨whole.trans ?_, fun _ => nothing, Bool.noConfusion⟩
    rw [List.map_cons, List.map_map]
    rfl
  | true =>
    obtain ⟨f⟩ | o := x
    · obtain rfl : declarations = [] :=
        Except.ok.inj (found.symm.trans (ds.neededBy_of_isLeaf leaf))
      obtain ⟨whole, all⟩ := parts_leaf unmarked hx.wellFormed leaf
      have same :
          String.ofList ((Sendable.field f).chars ++ List.flatMap Field.chars []) = f.text :=
        congrArg String.ofList (List.append_nil _)
      rw [same]
      exact ⟨whole, Bool.noConfusion, fun _ => ⟨rfl, all⟩⟩
    · exact nomatch leaf

theorem unmarked_sampleDeclarations :
    ∀ d ∈ [Declarations.sampleOuter, Declarations.sampleFrag, Declarations.sampleFrag],
      d.Everywhere Field.Unmarked ∧ d.isLeaf = false := by
  have child : Declarations.sampleChild.Everywhere Field.Unmarked :=
    unmarked_of_no_arguments (by decide) rfl (List.forall_mem_nil _)
  have outer : Declarations.sampleOuter.Everywhere Field.Unmarked :=
    unmarked_of_no_arguments (by decide) rfl (List.forall_mem_singleton.mpr child)
  have g : (Field.leaf "g").Everywhere Field.Unmarked :=
    unmarked_of_no_arguments (by decide) rfl (List.forall_mem_nil _)
  have frag : Declarations.sampleFrag.Everywhere Field.Unmarked :=
    unmarked_of_no_arguments (by decide) rfl (List.forall_mem_singleton.mpr g)
  exact List.forall_mem_cons.mpr ⟨⟨outer, rfl⟩, List.forall_mem_cons.mpr
    ⟨⟨frag, rfl⟩, List.forall_mem_singleton.mpr ⟨frag, rfl⟩⟩⟩

theorem parts_document_sampleSearch :
    sampleSearch.Reachable ∧
      (∀ n d, Declarations.sampleDeclarations.get? n = some d → d.Reachable) ∧
      ∃ text, Declarations.sampleDeclarations.document (.operation (.query sampleSearch)) = .ok text ∧
        parts text =
          ["query\x7bsearch(where:\x7bq:\"x,\x7b\\\"\",in:[A,\x7b\x7d]\x7d)" ++
              "\x7bid,...Outer,...Frag\x7d\x7d",
            "fragment Outer on Type\x7bchild\x7b...Frag\x7d\x7d",
            "fragment Frag on Type\x7bg\x7d", "fragment Frag on Type\x7bg\x7d"] ∧
        leftover text = "" := by
  have printed : Declarations.sampleDeclarations.document (.operation (.query sampleSearch)) =
      .ok _ := rfl
  have found : Declarations.sampleDeclarations.neededBy sampleSearch =
      .ok [Declarations.sampleOuter, Declarations.sampleFrag, Declarations.sampleFrag] := rfl
  obtain ⟨declarations, listed, law⟩ :=
    parts_document (x := .operation (.query sampleSearch)) reachable_sampleSearch
      Declarations.reachable_sampleDeclarations printed
  cases Except.ok.inj (listed.symm.trans found)
  obtain ⟨whole, nothing, -⟩ := law unmarked_sampleSearch unmarked_sampleDeclarations
  exact ⟨reachable_sampleSearch, Declarations.reachable_sampleDeclarations, _, printed, whole,
    nothing rfl⟩

end GraphQLDoc
