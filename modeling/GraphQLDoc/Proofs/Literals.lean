import GraphQLDoc.Proofs.Scanning

/-!
# Literals inside texts

A literal stands in a text as one piece. Whoever reads the text finds its end without knowing what
comes after it, and line breaks and spaces are only ever added around it.

* `Position.Inside`: the position and all that a text leads through are inside a literal.
* `literal_delimits_itself`: what a JSON reader and the reader of brackets make of the literal of a
  string, whatever comes after it.
* `Token`, `tokens`: a text as single characters and whole literals. No character is lost.
* `unspaced`, `literals`: the text without the blanks outside of literals, and its literals.
* `indent_adds_blanks`: a text that is shown with line breaks has the same of both.
-/

namespace GraphQLDoc

/-! ## Characters of literals -/

theorem printable_escape (c : Char) : ∀ d ∈ escape c, 32 ≤ d.toNat := by
  have digit : ∀ n : Fin 16, 32 ≤ (Nat.digitChar n).toNat := by decide
  have short : ∀ e : Char, 32 ≤ e.toNat → ∀ d ∈ ['\\', e], 32 ≤ d.toNat := fun e he =>
    List.forall_mem_cons.mpr ⟨by decide, List.forall_mem_singleton.mpr he⟩
  unfold escape
  split_ifs with h₁ h₂ h₃ h₄ h₅ h₆ h₇ control
  iterate 7 exact short _ (by decide)
  · have high := digit ⟨c.toNat / 16, by omega⟩
    have low := digit ⟨c.toNat % 16, by omega⟩
    simp [high, low]
  · exact List.forall_mem_singleton.mpr (Nat.le_of_not_lt control)

/-- A literal holds no control characters, so it stands on one line. -/
theorem printable_quoted (text : List Char) : ∀ c ∈ quoted text, 32 ≤ c.toNat := by
  have body : ∀ c ∈ text.flatMap escape, 32 ≤ c.toNat := by
    intro c hc
    obtain ⟨d, -, hd⟩ := List.mem_flatMap.mp hc
    exact printable_escape d c hd
  have quote : ∀ c ∈ ['"'], 32 ≤ c.toNat := List.forall_mem_singleton.mpr (by decide)
  exact List.forall_mem_cons.mpr ⟨by decide, List.forall_mem_append.mpr ⟨body, quote⟩⟩

namespace Position

variable {p : Position} {text more : List Char}

/-! ## Inside of a literal -/

/-- Neither the position nor any that the text leads to is outside of literals. -/
def Inside : Position → List Char → Prop
  | p, [] => p.place ≠ .outside
  | p, c :: cs => p.place ≠ .outside ∧ Inside (p.next c) cs

theorem inside_append : p.Inside (text ++ more) ↔ p.Inside text ∧ (p.after text).Inside more := by
  induction text generalizing p with
  | nil =>
    have here : p.Inside more → p.place ≠ .outside := by
      cases more with
      | nil => exact id
      | cons c more => exact And.left
    exact ⟨fun h => ⟨here h, h⟩, And.right⟩
  | cons c text ih => rw [List.cons_append, Inside, Inside, ih, after_cons, and_assoc]

theorem Inside.after (h : p.Inside text) : (p.after text).place ≠ .outside := by
  induction text generalizing p with
  | nil => exact h
  | cons c text ih => exact ih h.2

theorem inside_plain {level : Nat} (h : ∀ c ∈ text, c ≠ '"' ∧ c ≠ '\\') :
    Inside ⟨.inside, level⟩ text := by
  induction text with
  | nil => exact Place.noConfusion
  | cons c text ih =>
    obtain ⟨⟨quote, backslash⟩, others⟩ := List.forall_mem_cons.mp h
    have same : next ⟨.inside, level⟩ c = ⟨.inside, level⟩ := by simp [next, quote, backslash]
    exact ⟨Place.noConfusion, same.symm ▸ ih others⟩

theorem inside_escape (c : Char) (level : Nat) : Inside ⟨.inside, level⟩ (escape c) := by
  rcases spells_escape c with ⟨e, quote, backslash⟩ | ⟨d, cs, e, plain⟩
  · rw [e]
    exact inside_plain (List.forall_mem_singleton.mpr ⟨quote, backslash⟩)
  · rw [e]
    exact ⟨Place.noConfusion, Place.noConfusion, inside_plain plain⟩

theorem inside_flatMap_escape (text : List Char) (level : Nat) :
    Inside ⟨.inside, level⟩ (text.flatMap escape) := by
  induction text with
  | nil => exact Place.noConfusion
  | cons c text ih =>
    rw [List.flatMap_cons, inside_append, (copies_escape c level).after]
    exact ⟨inside_escape c level, ih⟩

/-- Of all that a literal starts with, only the whole literal leads outside again. -/
theorem after_outside_iff {front back : List Char} {level : Nat}
    (whole : quoted text = front ++ back) (some : front ≠ []) :
    ((Position.mk .outside level).after front).place = .outside ↔ back = [] := by
  constructor
  · intro returns
    by_contra more
    obtain ⟨c, front, rfl⟩ := List.exists_cons_of_ne_nil some
    obtain ⟨body, d, rfl⟩ := (List.eq_nil_or_concat' back).resolve_left more
    rw [quoted, List.cons_append, List.cons.injEq, ← List.append_assoc] at whole
    obtain ⟨rfl, tail⟩ := whole
    obtain ⟨spelled, -⟩ := List.append_inj' tail rfl
    have inside := inside_flatMap_escape text level
    rw [spelled, inside_append] at inside
    exact inside.1.after returns
  · rintro rfl
    rw [List.append_nil] at whole
    rw [← whole, (copies_quoted text level).after]

end Position

/-- The literal of a string, with any text after it. A reader of JSON takes exactly the literal and
gets the string back. Every character of it is printable. Where a text is shown with line breaks the
literal is copied as it stands, and the scan is outside of literals again at the last character of
the literal and not before, on the level that it started from. -/
theorem literal_delimits_itself (s : String) (rest : List Char) :
    Reader.string ((Value.string s).chars ++ rest) = some (s.toList, rest) ∧
      (∀ c ∈ (Value.string s).chars, 32 ≤ c.toNat) ∧
      ∀ width level,
        indentedFrom width .outside level ((Value.string s).chars ++ rest) =
          (Value.string s).chars ++ indentedFrom width .outside level rest ∧
        (Position.mk .outside level).after (Value.string s).chars = ⟨.outside, level⟩ ∧
        ∀ front back, (Value.string s).chars = front ++ back → front ≠ [] →
          (((Position.mk .outside level).after front).place = .outside ↔ back = []) := by
  have spelled : (Value.string s).chars = quoted s.toList := rfl
  rw [spelled]
  refine ⟨Reader.string_quoted s.toList rest, printable_quoted s.toList, fun width level => ?_⟩
  have copies := Position.copies_quoted s.toList level
  have parts := indentedFrom_append width ⟨.outside, level⟩ (quoted s.toList) rest
  rw [copies.shown, copies.after] at parts
  exact ⟨parts, copies.after, fun _ _ => Position.after_outside_iff⟩

theorem literal_delimits_itself_backslash :
    Reader.string ((Value.string "a\\\n").chars ++ ['"']) = some ("a\\\n".toList, ['"']) ∧
      (Value.string "a\\\n").chars = ['"', 'a', '\\'] ++ ['\\', '\\', 'n', '"'] ∧
      ['"', 'a', '\\'] ≠ [] ∧
      ((Position.mk .outside 3).after ['"', 'a', '\\']).place ≠ .outside := by
  obtain ⟨read, -, scanned⟩ := literal_delimits_itself "a\\\n" ['"']
  obtain ⟨-, -, stops⟩ := scanned 2 3
  have spelled : (Value.string "a\\\n").chars =
      ['"', 'a', '\\'] ++ ['\\', '\\', 'n', '"'] := rfl
  refine ⟨read, spelled, List.cons_ne_nil _ _, fun returns => ?_⟩
  exact List.cons_ne_nil _ _ ((stops _ _ spelled (List.cons_ne_nil _ _)).mp returns)

/-! ## Texts as literals and single characters -/

/-- A part of a text that a change of its layout leaves as it is. -/
inductive Token where
  /-- A character outside of literals. -/
  | single (c : Char)
  /-- A literal with its quotes. The last one of a text may lack its closing quote. -/
  | literal (text : List Char)
  deriving DecidableEq

namespace Token

def chars : Token → List Char
  | .single c => [c]
  | .literal text => text

/-- Spaces and line breaks outside of literals. -/
def isBlank : Token → Bool
  | .single c => c == ' ' || c == '\n'
  | .literal _ => false

def literal? : Token → Option (List Char)
  | .single _ => none
  | .literal text => some text

end Token

/-- The tokens of the rest of a text. Inside of a literal, `part` is what was read of it. -/
def tokensFrom : Place → List Char → List Char → List Token
  | .outside, _, [] => []
  | _, part, [] => [.literal part]
  | .outside, _, c :: cs =>
    if c = '"' then tokensFrom .inside ['"'] cs else .single c :: tokensFrom .outside [] cs
  | .inside, part, c :: cs =>
    if c = '"' then .literal (part ++ ['"']) :: tokensFrom .outside [] cs
    else if c = '\\' then tokensFrom .escaped (part ++ ['\\']) cs
    else tokensFrom .inside (part ++ [c]) cs
  | .escaped, part, c :: cs => tokensFrom .inside (part ++ [c]) cs

/-- The tokens of a text. A literal goes from a quote to the next quote that no backslash escapes,
or to the end of the text. -/
def tokens (text : String) : List Token := tokensFrom .outside [] text.toList

/-- The text without the spaces and line breaks outside of its literals. -/
def unspaced (text : String) : String :=
  String.ofList (((tokens text).filter fun t => !t.isBlank).flatMap Token.chars)

/-- The literals of a text, in their order. -/
def literals (text : String) : List (List Char) := (tokens text).filterMap Token.literal?

/-! ## Blanks -/

/-- The tokens that are kept when blanks are left out. -/
def keptFrom (p : Place) (part text : List Char) : List Token :=
  (tokensFrom p part text).filter fun t => !t.isBlank

def IsBlank (c : Char) : Prop := c = ' ' ∨ c = '\n'

theorem chars_tokensFrom (p : Place) (part text : List Char) :
    (tokensFrom p part text).flatMap Token.chars =
      if p = .outside then text else part ++ text := by
  induction text generalizing p part with
  | nil => cases p <;> simp [tokensFrom, Token.chars]
  | cons c text ih =>
    cases p with
    | outside =>
      rw [tokensFrom]
      by_cases quote : c = '"'
      · simp [quote, ih]
      · simp [quote, ih, Token.chars]
    | inside =>
      rw [tokensFrom]
      by_cases quote : c = '"'
      · simp [quote, ih, Token.chars]
      · by_cases backslash : c = '\\' <;> simp [quote, backslash, ih]
    | escaped => simp [tokensFrom, ih]

theorem keptFrom_outside (part text : List Char) :
    keptFrom .outside part text = keptFrom .outside [] text := by
  cases text <;> rfl

theorem keptFrom_single {c : Char} (h : c ≠ '"') (rest : List Char) :
    keptFrom .outside [] (c :: rest) =
      [Token.single c].filter (fun t => !t.isBlank) ++ keptFrom .outside [] rest := by
  rw [keptFrom, tokensFrom, if_neg h, ← List.singleton_append, List.filter_append, keptFrom]

theorem keptFrom_blanks {blanks : List Char} (h : ∀ c ∈ blanks, IsBlank c) (rest : List Char) :
    keptFrom .outside [] (blanks ++ rest) = keptFrom .outside [] rest := by
  induction blanks with
  | nil => rfl
  | cons c blanks ih =>
    obtain ⟨first, others⟩ := List.forall_mem_cons.mp h
    have step : ∀ d, IsBlank d → keptFrom .outside [] (d :: (blanks ++ rest)) =
        keptFrom .outside [] (blanks ++ rest) := by
      rintro d (rfl | rfl) <;> rfl
    rw [List.cons_append, step c first, ih others]

theorem keptFrom_plain {c : Char} (quote : c ≠ '"') (backslash : c ≠ '\\')
    (part rest : List Char) :
    keptFrom .inside part (c :: rest) = keptFrom .inside (part ++ [c]) rest := by
  rw [keptFrom, tokensFrom, if_neg quote, if_neg backslash, keptFrom]

theorem isBlank_of_mem_margin {width level : Nat} {c : Char} (h : c ∈ margin width level) :
    IsBlank c := .inl (List.eq_of_mem_replicate h)

/-- Outside of literals there may be blanks on both sides of a character. -/
theorem shown_outside (width level : Nat) (c : Char) :
    ∃ before behind, Position.shown width ⟨.outside, level⟩ c = before ++ c :: behind ∧
      (∀ d ∈ before, IsBlank d) ∧ (∀ d ∈ behind, IsBlank d) ∧
      (c = '"' → before = [] ∧ behind = []) := by
  have newline : IsBlank '\n' := .inr rfl
  have space : IsBlank ' ' := .inl rfl
  have line : ∀ k, ∀ d ∈ '\n' :: margin width k, IsBlank d := fun k =>
    List.forall_mem_cons.mpr ⟨newline, fun _ => isBlank_of_mem_margin⟩
  have nothing : ∀ d ∈ ([] : List Char), IsBlank d := List.forall_mem_nil _
  rw [Position.shown]
  split_ifs with opening closing comma colon
  · refine ⟨[' '], _, rfl, List.forall_mem_singleton.mpr space, line _, ?_⟩
    rintro rfl
    exact absurd opening (by decide)
  · refine ⟨_, [], rfl, line _, nothing, ?_⟩
    rintro rfl
    exact absurd closing (by decide)
  · subst comma
    exact ⟨[], _, rfl, nothing, line _, fun quote => absurd quote (by decide)⟩
  · subst colon
    exact ⟨[], [' '], rfl, nothing, List.forall_mem_singleton.mpr space,
      fun quote => absurd quote (by decide)⟩
  · exact ⟨[], [], rfl, nothing, nothing, fun _ => ⟨rfl, rfl⟩⟩

/-- Of the tokens of a shown text, those are kept that are kept of the text itself. -/
theorem keptFrom_indentedFrom (width : Nat) (p : Position) (part text : List Char) :
    keptFrom p.place part (indentedFrom width p.place p.level text) =
      keptFrom p.place part text := by
  induction text generalizing p part with
  | nil => rw [indentedFrom_nil]
  | cons c text ih =>
    rw [indentedFrom_cons]
    obtain ⟨place, level⟩ := p
    cases place with
    | outside =>
      obtain ⟨before, behind, spelled, blank, blanks, tight⟩ := shown_outside width level c
      rw [keptFrom_outside, keptFrom_outside part, spelled]
      by_cases quote : c = '"'
      · obtain ⟨rfl, rfl⟩ := tight quote
        subst quote
        exact ih ⟨.inside, level⟩ ['"']
      · have outside : (Position.next ⟨.outside, level⟩ c).place = .outside := by
          rw [Position.next]
          split_ifs <;> rfl
        have rest := ih (Position.next ⟨.outside, level⟩ c) []
        rw [outside] at rest ⊢
        rw [List.append_assoc, List.cons_append, keptFrom_blanks blank, keptFrom_single quote,
          keptFrom_blanks blanks, rest, keptFrom_single quote]
    | inside =>
      by_cases quote : c = '"'
      · subst quote
        exact congrArg (Token.literal (part ++ ['"']) :: ·) (ih ⟨.outside, level⟩ [])
      by_cases backslash : c = '\\'
      · subst backslash
        exact ih ⟨.escaped, level⟩ (part ++ ['\\'])
      have stays : Position.next ⟨.inside, level⟩ c = ⟨.inside, level⟩ := by
        rw [Position.next, if_neg quote, if_neg backslash]
      rw [stays, keptFrom_plain quote backslash]
      exact (keptFrom_plain quote backslash _ _).trans (ih ⟨.inside, level⟩ (part ++ [c]))
    | escaped => exact ih ⟨.inside, level⟩ (part ++ [c])

/-- No character of a text is lost, not even a blank. -/
theorem sublist_indentedFrom (width : Nat) (p : Position) (text : List Char) :
    text.Sublist (indentedFrom width p.place p.level text) := by
  induction text generalizing p with
  | nil => exact List.nil_sublist _
  | cons c text ih =>
    have here : [c].Sublist (p.shown width c) := by
      obtain ⟨place, level⟩ := p
      cases place with
      | outside =>
        obtain ⟨before, behind, spelled, -⟩ := shown_outside width level c
        rw [spelled, List.singleton_sublist]
        exact List.mem_append_right before List.mem_cons_self
      | inside => exact List.Sublist.refl _
      | escaped => exact List.Sublist.refl _
    rw [indentedFrom_cons, ← List.singleton_append]
    exact here.append (ih (p.next c))

theorem literals_eq (text : String) :
    literals text = (keptFrom .outside [] text.toList).filterMap Token.literal? := by
  have blank : ∀ t : Token, (if t.isBlank then none else t.literal?) = t.literal? := by
    intro t
    cases t <;> simp [Token.isBlank, Token.literal?]
  rw [literals, tokens, keptFrom, List.filterMap_filter]
  congr 1
  funext t
  simpa using (blank t).symm

/-- Whatever a text looks like, showing it with line breaks adds nothing but blanks outside of its
literals. Without such blanks it is the text without such blanks, and the literals of both are the
same, one by one. -/
theorem indent_adds_blanks (width : Nat) (text : String) :
    unspaced (indent width text) = unspaced text ∧
      literals (indent width text) = literals text ∧
      text.toList.Sublist (indent width text).toList ∧
      (tokens text).flatMap Token.chars = text.toList := by
  have kept : keptFrom .outside [] (indent width text).toList =
      keptFrom .outside [] text.toList := by
    rw [indent, String.toList_ofList]
    exact keptFrom_indentedFrom width .start [] text.toList
  refine ⟨?_, ?_, ?_, chars_tokensFrom .outside [] text.toList⟩
  · exact congrArg (fun ts => String.ofList (List.flatMap Token.chars ts)) kept
  · rw [literals_eq, literals_eq, kept]
  · rw [indent, String.toList_ofList]
    exact sublist_indentedFrom width .start text.toList

/-- A backslash takes the quote behind it into the literal, and the text may end inside of one. -/
example : literals (indent 2 ")(a:\"x,(\\\"\",\"y (") = ["\"x,(\\\"\"".toList, "\"y (".toList] := by
  decide

end GraphQLDoc
