import GraphQLDoc.Proofs.Scanning

/-!
# Texts that are shown alike

The line breaks and spaces that are added can look like those of the text itself: a text may have a
line break and spaces of its own in front of a bracket. It is the bracket that tells them apart, as
no bracket is shown without blanks of its own in front of it.

* `opening_not_first`: outside of literals, what is shown does not start with an opening bracket.
* `closing_not_after_spaces`: it does not start with spaces and then a closing bracket either.
* `eq_of_shown_eq`: texts that are shown alike from one position start with the same character.
* `indentedFrom_inj`, `indent_inj`: texts that are shown alike are the same.
-/

namespace GraphQLDoc

/-- The character opens a level. -/
abbrev IsOpening (c : Char) : Prop := c = '{' ∨ c = '('

/-- The character closes a level. -/
abbrev IsClosing (c : Char) : Prop := c = '}' ∨ c = ')'

variable {width level : Nat} {b c d : Char} {text more rest : List Char}

/-! ## What is shown first -/

namespace Position

theorem shown_opening (width level : Nat) (h : IsOpening c) :
    shown width ⟨.outside, level⟩ c = ' ' :: c :: '\n' :: margin width (level + 1) := if_pos h

theorem shown_closing (width level : Nat) (h : IsClosing c) :
    shown width ⟨.outside, level⟩ c = '\n' :: (margin width (level - 1) ++ [c]) := by
  have other : ¬IsOpening c := by
    rcases h with rfl | rfl <;> decide
  rw [shown, if_neg other, if_pos h]

/-- Blanks in front of a character are those of a bracket. -/
theorem shown_cases (width level : Nat) (c : Char) :
    IsOpening c ∨ IsClosing c ∨
      (¬IsOpening c ∧ ¬IsClosing c ∧ ∃ behind, shown width ⟨.outside, level⟩ c = c :: behind) := by
  by_cases opening : IsOpening c
  · exact .inl opening
  by_cases closing : IsClosing c
  · exact .inr (.inl closing)
  refine .inr (.inr ⟨opening, closing, ?_⟩)
  rw [shown, if_neg opening, if_neg closing]
  split_ifs with comma colon
  · exact ⟨_, congrArg (· :: _) comma.symm⟩
  · exact ⟨_, congrArg (· :: _) colon.symm⟩
  · exact ⟨[], rfl⟩

theorem shown_ne_nil (width : Nat) (p : Position) (c : Char) : p.shown width c ≠ [] := by
  obtain ⟨place, level⟩ := p
  cases place with
  | outside =>
    obtain opening | closing | ⟨-, -, behind, e⟩ := shown_cases width level c
    · rw [shown_opening width level opening]
      exact List.cons_ne_nil _ _
    · rw [shown_closing width level closing]
      exact List.cons_ne_nil _ _
    · rw [e]
      exact List.cons_ne_nil _ _
  | inside => exact List.cons_ne_nil _ _
  | escaped => exact List.cons_ne_nil _ _

end Position

open Position

theorem indentedFrom_outside (width level : Nat) (c : Char) (text : List Char) :
    indentedFrom width .outside level (c :: text) =
      shown width ⟨.outside, level⟩ c ++
        indentedFrom width (next ⟨.outside, level⟩ c).place (next ⟨.outside, level⟩ c).level text :=
  indentedFrom_cons width ⟨.outside, level⟩ c text

/-- A space stands in front of an opening bracket. -/
theorem opening_not_first (hb : IsOpening b) :
    indentedFrom width .outside level text ≠ b :: rest := by
  intro h
  cases text with
  | nil => exact nomatch h
  | cons c text =>
    rw [indentedFrom_outside] at h
    obtain opening | closing | ⟨other, -, behind, e⟩ := shown_cases width level c
    · rw [shown_opening width level opening] at h
      rcases hb with rfl | rfl <;> exact absurd (List.cons.inj h).1 (by decide)
    · rw [shown_closing width level closing] at h
      rcases hb with rfl | rfl <;> exact absurd (List.cons.inj h).1 (by decide)
    · rw [e] at h
      exact other ((List.cons.inj h).1 ▸ hb)

/-- A line break stands in front of a closing bracket, with nothing but spaces between them. -/
theorem closing_not_after_spaces (hb : IsClosing b) :
    (indentedFrom width .outside level text).dropWhile (· == ' ') ≠ b :: rest := by
  intro h
  induction text with
  | nil => exact nomatch h
  | cons c text ih =>
    rw [indentedFrom_outside] at h
    obtain opening | closing | ⟨-, other, behind, e⟩ := shown_cases width level c
    · -- The space in front of `c` is the only one.
      have solid : c ≠ ' ' := by
        rcases opening with rfl | rfl <;> decide
      rw [shown_opening width level opening, List.cons_append, List.dropWhile_cons_of_pos rfl,
        List.cons_append, List.dropWhile_cons_of_neg (by simpa using solid)] at h
      have first : c = b := (List.cons.inj h).1
      subst first
      rcases opening with rfl | rfl <;> exact absurd hb (by decide)
    · rw [shown_closing width level closing, List.cons_append,
        List.dropWhile_cons_of_neg (by decide)] at h
      rcases hb with rfl | rfl <;> exact absurd (List.cons.inj h).1 (by decide)
    · by_cases space : c = ' '
      · subst space
        exact ih h
      · rw [e, List.cons_append, List.dropWhile_cons_of_neg (by simpa using space)] at h
        exact other ((List.cons.inj h).1 ▸ hb)

/-! ## Two texts side by side -/

/-- Where one text starts with an opening bracket, the other does so as well. -/
theorem eq_of_opening (opening : IsOpening c)
    (h : indentedFrom width .outside level (c :: text) =
      indentedFrom width .outside level (d :: more)) : c = d := by
  rw [indentedFrom_outside, shown_opening width level opening] at h
  obtain opening' | closing' | ⟨-, -, behind, e⟩ := shown_cases width level d
  · rw [indentedFrom_outside, shown_opening width level opening'] at h
    exact (List.cons.inj (List.cons.inj h).2).1
  · rw [indentedFrom_outside, shown_closing width level closing'] at h
    exact absurd (List.cons.inj h).1 (by decide)
  · -- A space of the other text cannot stand for the one in front of the bracket.
    have space : ' ' = d := by
      rw [indentedFrom_outside, e] at h
      exact (List.cons.inj h).1
    subst space
    exact absurd (List.cons.inj h).2.symm (opening_not_first opening)

/-- Where one text starts with a closing bracket, the other does so as well. -/
theorem eq_of_closing (closing : IsClosing c)
    (h : indentedFrom width .outside level (c :: text) =
      indentedFrom width .outside level (d :: more)) : c = d := by
  rw [indentedFrom_outside, shown_closing width level closing, List.cons_append,
    List.append_assoc, List.singleton_append] at h
  obtain opening' | closing' | ⟨-, -, behind, e⟩ := shown_cases width level d
  · rw [indentedFrom_outside, shown_opening width level opening'] at h
    exact absurd (List.cons.inj h).1 (by decide)
  · -- Both brackets stand behind the same margin.
    rw [indentedFrom_outside, shown_closing width level closing', List.cons_append,
      List.append_assoc, List.singleton_append] at h
    have brackets := List.append_cancel_left (List.cons.inj h).2
    exact (List.cons.inj brackets).1
  · -- A line break of the other text cannot stand for the one in front of the bracket.
    have line : '\n' = d := by
      rw [indentedFrom_outside, e] at h
      exact (List.cons.inj h).1
    subst line
    have spaces : ∀ x ∈ margin width (level - 1), (x == ' ') = true := fun x hx =>
      beq_iff_eq.mpr (List.eq_of_mem_replicate hx)
    have solid : c ≠ ' ' := by
      rcases closing with rfl | rfl <;> decide
    have same := (List.cons.inj h).2
    have behindSpaces := congrArg (List.dropWhile (· == ' ')) same
    rw [List.dropWhile_append_of_pos spaces, List.dropWhile_cons_of_neg (by simpa using solid)]
      at behindSpaces
    exact absurd behindSpaces.symm (closing_not_after_spaces closing)

/-- Texts that are shown alike from one position start with the same character. -/
theorem eq_of_shown_eq (p : Position)
    (h : indentedFrom width p.place p.level (c :: text) =
      indentedFrom width p.place p.level (d :: more)) : c = d := by
  obtain ⟨place, level⟩ := p
  cases place with
  | outside =>
    obtain opening | closing | ⟨-, -, behind, e⟩ := shown_cases width level c
    · exact eq_of_opening opening h
    · exact eq_of_closing closing h
    · obtain opening | closing | ⟨-, -, behind', e'⟩ := shown_cases width level d
      · exact (eq_of_opening opening h.symm).symm
      · exact (eq_of_closing closing h.symm).symm
      · rw [indentedFrom_cons, indentedFrom_cons, e, e'] at h
        exact (List.cons.inj h).1
  | inside =>
    rw [indentedFrom_cons, indentedFrom_cons] at h
    exact (List.cons.inj h).1
  | escaped =>
    rw [indentedFrom_cons, indentedFrom_cons] at h
    exact (List.cons.inj h).1

theorem indentedFrom_inj (p : Position) :
    indentedFrom width p.place p.level text = indentedFrom width p.place p.level more ↔
      text = more := by
  refine ⟨fun h => ?_, fun h => h ▸ rfl⟩
  induction text generalizing p more with
  | nil =>
    cases more with
    | nil => rfl
    | cons d more =>
      rw [indentedFrom_nil, indentedFrom_cons] at h
      exact absurd (List.append_eq_nil_iff.mp h.symm).1 (shown_ne_nil width p d)
  | cons c text ih =>
    cases more with
    | nil =>
      rw [indentedFrom_nil, indentedFrom_cons] at h
      exact absurd (List.append_eq_nil_iff.mp h).1 (shown_ne_nil width p c)
    | cons d more =>
      have first : c = d := eq_of_shown_eq p h
      subst first
      rw [indentedFrom_cons, indentedFrom_cons] at h
      rw [ih (p.next c) (List.append_cancel_left h)]

/-- No two texts are shown alike, whatever they look like: the width may be zero, the texts may hold
blanks, brackets may lack their partners and literals may lack their ends. -/
theorem indent_inj (width : Nat) (a b : String) : indent width a = indent width b ↔ a = b := by
  have whole : indented width a.toList = indented width b.toList ↔ a.toList = b.toList :=
    indentedFrom_inj .start
  rw [indent, indent, String.ofList_inj, whole, String.toList_inj]

end GraphQLDoc
