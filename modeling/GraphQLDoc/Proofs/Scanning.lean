import GraphQLDoc.Proofs.Quoting
import GraphQLDoc.Text.Indented

/-!
# Scanning brackets

A reader that skips string literals can count braces and parentheses on its way through a text.

* `Position`: the place with respect to literals, and the level of brackets. `Position.next` takes
  one character and `Position.after` a text.
* `indentedFrom_append`: a text is shown with line breaks part by part, each part from the position
  that the parts before it lead to.
* `Position.Balanced`: the text closes no bracket that is not open.
* `Closed`: a balanced text that leads back to where it started.
-/

namespace GraphQLDoc

/-- The character changes the position, or something is added where it is shown. -/
def isMark (c : Char) : Bool := c ∈ ['{', '}', '(', ')', ',', ':', '"']

theorem isMark_eq_false_iff {c : Char} :
    isMark c = false ↔
      c ≠ '{' ∧ c ≠ '}' ∧ c ≠ '(' ∧ c ≠ ')' ∧ c ≠ ',' ∧ c ≠ ':' ∧ c ≠ '"' := by
  simp [isMark]

/-- A place in a text and the number of brackets that are open there. -/
structure Position where
  place : Place
  level : Nat
  deriving DecidableEq

namespace Position

/-- Outside of literals and brackets. -/
def start : Position := ⟨.outside, 0⟩

/-- The position after one more character. A bracket that closes nothing does not count. -/
def next : Position → Char → Position
  | ⟨.outside, level⟩, c =>
    if c = '{' ∨ c = '(' then ⟨.outside, level + 1⟩
    else if c = '}' ∨ c = ')' then ⟨.outside, level - 1⟩
    else if c = '"' then ⟨.inside, level⟩
    else ⟨.outside, level⟩
  | ⟨.inside, level⟩, c =>
    if c = '"' then ⟨.outside, level⟩
    else if c = '\\' then ⟨.escaped, level⟩
    else ⟨.inside, level⟩
  | ⟨.escaped, level⟩, _ => ⟨.inside, level⟩

/-- The position after a text. -/
def after (p : Position) (text : List Char) : Position := text.foldl next p

@[simp] theorem after_nil (p : Position) : p.after [] = p := rfl

@[simp] theorem after_cons (p : Position) (c : Char) (text : List Char) :
    p.after (c :: text) = (p.next c).after text := rfl

theorem after_append (p : Position) (text more : List Char) :
    p.after (text ++ more) = (p.after text).after more := List.foldl_append

end Position

/-! ## Showing a text part by part -/

namespace Position

/-- What one character adds to a text that is shown with line breaks. -/
def shown (width : Nat) : Position → Char → List Char
  | ⟨.outside, level⟩, c =>
    if c = '{' ∨ c = '(' then ' ' :: c :: '\n' :: margin width (level + 1)
    else if c = '}' ∨ c = ')' then '\n' :: (margin width (level - 1) ++ [c])
    else if c = ',' then ',' :: '\n' :: margin width level
    else if c = ':' then [':', ' ']
    else [c]
  | ⟨.inside, _⟩, c => [c]
  | ⟨.escaped, _⟩, c => [c]

end Position

theorem indentedFrom_nil (width : Nat) (p : Position) :
    indentedFrom width p.place p.level [] = [] := by
  obtain ⟨place, level⟩ := p
  cases place <;> rfl

theorem indentedFrom_cons (width : Nat) (p : Position) (c : Char) (rest : List Char) :
    indentedFrom width p.place p.level (c :: rest) =
      p.shown width c ++ indentedFrom width (p.next c).place (p.next c).level rest := by
  obtain ⟨place, level⟩ := p
  cases place with
  | outside =>
    rw [indentedFrom, Position.shown, Position.next]
    by_cases opening : c = '{' ∨ c = '('
    · rw [if_pos opening, if_pos opening, if_pos opening, List.cons_append, List.cons_append,
        List.cons_append]
    rw [if_neg opening, if_neg opening, if_neg opening]
    by_cases closing : c = '}' ∨ c = ')'
    · rw [if_pos closing, if_pos closing, if_pos closing, List.cons_append, List.append_assoc,
        List.singleton_append]
    rw [if_neg closing, if_neg closing, if_neg closing]
    by_cases comma : c = ','
    · subst comma
      rfl
    by_cases colon : c = ':'
    · subst colon
      rfl
    rw [if_neg comma, if_neg comma, if_neg colon, if_neg colon, List.singleton_append]
    split_ifs with quote
    · rw [quote]
    · rfl
  | inside =>
    rw [indentedFrom, Position.shown, Position.next, List.singleton_append]
    split_ifs with quote backslash
    · rw [quote]
    · rw [backslash]
    · rfl
  | escaped => rw [indentedFrom, Position.shown, Position.next, List.singleton_append]

/-- The position says all that the rest of a text is shown by. -/
theorem indentedFrom_append (width : Nat) (p : Position) (text rest : List Char) :
    indentedFrom width p.place p.level (text ++ rest) =
      indentedFrom width p.place p.level text ++
        indentedFrom width (p.after text).place (p.after text).level rest := by
  induction text generalizing p with
  | nil => rw [indentedFrom_nil, Position.after_nil, List.nil_append, List.nil_append]
  | cons c text ih =>
    rw [List.cons_append, indentedFrom_cons, indentedFrom_cons, ih, Position.after_cons,
      List.append_assoc]

/-! ## Brackets that are open -/

namespace Position

variable {p q r : Position} {c : Char} {text more : List Char}

/-- The character closes a bracket although none is open. -/
def Overcloses (p : Position) (c : Char) : Prop :=
  p.place = .outside ∧ p.level = 0 ∧ (c = '}' ∨ c = ')')

/-- From the position on, the text closes no bracket that is not open. -/
def Balanced : Position → List Char → Prop
  | _, [] => True
  | p, c :: cs => ¬p.Overcloses c ∧ Balanced (p.next c) cs

theorem balanced_append :
    p.Balanced (text ++ more) ↔ p.Balanced text ∧ (p.after text).Balanced more := by
  induction text generalizing p with
  | nil => exact (and_iff_right trivial).symm
  | cons c text ih => rw [List.cons_append, Balanced, Balanced, ih, after_cons, and_assoc]

/-- Wherever such a text closes a bracket, one is open. -/
theorem Balanced.level_pos (h : p.Balanced (text ++ c :: more)) (closes : c = '}' ∨ c = ')')
    (outside : (p.after text).place = .outside) : 0 < (p.after text).level := by
  obtain ⟨fine, -⟩ := (balanced_append.mp h).2
  exact Nat.pos_of_ne_zero fun zero => fine ⟨outside, zero, closes⟩

/-- The same place below some more brackets. -/
def raise (k : Nat) (p : Position) : Position := ⟨p.place, p.level + k⟩

theorem next_raise (h : ¬p.Overcloses c) (k : Nat) : (p.raise k).next c = (p.next c).raise k := by
  obtain ⟨place, level⟩ := p
  cases place with
  | outside =>
    unfold raise next
    dsimp only
    split_ifs with opening closing
    · rw [Nat.add_right_comm]
    · have : level ≠ 0 := fun zero => h ⟨rfl, zero, closing⟩
      rw [Nat.sub_add_comm (Nat.pos_of_ne_zero this)]
    · rfl
    · rfl
  | inside =>
    unfold raise next
    dsimp only
    split_ifs <;> rfl
  | escaped => rfl

theorem Balanced.after_raise (h : p.Balanced text) (k : Nat) :
    (p.raise k).after text = (p.after text).raise k := by
  induction text generalizing p with
  | nil => rfl
  | cons c text ih => rw [after_cons, after_cons, next_raise h.1, ih h.2]

theorem Balanced.raise (h : p.Balanced text) (k : Nat) : (p.raise k).Balanced text := by
  induction text generalizing p with
  | nil => trivial
  | cons c text ih =>
    refine ⟨fun ⟨outside, zero, closes⟩ => h.1 ⟨outside, ?_, closes⟩, ?_⟩
    · exact Nat.eq_zero_of_add_eq_zero_right zero
    · rw [next_raise h.1]
      exact ih h.2

/-! ## Text that is copied -/

/-- The text leads from one position to the other, and nothing is added to it when it is shown. -/
structure Copies (p : Position) (text : List Char) (q : Position) : Prop where
  after : p.after text = q
  balanced : p.Balanced text
  shown : ∀ width, indentedFrom width p.place p.level text = text

theorem copies_nil (p : Position) : p.Copies [] p := ⟨rfl, trivial, fun w => indentedFrom_nil w p⟩

theorem Copies.cons (fine : ¬p.Overcloses c) (same : ∀ width, p.shown width c = [c])
    (h : (p.next c).Copies text q) : p.Copies (c :: text) q := by
  refine ⟨h.after, ⟨fine, h.balanced⟩, fun w => ?_⟩
  rw [indentedFrom_cons, same, h.shown, List.singleton_append]

theorem Copies.append (h : p.Copies text q) (hm : q.Copies more r) : p.Copies (text ++ more) r := by
  refine ⟨?_, balanced_append.mpr ⟨h.balanced, h.after ▸ hm.balanced⟩, fun w => ?_⟩
  · rw [after_append, h.after, hm.after]
  · rw [indentedFrom_append, h.shown, h.after, hm.shown]

/-! ## Literals and other plain text -/

theorem copies_plain {level : Nat} (h : ∀ c ∈ text, isMark c = false) :
    Copies ⟨.outside, level⟩ text ⟨.outside, level⟩ := by
  induction text with
  | nil => exact copies_nil _
  | cons c text ih =>
    obtain ⟨first, others⟩ := List.forall_mem_cons.mp h
    have plain := isMark_eq_false_iff.mp first
    have same : next ⟨.outside, level⟩ c = ⟨.outside, level⟩ := by simp [next, plain]
    refine .cons (fun overcloses => ?_) (fun w => by simp [shown, plain]) (same.symm ▸ ih others)
    exact overcloses.2.2.elim plain.2.1 plain.2.2.2.1

theorem copies_inside {level : Nat} (h : ∀ c ∈ text, c ≠ '"' ∧ c ≠ '\\') :
    Copies ⟨.inside, level⟩ text ⟨.inside, level⟩ := by
  induction text with
  | nil => exact copies_nil _
  | cons c text ih =>
    obtain ⟨⟨quote, backslash⟩, others⟩ := List.forall_mem_cons.mp h
    have same : next ⟨.inside, level⟩ c = ⟨.inside, level⟩ := by simp [next, quote, backslash]
    exact .cons (fun overcloses => nomatch overcloses.1) (fun _ => rfl) (same.symm ▸ ih others)

theorem digitChar_ne {n : Nat} (h : n < 16) : Nat.digitChar n ≠ '"' ∧ Nat.digitChar n ≠ '\\' := by
  have all : ∀ n : Fin 16, Nat.digitChar n ≠ '"' ∧ Nat.digitChar n ≠ '\\' := by decide
  exact all ⟨n, h⟩

/-- The text is the character itself, or a backslash with something behind it that has no quotes and
backslashes beyond its first character. -/
def Spells (c : Char) (text : List Char) : Prop :=
  (text = [c] ∧ c ≠ '"' ∧ c ≠ '\\') ∨
    ∃ d cs, text = '\\' :: d :: cs ∧ ∀ e ∈ cs, e ≠ '"' ∧ e ≠ '\\'

theorem spells_short (c d : Char) : Spells c ['\\', d] := .inr ⟨d, [], rfl, List.forall_mem_nil _⟩

theorem spells_escape (c : Char) : Spells c (escape c) := by
  refine iteInduction (fun _ => spells_short c _) fun quote => ?_
  refine iteInduction (fun _ => spells_short c _) fun backslash => ?_
  iterate 5 refine iteInduction (fun _ => spells_short c _) fun _ => ?_
  refine iteInduction (fun control => ?_) fun _ => .inl ⟨rfl, quote, backslash⟩
  have high := digitChar_ne (show c.toNat / 16 < 16 by omega)
  have low := digitChar_ne (show c.toNat % 16 < 16 by omega)
  exact .inr ⟨_, _, rfl, by simp [high, low]⟩

theorem copies_escape (c : Char) (level : Nat) :
    Copies ⟨.inside, level⟩ (escape c) ⟨.inside, level⟩ := by
  rcases spells_escape c with ⟨e, quote, backslash⟩ | ⟨d, cs, e, plain⟩
  · rw [e]
    exact copies_inside (List.forall_mem_singleton.mpr ⟨quote, backslash⟩)
  · rw [e]
    have rest : Copies ⟨.escaped, level⟩ (d :: cs) ⟨.inside, level⟩ :=
      .cons (fun overcloses => nomatch overcloses.1) (fun _ => rfl) (copies_inside plain)
    exact .cons (fun overcloses => nomatch overcloses.1) (fun _ => rfl) rest

/-- A literal ends at the quote that ends it for a scan, whatever text it holds. -/
theorem copies_quoted (text : List Char) (level : Nat) :
    Copies ⟨.outside, level⟩ (quoted text) ⟨.outside, level⟩ := by
  have body : Copies ⟨.inside, level⟩ (text.flatMap escape) ⟨.inside, level⟩ := by
    induction text with
    | nil => exact copies_nil _
    | cons c text ih =>
      rw [List.flatMap_cons]
      exact (copies_escape c level).append ih
  have quote : Copies ⟨.inside, level⟩ ['"'] ⟨.outside, level⟩ :=
    .cons (fun overcloses => nomatch overcloses.1) (fun _ => rfl) (copies_nil _)
  refine .cons (fun overcloses => ?_) (fun _ => rfl) (body.append quote)
  exact overcloses.2.2.elim (by decide) (by decide)

end Position

/-! ## Closed texts -/

/-- The text closes every bracket and every literal that it opens, and none that it does not. -/
structure Closed (text : List Char) : Prop where
  balanced : Position.start.Balanced text
  returns : Position.start.after text = .start

/-- An opening bracket and the bracket that closes it. -/
def IsPair (opening close : Char) : Prop :=
  (opening = '{' ∧ close = '}') ∨ (opening = '(' ∧ close = ')')

namespace Closed

open Position

variable {text more : List Char}

theorem after (h : Closed text) (level : Nat) :
    (Position.mk .outside level).after text = ⟨.outside, level⟩ := by
  have raised := h.balanced.after_raise level
  rw [h.returns] at raised
  simpa [Position.raise, start] using raised

theorem of_copies (h : start.Copies text start) : Closed text := ⟨h.balanced, h.after⟩

theorem append (h : Closed text) (hm : Closed more) : Closed (text ++ more) := by
  refine ⟨balanced_append.mpr ⟨h.balanced, ?_⟩, ?_⟩
  · rw [h.returns]
    exact hm.balanced
  · rw [after_append, h.returns, hm.returns]

theorem of_char {c : Char} (h : c ∉ ['{', '}', '(', ')', '"']) : Closed [c] := by
  simp only [List.mem_cons, List.not_mem_nil, or_false, not_or] at h
  refine ⟨⟨fun overcloses => overcloses.2.2.elim h.2.1 h.2.2.2.1, trivial⟩, ?_⟩
  simp [start, next, h]

theorem brackets {opening close : Char} (pair : IsPair opening close) (h : Closed text) :
    Closed (opening :: (text ++ [close])) := by
  have opened : start.next opening = start.raise 1 := by
    rcases pair with ⟨rfl, -⟩ | ⟨rfl, -⟩ <;> rfl
  have closed : (start.raise 1).next close = start := by
    rcases pair with ⟨-, rfl⟩ | ⟨-, rfl⟩ <;> rfl
  have inside : (start.raise 1).after text = start.raise 1 := by
    rw [h.balanced.after_raise, h.returns]
  have fine : ¬start.Overcloses opening := by
    rintro ⟨-, -, rfl | rfl⟩ <;> rcases pair with ⟨e, -⟩ | ⟨e, -⟩ <;> exact nomatch e
  refine ⟨⟨fine, ?_⟩, ?_⟩
  · rw [opened, balanced_append, inside]
    exact ⟨h.balanced.raise 1, fun overcloses => (nomatch overcloses.2.1), trivial⟩
  · rw [after_cons, opened, after_append, inside, after_cons, closed, after_nil]

end Closed

end GraphQLDoc
