import GraphQLDoc.Proofs.Names
import Mathlib.Data.List.TakeDrop

/-!
# Reading from the front of a text

A reader takes what it knows from the front of a text, and leaves the rest.

* `Reads`: the reader takes exactly the given text, provided that the rest is empty or starts with a
  comma or a closing bracket.
* `Reader.run`, `Reader.word`, `Reader.name`: characters of one kind, everything up to the next
  delimiter, and the same if it is a name.
* `Reader.entry`: a name and, after a colon, something else.
* `Reader.separated`, `Reader.enclosed`, `Reader.optional`: items with commas in between, up to a
  closing bracket.
-/

namespace GraphQLDoc

/-- Reads from the front of a text, or fails. -/
abbrev Reader (α : Type) : Type := List Char → Option (α × List Char)

/-- The character ends a word. -/
def isDelimiter (c : Char) : Bool := c ∈ ['{', '}', '(', ')', '[', ']', ',', ':', '"']

/-- The character stands behind a complete item. -/
def isClosing (c : Char) : Bool := c ∈ [',', ')', ']', '}']

theorem isDelimiter_of_isClosing {c : Char} (h : isClosing c = true) : isDelimiter c = true := by
  simp only [isClosing, isDelimiter, List.mem_cons, decide_eq_true_eq] at h ⊢
  grind

/-- Whatever stands before the text is complete. -/
def Closes (text : List Char) : Prop := ∀ c ∈ text.head?, isClosing c = true

theorem closes_nil : Closes [] := by simp [Closes]

theorem closes_cons {c : Char} (h : isClosing c = true) (text : List Char) :
    Closes (c :: text) := by
  simpa [Closes] using h

/-- The reader takes the text for `x`, whatever comes after it. -/
def Reads {α : Type} (reader : Reader α) (text : List Char) (x : α) : Prop :=
  ∀ rest, Closes rest → reader (text ++ rest) = some (x, rest)

theorem span_append {p : Char → Bool} {run rest : List Char} (inside : ∀ c ∈ run, p c = true)
    (outside : ∀ c ∈ rest.head?, p c = false) : (run ++ rest).span p = (run, rest) := by
  rw [List.span_eq_takeWhile_dropWhile, List.takeWhile_append_of_pos inside,
    List.dropWhile_append_of_pos inside]
  cases rest with
  | nil => simp
  | cons c cs =>
    have : ¬p c = true := by simpa using outside c rfl
    rw [List.takeWhile_cons_of_neg this, List.dropWhile_cons_of_neg this, List.append_nil]

namespace Reader

variable {α β : Type}

/-! ## Words -/

/-- The characters with a property at the front of the text, if there are any. -/
def run (p : Char → Bool) : Reader (List Char) := fun text =>
  match text.span p with
  | ([], _) => none
  | (c :: cs, rest) => some (c :: cs, rest)

theorem run_append {p : Char → Bool} {cs rest : List Char} (nonempty : cs ≠ [])
    (inside : ∀ c ∈ cs, p c = true) (outside : ∀ c ∈ rest.head?, p c = false) :
    run p (cs ++ rest) = some (cs, rest) := by
  rw [run, span_append inside outside]
  cases cs with
  | nil => exact absurd rfl nonempty
  | cons c cs => rfl

/-- The characters up to the next delimiter. -/
def word : Reader (List Char) := run fun c => !isDelimiter c

theorem word_append {cs rest : List Char} (nonempty : cs ≠ [])
    (plain : ∀ c ∈ cs, isDelimiter c = false) (ends : ∀ c ∈ rest.head?, isDelimiter c = true) :
    word (cs ++ rest) = some (cs, rest) :=
  run_append nonempty (fun c hc => by simp [plain c hc]) fun c hc => by simp [ends c hc]

theorem word_eq_none {c : Char} (h : isDelimiter c = true) (text : List Char) :
    word (c :: text) = none := by
  simp [word, run, List.span_eq_takeWhile_dropWhile, h]

/-- The next word, if it is a name. -/
def name : Reader String := fun text =>
  (word text).bind fun (cs, rest) =>
    if isName (String.ofList cs) then some (String.ofList cs, rest) else none

/-- Nothing in a name ends a word. -/
theorem isDelimiter_eq_false_of_isNameRest {c : Char} (h : isNameRest c = true) :
    isDelimiter c = false := by
  by_contra delimiter
  simp only [isDelimiter, List.mem_cons, List.not_mem_nil, or_false, decide_eq_true_eq,
    Bool.not_eq_false] at delimiter
  rcases delimiter with rfl | rfl | rfl | rfl | rfl | rfl | rfl | rfl | rfl <;>
    exact absurd h (by decide)

theorem isDelimiter_eq_false_of_isName {n : String} (h : isName n = true) :
    ∀ c ∈ n.toList, isDelimiter c = false :=
  fun c hc => isDelimiter_eq_false_of_isNameRest (isNameRest_of_isName h c hc)

theorem name_append {n : String} (h : isName n = true) {rest : List Char}
    (ends : ∀ c ∈ rest.head?, isDelimiter c = true) : name (n.toList ++ rest) = some (n, rest) := by
  have nonempty : n.toList ≠ [] := by
    obtain ⟨c, cs, spelled, -⟩ := (isName_iff n).mp h
    exact spelled ▸ List.cons_ne_nil c cs
  rw [name, word_append nonempty (isDelimiter_eq_false_of_isName h) ends]
  simp [h]

theorem reads_name {n : String} (h : isName n = true) : Reads name n.toList n :=
  fun _ closes => name_append h fun c hc => isDelimiter_of_isClosing (closes c hc)

theorem name_eq_none {c : Char} (h : isDelimiter c = true) (text : List Char) :
    name (c :: text) = none := by
  rw [name, word_eq_none h, Option.bind_none]

/-- A name, a colon and what another reader takes. -/
def entry (value : Reader α) : Reader (String × α) := fun text =>
  match name text with
  | some (key, ':' :: rest) => (value rest).map fun (x, rest) => ((key, x), rest)
  | _ => none

theorem reads_entry {value : Reader α} {key : String} {text : List Char} {x : α}
    (named : isName key = true) (h : Reads value text x) :
    Reads (entry value) (key.toList ++ ':' :: text) (key, x) := by
  intro rest closes
  have first : name (key.toList ++ ':' :: (text ++ rest)) = some (key, ':' :: (text ++ rest)) :=
    name_append named (by simp [isDelimiter])
  rw [List.append_assoc, List.cons_append, entry, first]
  simp [h rest closes]

theorem entry_eq_none {value : Reader α} {c : Char} (h : isDelimiter c = true)
    (text : List Char) : entry value (c :: text) = none := by
  rw [entry, name_eq_none h]

/-! ## Lists -/

/-- One item or more, with commas in between, up to a closing bracket. The number bounds the number
of items. -/
def separated (item : Reader α) (close : Char) : Nat → Reader (List α)
  | 0, _ => none
  | n + 1, text =>
    match item text with
    | some (x, ',' :: rest) => (separated item close n rest).map fun (xs, rest) => (x :: xs, rest)
    | some (x, c :: rest) => if c = close then some ([x], rest) else none
    | _ => none

/-- The same, where there may be no item at all. -/
def enclosed (item : Reader α) (close : Char) (n : Nat) : Reader (List α)
  | [] => none
  | c :: rest => if c = close then some ([], rest) else separated item close n (c :: rest)

/-- What stands behind an opening bracket, if the text starts with one. -/
def optional (opening : Char) (inside : Reader (List α)) : Reader (List α)
  | [] => some ([], [])
  | c :: rest => if c = opening then inside rest else some ([], c :: rest)

/-- Texts with commas in between and brackets around them, if there are any. -/
def bracketed (opening close : Char) (texts : List (List Char)) : List Char :=
  if texts.isEmpty then [] else opening :: (List.intercalate [','] texts ++ [close])

theorem head?_bracketed_append {opening close : Char} (texts : List (List Char))
    (rest : List Char) :
    ∀ c ∈ (bracketed opening close texts ++ rest).head?, c = opening ∨ c ∈ rest.head? := by
  unfold bracketed
  split
  · exact fun c hc => .inr hc
  · exact fun c hc => .inl (Option.some.inj hc).symm

section Items

variable {item : Reader α} {close : Char} {print : β → List Char} {tree : β → α} {ys : List β}
  {n : Nat} (closing : isClosing close = true) (other : close ≠ ',')
  (enough : ys.length ≤ n) (reads : ∀ y ∈ ys, Reads item (print y) (tree y))

include closing other enough reads

theorem separated_intercalate (nonempty : ys ≠ []) (rest : List Char) :
    separated item close n (List.intercalate [','] (ys.map print) ++ close :: rest) =
      some (ys.map tree, rest) := by
  induction ys generalizing n with
  | nil => exact absurd rfl nonempty
  | cons y ys ih =>
    obtain ⟨n, rfl⟩ : ∃ m, n = m + 1 := ⟨n - 1, by simp at enough; omega⟩
    obtain ⟨first, others⟩ := List.forall_mem_cons.mp reads
    cases ys with
    | nil =>
      rw [List.map_singleton, List.intercalate_singleton, separated,
        first _ (closes_cons closing _)]
      simp
    | cons z zs =>
      have text : List.intercalate [','] ((y :: z :: zs).map print) ++ close :: rest =
          print y ++ ',' :: (List.intercalate [','] ((z :: zs).map print) ++ close :: rest) := by
        simp [List.intercalate_cons_cons]
      have more := ih (Nat.le_of_succ_le_succ enough) others (List.cons_ne_nil z zs)
      rw [text, separated, first _ (closes_cons (by decide) _)]
      simp only [more]
      rfl

/-- An item that starts with a closing bracket cannot be read, so this bracket ends the list. -/
theorem enclosed_intercalate (stuck : ∀ text, item (close :: text) = none) (rest : List Char) :
    enclosed item close n (List.intercalate [','] (ys.map print) ++ close :: rest) =
      some (ys.map tree, rest) := by
  by_cases nonempty : ys = []
  · subst nonempty
    simp [enclosed]
  · have all := separated_intercalate closing other enough reads nonempty rest
    cases h : List.intercalate [','] (ys.map print) ++ close :: rest with
    | nil => simp at h
    | cons c text =>
      have hc : c ≠ close := by
        rintro rfl
        obtain ⟨n, rfl⟩ : ∃ m, n = m + 1 :=
          ⟨n - 1, by have := List.length_pos_iff.mpr nonempty; omega⟩
        rw [h, separated, stuck] at all
        exact nomatch all
      rw [enclosed, if_neg hc, ← h, all]

theorem optional_bracketed (opening : Char) {rest : List Char}
    (absent : ∀ c ∈ rest.head?, c ≠ opening) :
    optional opening (separated item close n) (bracketed opening close (ys.map print) ++ rest) =
      some (ys.map tree, rest) := by
  by_cases nonempty : ys = []
  · subst nonempty
    cases rest with
    | nil => rfl
    | cons c rest => exact if_neg (absent c rfl)
  · have all := separated_intercalate closing other enough reads nonempty rest
    simp [bracketed, nonempty, optional, all]

end Items

/-! ## Lengths -/

theorem length_le_intercalate (texts : List (List Char)) :
    texts.length ≤ (List.intercalate [','] texts).length + 1 := by
  induction texts with
  | nil => exact Nat.zero_le _
  | cons x xs ih =>
    cases xs with
    | nil => simp
    | cons y ys =>
      rw [List.intercalate_cons_cons, List.length_append, List.length_append, List.length_cons,
        List.length_singleton]
      omega

theorem length_le_intercalate_of_mem {texts : List (List Char)} {x : List Char} (h : x ∈ texts) :
    x.length ≤ (List.intercalate [','] texts).length := by
  induction texts with
  | nil => exact absurd h List.not_mem_nil
  | cons y ys ih =>
    cases ys with
    | nil => simp [List.mem_singleton.mp h]
    | cons z zs =>
      rw [List.intercalate_cons_cons, List.length_append, List.length_append]
      rcases List.mem_cons.mp h with rfl | h
      · omega
      · have := ih h
        omega

section Shorter

variable {print : β → List Char} {ys : List β} {n : Nat}

/-- Between brackets there are few items, and all of them are short. -/
theorem shorter_of_intercalate (h : (List.intercalate [','] (ys.map print)).length < n) :
    ys.length ≤ n ∧ ∀ y ∈ ys, (print y).length < n := by
  have few := length_le_intercalate (ys.map print)
  rw [List.length_map] at few
  refine ⟨by omega, fun y hy => ?_⟩
  have short := length_le_intercalate_of_mem (List.mem_map_of_mem (f := print) hy)
  omega

theorem shorter_of_bracketed {opening close : Char}
    (h : (bracketed opening close (ys.map print)).length ≤ n) :
    ys.length ≤ n ∧ ∀ y ∈ ys, (print y).length < n := by
  by_cases empty : ys = []
  · simp [empty]
  · apply shorter_of_intercalate
    have bracket : (bracketed opening close (ys.map print)).length =
        (List.intercalate [','] (ys.map print)).length + 2 := by
      simp [bracketed, empty]
    omega

end Shorter

end Reader

end GraphQLDoc
