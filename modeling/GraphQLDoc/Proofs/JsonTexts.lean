import GraphQLDoc.Error
import GraphQLDoc.Proofs.Depth
import GraphQLDoc.Proofs.Exact
import GraphQLDoc.Proofs.Quoting

/-!
# Texts of JSON values

The text of a JSON value determines the value, so a report that quotes rejected input shows exactly
what was rejected. Doubles and integers are told apart, and so are the two zeros.

* `Json.Number.chars_injective`: the texts of numbers.
* `EndsItself`: a text tells what it is for, and where it ends.
* `eq_of_intercalate_append_eq`: items with commas in between, up to a closing bracket.
* `Json.endsItself_chars`, `Json.text_injective`: the texts of all values.
* `Error.injective_context`: errors that quote JSON values.
-/

namespace GraphQLDoc

open Binary64

/-! ## Numbers -/

namespace Json.Number

/-- The decimal number that is written. -/
def value : Json.Number → ℚ
  | .int n _ => n
  | .float x _ => (GraphQLDoc.Number.float x).value

theorem denotes_write_shortest (x : Binary64) :
    Denotes (numberStyle.write x.shortest) x.shortest.value := by
  cases zero : x.isZero with
  | true =>
    have nothing : x.shortest = ⟨0, 0⟩ := by simp [shortest, zero]
    have written : numberStyle.write ⟨0, 0⟩ = ['0', '.', '0'] := by decide
    rw [nothing, written]
    have zero : ∀ c ∈ ['0'], c.isDigit = true := List.forall_mem_singleton.mpr rfl
    have digits : digitsValue (['0'] ++ ['0']) = 0 := rfl
    refine ⟨⟨['0'], ['0'], none⟩, ⟨List.cons_ne_nil _ _, zero, fun _ => rfl, zero⟩, rfl, ?_⟩
    rw [Numeral.value, digits, Decimal.value, Nat.cast_zero, zero_mul, zero_mul]
  | false => exact Decimal.denotes_write (coefficient_shortest_ne_zero zero) numberStyle

theorem spells_chars (n : Json.Number) : Spells n.chars n.value := by
  cases n with
  | int n => exact Number.spells_integerChars n
  | float x => exact Number.spells_writeFinite (denotes_write_shortest x)

/-- Doubles show that they are doubles. -/
theorem exists_mark_chars_float (x : Binary64) (finite : x.isFinite = true) :
    ∃ c ∈ (float x finite).chars, c = '.' ∨ c = 'e' := by
  have marked : ∃ c ∈ numberStyle.write x.shortest, c = '.' ∨ c = 'e' := by
    unfold DecimalStyle.write
    split
    · exact ⟨'e', Decimal.mem_scientific _, .inr rfl⟩
    · refine ⟨'.', ?_, .inl rfl⟩
      unfold Decimal.positional numberStyle
      dsimp only
      split_ifs <;> simp_all
  obtain ⟨c, hc, mark⟩ := marked
  refine ⟨c, ?_, mark⟩
  show c ∈ numberStyle.writeFinite x
  unfold DecimalStyle.writeFinite
  split
  · exact List.mem_cons_of_mem _ hc
  · exact hc

theorem chars_int_ne_chars_float (n : Int) (fits) (x : Binary64) (finite : x.isFinite = true) :
    (int n fits).chars ≠ (float x finite).chars := by
  intro same
  obtain ⟨c, hc, mark⟩ := exists_mark_chars_float x finite
  rw [← same] at hc
  have digitOrSign : c.isDigit = true ∨ c = '-' := by
    change c ∈ integerChars n at hc
    unfold integerChars at hc
    split at hc
    · exact (List.mem_cons.mp hc).symm.imp isDigit_of_mem_digits id
    · exact .inl (isDigit_of_mem_digits hc)
  rcases mark with rfl | rfl <;> exact absurd digitOrSign (by decide)

/-- The sign bit is written, also for zero. -/
theorem isNegative_iff_chars_float (x : Binary64) (finite : x.isFinite = true) :
    x.isNegative = true ↔ (float x finite).chars.head? = some '-' := by
  obtain ⟨c, cs, starts, digit⟩ := (denotes_write_shortest x).starts
  have unsigned : c ≠ '-' := by
    rintro rfl
    exact nomatch digit
  show _ ↔ (numberStyle.writeFinite x).head? = some '-'
  unfold DecimalStyle.writeFinite
  cases x.isNegative <;> simp [starts, unsigned]

theorem value_eq_of_chars {m n : Json.Number} (same : m.chars = n.chars) : m.value = n.value := by
  have read := (spells_chars m).number?
  rw [same, (spells_chars n).number?] at read
  exact (Option.some.inj read).symm

/-- Doubles with one sign and one decimal are rounded from the same number, so they have the same
size. -/
theorem eq_of_chars_float {x y : Binary64} {hx : x.isFinite = true} {hy : y.isFinite = true}
    (same : (float x hx).chars = (float y hy).chars) : x = y := by
  have sign : x.isNegative = y.isNegative := by
    rw [Bool.eq_iff_iff, isNegative_iff_chars_float x hx, isNegative_iff_chars_float y hy, same]
  have decimal : (GraphQLDoc.Number.float x).value = (GraphQLDoc.Number.float y).value :=
    value_eq_of_chars same
  have rounded := Number.roundsTo_value hy
  rw [← decimal] at rounded
  have sizes := congrArg abs ((Number.roundsTo_value hx).value_eq rounded)
  rw [abs_value, abs_value] at sizes
  have place : x.rank = y.rank := by exact_mod_cast strictMono_line.injective sizes
  rw [eq_iff_toNat_bits, toNat_bits, toNat_bits, sign, place]

theorem chars_injective : Function.Injective chars := by
  intro m n same
  cases m with
  | int m hm =>
    cases n with
    | int n hn =>
      have value : (m : ℚ) = n := value_eq_of_chars same
      obtain rfl : m = n := by exact_mod_cast value
      rfl
    | float y hy => exact absurd same (chars_int_ne_chars_float m hm y hy)
  | float x hx =>
    cases n with
    | int n hn => exact absurd same.symm (chars_int_ne_chars_float n hn x hx)
    | float y hy =>
      obtain rfl : x = y := eq_of_chars_float same
      rfl

end Json.Number

/-! ## Items -/

section Items

variable {α : Type} {print : α → List Char} {close : Char}

theorem intercalate_cons_eq (x : List Char) (xs : List (List Char)) :
    List.intercalate [','] (x :: xs) = x ++ xs.flatMap (',' :: ·) := by
  induction xs generalizing x with
  | nil => simp
  | cons y ys ih =>
    rw [List.intercalate_cons_cons, ih y]
    simp

theorem intercalate_append_ne {c : Char} {cs : List Char} (other : c ≠ close)
    (xs : List (List Char)) (r s : List Char) :
    List.intercalate [','] ((c :: cs) :: xs) ++ r ≠ close :: s := by
  rw [intercalate_cons_eq]
  exact fun same => other (List.cons.inj same).1

theorem closes_behind (closing : isClosing close = true) (xs : List (List Char))
    (rest : List Char) : Closes (xs.flatMap (',' :: ·) ++ close :: rest) := by
  cases xs with
  | nil => exact closes_cons closing rest
  | cons x xs => exact closes_cons rfl _

/-- In front of all that closes, the text is for nothing but `x`, and it ends in one place only. -/
def EndsItself (print : α → List Char) (x : α) : Prop :=
  ∀ y r s, Closes r → Closes s → print x ++ r = print y ++ s → x = y ∧ r = s

/-- Items with a comma in front of each, up to a closing bracket. -/
theorem eq_of_flatMap_append_eq (closing : isClosing close = true) (other : close ≠ ',')
    {xs ys : List α} (each : ∀ x ∈ xs, EndsItself print x) {r s : List Char}
    (h : (xs.map print).flatMap (',' :: ·) ++ close :: r =
      (ys.map print).flatMap (',' :: ·) ++ close :: s) : xs = ys ∧ r = s := by
  induction xs generalizing ys with
  | nil =>
    cases ys with
    | nil => exact ⟨rfl, (List.cons.inj h).2⟩
    | cons y ys => exact absurd (List.cons.inj h).1 other
  | cons x xs ih =>
    obtain ⟨first, others⟩ := List.forall_mem_cons.mp each
    cases ys with
    | nil => exact absurd (List.cons.inj h).1.symm other
    | cons y ys =>
      simp only [List.map_cons, List.flatMap_cons, List.cons_append, List.append_assoc] at h
      obtain ⟨rfl, rest⟩ := first y _ _ (closes_behind closing _ _) (closes_behind closing _ _)
        (List.cons.inj h).2
      obtain ⟨rfl, rfl⟩ := ih others rest
      exact ⟨rfl, rfl⟩

/-- Items with commas in between. None of them starts with the closing bracket, so it shows whether
there are any. -/
theorem eq_of_intercalate_append_eq (closing : isClosing close = true) (other : close ≠ ',')
    (starts : ∀ x, ∃ c cs, print x = c :: cs ∧ c ≠ close) {xs ys : List α}
    (each : ∀ x ∈ xs, EndsItself print x) {r s : List Char}
    (h : List.intercalate [','] (xs.map print) ++ close :: r =
      List.intercalate [','] (ys.map print) ++ close :: s) : xs = ys ∧ r = s := by
  cases xs with
  | nil =>
    cases ys with
    | nil => exact ⟨rfl, (List.cons.inj h).2⟩
    | cons y ys =>
      obtain ⟨c, cs, spelled, ne⟩ := starts y
      rw [List.map_cons, spelled] at h
      exact absurd h.symm (intercalate_append_ne ne _ _ _)
  | cons x xs =>
    cases ys with
    | nil =>
      obtain ⟨c, cs, spelled, ne⟩ := starts x
      rw [List.map_cons, spelled] at h
      exact absurd h (intercalate_append_ne ne _ _ _)
    | cons y ys =>
      rw [List.map_cons, List.map_cons, intercalate_cons_eq, intercalate_cons_eq] at h
      exact eq_of_flatMap_append_eq closing other each (congrArg (',' :: ·) h)

end Items

/-! ## How texts start -/

namespace Json

variable {j k : Json} {r s : List Char}

/-- The character that starts a string, an array or an object. All other texts are single words. -/
def opening : Json → Option Char
  | .string _ => some '"'
  | .array _ => some '['
  | .object _ => some '{'
  | _ => none

theorem word_chars (word : j.opening = none) :
    ∃ c cs, j.chars = c :: cs ∧ ∀ d ∈ c :: cs, isDelimiter d = false := by
  cases j with
  | null => exact ⟨_, _, rfl, Reader.isDelimiter_eq_false_of_isName (n := "null") rfl⟩
  | bool b =>
    cases b with
    | false => exact ⟨_, _, rfl, Reader.isDelimiter_eq_false_of_isName (n := "false") rfl⟩
    | true => exact ⟨_, _, rfl, Reader.isDelimiter_eq_false_of_isName (n := "true") rfl⟩
  | number n =>
    obtain ⟨c, cs, spelled, -⟩ := n.spells_chars.starts
    have plain := n.spells_chars.plain
    rw [spelled] at plain
    exact ⟨c, cs, spelled, plain⟩
  | _ => exact nomatch word

/-- The first character tells what starts. No value starts with a closing bracket. -/
theorem chars_starts (j : Json) :
    ∃ c cs, j.chars = c :: cs ∧ isClosing c = false ∧
      j.opening = if isDelimiter c then some c else none := by
  cases h : j.opening with
  | none =>
    obtain ⟨c, cs, spelled, plain⟩ := word_chars h
    have first := plain c List.mem_cons_self
    refine ⟨c, cs, spelled, ?_, by rw [first]; rfl⟩
    by_contra closing
    exact nomatch first.symm.trans (isDelimiter_of_isClosing (by simpa using closing))
  | some c =>
    cases j with
    | string _ => cases h; exact ⟨_, _, rfl, rfl, rfl⟩
    | array _ => cases h; exact ⟨_, _, rfl, rfl, rfl⟩
    | object _ => cases h; exact ⟨_, _, rfl, rfl, rfl⟩
    | _ => exact nomatch h

theorem opening_eq_of_append_eq (h : j.chars ++ r = k.chars ++ s) : j.opening = k.opening := by
  obtain ⟨c, cs, spelled, -, kind⟩ := j.chars_starts
  obtain ⟨d, ds, spelled', -, kind'⟩ := k.chars_starts
  rw [spelled, spelled'] at h
  rw [kind, kind', (List.cons.inj h).1]

/-! ## Words -/

theorem Number.chars_ne_cons (n : Json.Number) {c : Char} (start : isNameStart c = true)
    (cs : List Char) : n.chars ≠ c :: cs := by
  obtain ⟨d, ds, spelled, other⟩ := n.spells_chars.starts
  rw [spelled]
  intro same
  rw [(List.cons.inj same).1, start] at other
  exact nomatch other

theorem eq_of_word (hj : j.opening = none) (hk : k.opening = none) (same : j.chars = k.chars) :
    j = k := by
  cases j with
  | null =>
    cases k with
    | null => rfl
    | bool b => cases b <;> exact absurd same (by decide)
    | number n => exact absurd same.symm (n.chars_ne_cons rfl _)
    | _ => exact nomatch hk
  | bool a =>
    cases k with
    | null => cases a <;> exact absurd same (by decide)
    | bool b => cases a <;> cases b <;> first | rfl | exact absurd same (by decide)
    | number n => cases a <;> exact absurd same.symm (n.chars_ne_cons rfl _)
    | _ => exact nomatch hk
  | number m =>
    cases k with
    | null => exact absurd same (m.chars_ne_cons rfl _)
    | bool b => cases b <;> exact absurd same (m.chars_ne_cons rfl _)
    | number n => rw [Number.chars_injective same]
    | _ => exact nomatch hk
  | _ => exact nomatch hj

/-- A word ends where something closes. -/
theorem eq_of_word_append_eq (hj : j.opening = none) (hk : k.opening = none) (hr : Closes r)
    (hs : Closes s) (h : j.chars ++ r = k.chars ++ s) : j = k ∧ r = s := by
  have read : ∀ {i : Json} {rest}, i.opening = none → Closes rest →
      Reader.word (i.chars ++ rest) = some (i.chars, rest) := by
    intro i rest word closes
    obtain ⟨c, cs, spelled, plain⟩ := word_chars word
    rw [spelled]
    exact Reader.word_append (List.cons_ne_nil c cs) plain fun d hd =>
      isDelimiter_of_isClosing (closes d hd)
  have same := read hj hr
  rw [h, read hk hs] at same
  obtain ⟨words, rests⟩ := Prod.mk.inj (Option.some.inj same)
  exact ⟨(eq_of_word hk hj words).symm, rests.symm⟩

/-! ## All values -/

theorem eq_of_quoted_append_eq {a b : List Char} (h : quoted a ++ r = quoted b ++ s) :
    a = b ∧ r = s := by
  have read := Reader.string_quoted a r
  rw [h, Reader.string_quoted] at read
  obtain ⟨texts, rests⟩ := Prod.mk.inj (Option.some.inj read)
  exact ⟨texts.symm, rests.symm⟩

/-- A member of an object: its key as a string, a colon and its value. -/
def memberText (member : String × Json) : List Char :=
  quoted member.1.toList ++ ':' :: member.2.chars

theorem chars_array (items : List Json) (rest : List Char) :
    (array items).chars ++ rest =
      '[' :: (List.intercalate [','] (items.map chars) ++ ']' :: rest) := by
  have spelled : (array items).chars =
      '[' :: (List.intercalate [','] (itemChars items) ++ [']']) := rfl
  rw [spelled, itemChars_eq_map, List.cons_append, List.append_assoc, List.singleton_append]

theorem chars_object (members : List (String × Json)) (rest : List Char) :
    (object members).chars ++ rest =
      '{' :: (List.intercalate [','] (members.map memberText) ++ '}' :: rest) := by
  have spelled : (object members).chars =
      '{' :: (List.intercalate [','] (memberChars members) ++ ['}']) := rfl
  rw [spelled, memberChars_eq_map, List.cons_append, List.append_assoc, List.singleton_append]
  rfl

theorem endsItself_memberText {member : String × Json} (h : EndsItself chars member.2) :
    EndsItself memberText member := by
  rintro ⟨key, k⟩ r s hr hs same
  rw [memberText, memberText, List.append_assoc, List.append_assoc] at same
  obtain ⟨keys, rests⟩ := eq_of_quoted_append_eq same
  obtain ⟨values, rests⟩ := h k r s hr hs (List.cons.inj rests).2
  exact ⟨Prod.ext (String.toList_inj.mp keys) values, rests⟩

/-- The text of a value tells the value and where it ends, in front of everything that closes. -/
theorem endsItself_chars (j : Json) : EndsItself chars j := by
  induction j using Json.induction with
  | step j ih =>
    intro k r s hr hs h
    have kind := opening_eq_of_append_eq h
    cases j with
    | string a =>
      cases k with
      | string b =>
        obtain ⟨texts, rests⟩ := eq_of_quoted_append_eq h
        exact ⟨by rw [String.toList_inj.mp texts], rests⟩
      | _ => exact nomatch kind
    | array items =>
      cases k with
      | array others =>
        rw [chars_array, chars_array] at h
        have starts : ∀ i : Json, ∃ c cs, i.chars = c :: cs ∧ c ≠ ']' := by
          intro i
          obtain ⟨c, cs, spelled, starts, -⟩ := i.chars_starts
          refine ⟨c, cs, spelled, ?_⟩
          rintro rfl
          exact nomatch starts
        obtain ⟨rfl, rests⟩ := eq_of_intercalate_append_eq rfl (by decide) starts ih
          (List.cons.inj h).2
        exact ⟨rfl, rests⟩
      | _ => exact nomatch kind
    | object members =>
      cases k with
      | object others =>
        rw [chars_object, chars_object] at h
        have starts : ∀ m : String × Json, ∃ c cs, memberText m = c :: cs ∧ c ≠ '}' :=
          fun m => ⟨'"', _, rfl, by decide⟩
        have each : ∀ m ∈ members, EndsItself memberText m := fun m hm =>
          endsItself_memberText (ih m.2 (List.mem_map_of_mem hm))
        obtain ⟨rfl, rests⟩ := eq_of_intercalate_append_eq rfl (by decide) starts each
          (List.cons.inj h).2
        exact ⟨rfl, rests⟩
      | _ => exact nomatch kind
    | _ => exact eq_of_word_append_eq rfl kind.symm hr hs h

/-- No two values have the same text. -/
theorem text_injective : Function.Injective text := by
  intro j k same
  have chars := String.ofList_inj.mp same
  have h : j.chars ++ [] = k.chars ++ [] := by rw [List.append_nil, List.append_nil, chars]
  exact (endsItself_chars j k [] [] closes_nil closes_nil h).1

end Json

/-- The errors that quote rejected input show exactly this input. -/
theorem Error.injective_context {quote : Json → Error}
    (h : quote ∈ [argumentsNotObject, notSelection, fragmentNameNotString]) :
    Function.Injective fun j => (quote j).context := by
  simp only [List.mem_cons, List.not_mem_nil, or_false] at h
  intro j k same
  rcases h with rfl | rfl | rfl <;> exact Json.text_injective (Option.some.inj same)

end GraphQLDoc
