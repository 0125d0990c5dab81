import GraphQLDoc.Proofs.Reader
import GraphQLDoc.Value.Text
import Mathlib.Algebra.Field.Rat
import Mathlib.Data.List.Basic
import Mathlib.Tactic.Ring

/-!
# Number literals

* `Numeral`: a literal without its sign, part by part. `Numeral.chars` is its text and
  `Numeral.value` the number that it stands for.
* `Numeral.read?`: the parts of a text, or nothing if it is no literal. It finds the parts of every
  valid literal (`read?_chars`).
-/

namespace GraphQLDoc

/-! ## Digits -/

theorem digits_ne_nil (n : Nat) : digits n ≠ [] := Nat.toDigits_ne_nil

theorem isDigit_of_mem_digits {n : Nat} {c : Char} (h : c ∈ digits n) : c.isDigit = true :=
  Nat.isDigit_of_mem_toDigits (by decide) (by decide) h

/-- Only zero starts with a zero. -/
theorem head?_digits {n : Nat} (h : n ≠ 0) : (digits n).head? ≠ some '0' := by
  induction n using Nat.strongRecOn with
  | ind n ih =>
    by_cases small : n < 10
    · intro zero
      rw [digits, Nat.toDigits_of_lt_base small, List.head?_cons, Option.some.injEq] at zero
      have value := Nat.toNat_digitChar_sub_48_of_lt_ten small
      rw [zero] at value
      exact h value.symm
    · rw [digits, Nat.toDigits_of_base_le (by decide) (Nat.le_of_not_lt small),
        List.head?_append_of_ne_nil _ Nat.toDigits_ne_nil]
      exact ih (n / 10) (by omega) (by omega)

/-- The number that decimal digits stand for. -/
def digitsValue (ds : List Char) : Nat := Nat.ofDigitChars 10 ds 0

theorem digitsValue_digits (n : Nat) : digitsValue (digits n) = n := Nat.ofDigitChars_ten_toDigits

theorem digitsValue_append_zeros (ds : List Char) (k : Nat) :
    digitsValue (ds ++ List.replicate k '0') = digitsValue ds * 10 ^ k := by
  rw [digitsValue, Nat.ofDigitChars_append, Nat.ofDigitChars_replicate_zero, Nat.mul_comm]
  rfl

theorem digitsValue_zeros_append (k : Nat) (ds : List Char) :
    digitsValue (List.replicate k '0' ++ ds) = digitsValue ds := by
  rw [digitsValue, Nat.ofDigitChars_append, Nat.ofDigitChars_replicate_zero, Nat.mul_zero]
  rfl

/-! ## Literals -/

/-- A number literal without its sign. -/
structure Numeral where
  whole : List Char
  /-- The digits after the point. Without any there is no point. -/
  places : List Char
  /-- The exponent, if there is one. -/
  power : Option Int

namespace Numeral

/-- No part lacks digits, and none but a lone zero starts with a zero. -/
structure Valid (n : Numeral) : Prop where
  nonempty : n.whole ≠ []
  whole : ∀ c ∈ n.whole, c.isDigit = true
  leading : n.whole.head? = some '0' → n.whole = ['0']
  places : ∀ c ∈ n.places, c.isDigit = true

def placesChars (places : List Char) : List Char := if places = [] then [] else '.' :: places

/-- The sign of an exponent is always written. -/
def powerChars : Option Int → List Char
  | none => []
  | some e => 'e' :: (if e < 0 then '-' else '+') :: digits e.natAbs

def chars (n : Numeral) : List Char := n.whole ++ (placesChars n.places ++ powerChars n.power)

def value (n : Numeral) : ℚ :=
  digitsValue (n.whole ++ n.places) * 10 ^ (n.power.getD 0 - n.places.length)

/-! ## Reading -/

/-- Digits after an optional sign. -/
def signed : Reader Int
  | '-' :: text => (Reader.run Char.isDigit text).map fun (ds, rest) => (-digitsValue ds, rest)
  | '+' :: text => (Reader.run Char.isDigit text).map fun (ds, rest) => (digitsValue ds, rest)
  | text => (Reader.run Char.isDigit text).map fun (ds, rest) => (digitsValue ds, rest)

/-- The exponent, if the text starts with one. -/
def readPower : Reader (Option Int)
  | 'e' :: text => (signed text).map fun (e, rest) => (some e, rest)
  | 'E' :: text => (signed text).map fun (e, rest) => (some e, rest)
  | text => some (none, text)

/-- The digits after a point, if the text starts with one. -/
def readPlaces : Reader (List Char)
  | '.' :: text => Reader.run Char.isDigit text
  | text => some ([], text)

/-- The parts of a literal. -/
def read? (text : List Char) : Option Numeral := do
  let (whole, text) ← Reader.run Char.isDigit text
  let (places, text) ← readPlaces text
  let (power, text) ← readPower text
  if text = [] ∧ (whole.head? = some '0' → whole = ['0']) then some ⟨whole, places, power⟩
  else none

theorem readPower_powerChars (power : Option Int) :
    readPower (powerChars power) = some (power, []) := by
  cases power with
  | none => rfl
  | some e =>
    have run : Reader.run Char.isDigit (digits e.natAbs ++ []) = some (digits e.natAbs, []) :=
      Reader.run_append (digits_ne_nil e.natAbs) (fun _ hc => isDigit_of_mem_digits hc)
        fun _ hc => nomatch hc
    rw [List.append_nil] at run
    by_cases h : e < 0
    · have value : -(digitsValue (digits e.natAbs) : Int) = e := by
        rw [digitsValue_digits]
        omega
      have exponent : signed ('-' :: digits e.natAbs) = some (e, []) := by
        simp only [signed, run, Option.map_some, value]
      rw [powerChars, if_pos h, readPower, exponent, Option.map_some]
    · have value : (digitsValue (digits e.natAbs) : Int) = e := by
        rw [digitsValue_digits]
        omega
      have exponent : signed ('+' :: digits e.natAbs) = some (e, []) := by
        simp only [signed, run, Option.map_some, value]
      rw [powerChars, if_neg h, readPower, exponent, Option.map_some]

theorem readPlaces_append {places : List Char} (h : ∀ c ∈ places, c.isDigit = true)
    (power : Option Int) :
    readPlaces (placesChars places ++ powerChars power) = some (places, powerChars power) := by
  by_cases empty : places = []
  · subst empty
    cases power <;> rfl
  · have ends : ∀ c ∈ (powerChars power).head?, c.isDigit = false := by
      cases power <;> simp [powerChars]
    rw [placesChars, if_neg empty]
    exact Reader.run_append empty h ends

theorem read?_chars {n : Numeral} (h : n.Valid) : read? n.chars = some n := by
  have ends : ∀ c ∈ (placesChars n.places ++ powerChars n.power).head?, c.isDigit = false := by
    unfold placesChars
    split
    · cases n.power <;> simp [powerChars]
    · simp
  have whole : Reader.run Char.isDigit n.chars =
      some (n.whole, placesChars n.places ++ powerChars n.power) :=
    Reader.run_append h.nonempty h.whole ends
  simp only [read?, whole, readPlaces_append h.places, readPower_powerChars, Option.bind_eq_bind,
    Option.bind_some]
  exact if_pos ⟨trivial, h.leading⟩

end Numeral

end GraphQLDoc
