import GraphQLDoc.Proofs.Numerals
import GraphQLDoc.Proofs.Shortest
import Mathlib.Algebra.GroupWithZero.Basic
import Mathlib.Data.List.DropRight

/-!
# The literals of numbers

* `Denotes`, `Spells`: a text is a number literal without a sign, or with one, for a certain number.
* `Decimal.denotes_write`: the literal of a decimal stands for exactly this decimal, positionally
  and scientifically.
* `Number.value`: the decimal number that a number is written as. `Number.number?_chars` reads it
  back.
-/

namespace GraphQLDoc

/-- The text is a literal for the number, without a sign. -/
def Denotes (text : List Char) (q : ℚ) : Prop :=
  ∃ n : Numeral, n.Valid ∧ n.chars = text ∧ n.value = q

/-- The number that a literal with an optional sign stands for. -/
def number? : List Char → Option ℚ
  | '-' :: text => (Numeral.read? text).map fun n => -n.value
  | text => (Numeral.read? text).map Numeral.value

theorem isDelimiter_eq_false_of_isDigit {c : Char} (h : c.isDigit = true) :
    isDelimiter c = false := by
  apply Reader.isDelimiter_eq_false_of_isNameRest
  rw [isNameRest, Char.isAlphanum, h, Bool.or_true, Bool.or_true]

theorem isNameStart_eq_false_of_isDigit {c : Char} (h : c.isDigit = true) :
    isNameStart c = false := by
  have digit := (Char.isDigit_iff_toNat.mp h).2
  by_contra start
  rw [Bool.not_eq_false, isNameStart_iff] at start
  rcases start with rfl | ⟨letter, -⟩ | ⟨letter, -⟩
  · exact absurd digit (by decide)
  · exact absurd (Nat.le_trans (UInt32.le_iff_toNat_le.mp letter) digit) (by decide)
  · exact absurd (Nat.le_trans (UInt32.le_iff_toNat_le.mp letter) digit) (by decide)

namespace Denotes

variable {text : List Char} {q : ℚ}

theorem starts (h : Denotes text q) : ∃ c cs, text = c :: cs ∧ c.isDigit = true := by
  obtain ⟨n, valid, rfl, -⟩ := h
  obtain ⟨c, cs, spelled⟩ := List.exists_cons_of_ne_nil valid.nonempty
  refine ⟨c, cs ++ (Numeral.placesChars n.places ++ Numeral.powerChars n.power), ?_,
    valid.whole c (spelled ▸ List.mem_cons_self)⟩
  rw [Numeral.chars, spelled, List.cons_append]

theorem plain (h : Denotes text q) : ∀ c ∈ text, isDelimiter c = false := by
  obtain ⟨n, valid, rfl, -⟩ := h
  have places : ∀ c ∈ Numeral.placesChars n.places, isDelimiter c = false := by
    unfold Numeral.placesChars
    split
    · simp
    · exact List.forall_mem_cons.mpr
        ⟨rfl, fun c hc => isDelimiter_eq_false_of_isDigit (valid.places c hc)⟩
  have power : ∀ c ∈ Numeral.powerChars n.power, isDelimiter c = false := by
    cases n.power with
    | none => simp [Numeral.powerChars]
    | some e =>
      refine List.forall_mem_cons.mpr ⟨rfl, List.forall_mem_cons.mpr ⟨by split <;> rfl, ?_⟩⟩
      exact fun c hc => isDelimiter_eq_false_of_isDigit (isDigit_of_mem_digits hc)
  refine List.forall_mem_append.mpr ⟨fun c hc => ?_, List.forall_mem_append.mpr ⟨places, power⟩⟩
  exact isDelimiter_eq_false_of_isDigit (valid.whole c hc)

theorem read? (h : Denotes text q) : (Numeral.read? text).map Numeral.value = some q := by
  obtain ⟨n, valid, rfl, rfl⟩ := h
  rw [Numeral.read?_chars valid, Option.map_some]

end Denotes

/-- The text is a literal for the number, with a minus sign or without. -/
def Spells (text : List Char) (q : ℚ) : Prop :=
  Denotes text q ∨ ∃ more, text = '-' :: more ∧ Denotes more (-q)

namespace Spells

variable {text : List Char} {q : ℚ}

theorem number? (h : Spells text q) : number? text = some q := by
  rcases h with unsigned | ⟨more, rfl, denotes⟩
  · obtain ⟨c, cs, starts, digit⟩ := unsigned.starts
    have read := unsigned.read?
    rw [starts] at read ⊢
    unfold GraphQLDoc.number?
    split
    · next heq =>
      cases heq
      exact nomatch digit
    · exact read
  · have read := denotes.read?
    rw [Option.map_eq_some_iff] at read
    obtain ⟨m, hm, hq⟩ := read
    rw [GraphQLDoc.number?, hm, Option.map_some, hq, neg_neg]

theorem plain (h : Spells text q) : ∀ c ∈ text, isDelimiter c = false := by
  rcases h with unsigned | ⟨more, rfl, denotes⟩
  · exact unsigned.plain
  · exact List.forall_mem_cons.mpr ⟨rfl, denotes.plain⟩

/-- A literal is never taken for a name. -/
theorem starts (h : Spells text q) : ∃ c cs, text = c :: cs ∧ isNameStart c = false := by
  rcases h with unsigned | ⟨more, rfl, -⟩
  · obtain ⟨c, cs, starts, digit⟩ := unsigned.starts
    exact ⟨c, cs, starts, isNameStart_eq_false_of_isDigit digit⟩
  · exact ⟨'-', more, rfl, rfl⟩

end Spells

theorem denotes_digits (n : Nat) : Denotes (digits n) n := by
  refine ⟨⟨digits n, [], none⟩, ?_, ?_, ?_⟩
  · refine ⟨digits_ne_nil n, fun c hc => isDigit_of_mem_digits hc, fun h => ?_, by simp⟩
    by_cases zero : n = 0
    · subst zero
      rfl
    · exact absurd h (head?_digits zero)
  · simp [Numeral.chars, Numeral.placesChars, Numeral.powerChars]
  · simp [Numeral.value, digitsValue_digits]

/-! ## Digits and a point -/

/-- Digits that start with the first one that counts. -/
structure Significant (ds : List Char) : Prop where
  nonempty : ds ≠ []
  isDigit : ∀ c ∈ ds, c.isDigit = true
  head : ds.head? ≠ some '0'

namespace Significant

variable {ds : List Char} (h : Significant ds) {e : Int}

include h

/-- All digits stand behind the point, after zeros. -/
theorem denotes_below_one (small : e < 0) :
    Denotes ('0' :: '.' :: (List.replicate (-e - 1).toNat '0' ++ ds))
      (digitsValue ds * 10 ^ (e + 1 - ds.length)) := by
  have behind : List.replicate (-e - 1).toNat '0' ++ ds ≠ [] := by
    simp [h.nonempty]
  have places : ∀ c ∈ List.replicate (-e - 1).toNat '0' ++ ds, c.isDigit = true := by
    intro c hc
    rcases List.mem_append.mp hc with hc | hc
    · exact List.eq_of_mem_replicate hc ▸ rfl
    · exact h.isDigit c hc
  have same : digitsValue (['0'] ++ (List.replicate (-e - 1).toNat '0' ++ ds)) = digitsValue ds :=
    digitsValue_zeros_append ((-e - 1).toNat + 1) ds
  have exponent : 0 - ((List.replicate (-e - 1).toNat '0' ++ ds).length : ℤ) =
      e + 1 - ds.length := by
    rw [List.length_append, List.length_replicate]
    omega
  refine ⟨⟨['0'], List.replicate (-e - 1).toNat '0' ++ ds, none⟩, ?_, ?_, ?_⟩
  · exact ⟨List.cons_ne_nil _ _, List.forall_mem_singleton.mpr rfl, fun _ => rfl, places⟩
  · rw [Numeral.chars, Numeral.placesChars, if_neg behind, Numeral.powerChars, List.append_nil]
    rfl
  · rw [Numeral.value, same, Option.getD_none, exponent]

/-- Zeros fill the gap between the digits and the point. More of them may stand behind it. -/
theorem denotes_whole (large : ¬e < 0) (whole : ds.length ≤ e.toNat + 1) (k : Nat) :
    Denotes (ds ++ List.replicate (e.toNat + 1 - ds.length) '0' ++
        Numeral.placesChars (List.replicate k '0'))
      (digitsValue ds * 10 ^ (e + 1 - ds.length)) := by
  have nonempty : ds ++ List.replicate (e.toNat + 1 - ds.length) '0' ≠ [] := by
    simp [h.nonempty]
  have isDigit : ∀ c ∈ ds ++ List.replicate (e.toNat + 1 - ds.length) '0', c.isDigit = true := by
    intro c hc
    rcases List.mem_append.mp hc with hc | hc
    · exact h.isDigit c hc
    · exact List.eq_of_mem_replicate hc ▸ rfl
  have head := h.head
  rw [← List.head?_append_of_ne_nil _ h.nonempty] at head
  have exponent : e + 1 - (ds.length : ℤ) = (e.toNat + 1 - ds.length : ℕ) := by omega
  have places : 0 - (k : ℤ) = -k := zero_sub _
  refine ⟨⟨ds ++ List.replicate (e.toNat + 1 - ds.length) '0', List.replicate k '0', none⟩,
    ?_, ?_, ?_⟩
  · exact ⟨nonempty, isDigit, fun zero => absurd zero head,
      fun c hc => List.eq_of_mem_replicate hc ▸ rfl⟩
  · rw [Numeral.chars, Numeral.powerChars, List.append_nil]
  · rw [exponent, zpow_natCast, Numeral.value, digitsValue_append_zeros, digitsValue_append_zeros,
      Option.getD_none, List.length_replicate, places, zpow_neg, zpow_natCast]
    push_cast
    exact mul_inv_cancel_right₀ (pow_ne_zero k (by decide)) _

/-- The point stands between the digits. -/
theorem denotes_between (large : ¬e < 0) (part : ¬ds.length ≤ e.toNat + 1) :
    Denotes (ds.take (e.toNat + 1) ++ '.' :: ds.drop (e.toNat + 1))
      (digitsValue ds * 10 ^ (e + 1 - ds.length)) := by
  have before : ds.take (e.toNat + 1) ≠ [] := by
    simp [h.nonempty]
  have behind : ds.drop (e.toNat + 1) ≠ [] := by
    simpa using part
  have head := h.head
  rw [← List.take_append_drop (e.toNat + 1) ds, List.head?_append_of_ne_nil _ before] at head
  have exponent : 0 - ((ds.drop (e.toNat + 1)).length : ℤ) = e + 1 - ds.length := by
    rw [List.length_drop]
    omega
  refine ⟨⟨ds.take (e.toNat + 1), ds.drop (e.toNat + 1), none⟩, ?_, ?_, ?_⟩
  · exact ⟨before, fun c hc => h.isDigit c (List.mem_of_mem_take hc),
      fun zero => absurd zero head, fun c hc => h.isDigit c (List.mem_of_mem_drop hc)⟩
  · rw [Numeral.chars, Numeral.placesChars, if_neg behind, Numeral.powerChars, List.append_nil]
  · rw [Numeral.value, List.take_append_drop, Option.getD_none, exponent]

omit h in
/-- One digit before the point, and the exponent of the first digit. -/
theorem denotes_power {c : Char} {cs : List Char} (h : Significant (c :: cs)) (e : Int) :
    Denotes (c :: (Numeral.placesChars cs ++ Numeral.powerChars (some e)))
      (digitsValue (c :: cs) * 10 ^ (e + 1 - (c :: cs).length)) := by
  obtain ⟨first, others⟩ := List.forall_mem_cons.mp h.isDigit
  have exponent : e - (cs.length : ℤ) = e + 1 - ((c :: cs).length : ℤ) := by
    rw [List.length_cons]
    omega
  refine ⟨⟨[c], cs, some e⟩, ?_, rfl, ?_⟩
  · exact ⟨List.cons_ne_nil _ _, List.forall_mem_singleton.mpr first,
      fun zero => absurd zero h.head, others⟩
  · rw [Numeral.value, List.singleton_append, Option.getD_some, exponent]

end Significant

namespace Decimal

/-! ## Decimals -/

/-- The number itself. -/
def value (d : Decimal) : ℚ := d.coefficient * 10 ^ d.exponent

variable {d : Decimal} (nonzero : d.coefficient ≠ 0)

include nonzero

theorem digits_eq_append_zeros :
    ∃ k, digits d.coefficient = d.significantDigits ++ List.replicate k '0' := by
  have zeros : (digits d.coefficient).rtakeWhile (· == '0') =
      List.replicate ((digits d.coefficient).rtakeWhile (· == '0')).length '0' :=
    List.eq_replicate_of_mem fun c hc => by simpa using List.mem_rtakeWhile_imp hc
  refine ⟨((digits d.coefficient).rtakeWhile (· == '0')).length, ?_⟩
  rw [significantDigits, if_neg nonzero, ← zeros]
  exact List.rdropWhile_append_rtakeWhile.symm

theorem significant_significantDigits : Significant d.significantDigits := by
  obtain ⟨k, hk⟩ := digits_eq_append_zeros nonzero
  have head := head?_digits nonzero
  have nonempty : d.significantDigits ≠ [] := by
    intro empty
    rw [empty, List.nil_append] at hk
    cases k with
    | zero => exact digits_ne_nil _ hk
    | succ k => exact head (hk ▸ rfl)
  refine ⟨nonempty, fun c hc => ?_, ?_⟩
  · exact isDigit_of_mem_digits (hk ▸ List.mem_append_left _ hc)
  · rwa [hk, List.head?_append_of_ne_nil _ nonempty] at head

theorem value_eq :
    d.value = digitsValue d.significantDigits *
      10 ^ (d.leadingExponent + 1 - d.significantDigits.length) := by
  obtain ⟨k, hk⟩ := digits_eq_append_zeros nonzero
  have coefficient : d.coefficient = digitsValue d.significantDigits * 10 ^ k := by
    rw [← digitsValue_append_zeros, ← hk, digitsValue_digits]
  have exponent : d.leadingExponent + 1 - d.significantDigits.length = d.exponent + k := by
    rw [leadingExponent, hk, List.length_append, List.length_replicate]
    omega
  calc d.value
      = (digitsValue d.significantDigits * 10 ^ k : ℕ) * 10 ^ d.exponent := by
        rw [value, coefficient]
    _ = digitsValue d.significantDigits * (10 ^ d.exponent * 10 ^ k) := by
        push_cast
        ring
    _ = digitsValue d.significantDigits *
        10 ^ (d.leadingExponent + 1 - d.significantDigits.length) := by
        rw [exponent, zpow_add₀ (by decide), zpow_natCast]

theorem denotes_positional (pointed : Bool) : Denotes (d.positional pointed) d.value := by
  have significant := significant_significantDigits nonzero
  rw [value_eq nonzero, positional]
  dsimp only
  by_cases small : d.leadingExponent < 0
  · rw [if_pos small]
    exact significant.denotes_below_one small
  · rw [if_neg small]
    by_cases whole : d.significantDigits.length ≤ d.leadingExponent.toNat + 1
    · rw [if_pos whole]
      cases pointed with
      | true => exact significant.denotes_whole small whole 1
      | false => exact significant.denotes_whole small whole 0
    · rw [if_neg whole]
      exact significant.denotes_between small whole

theorem denotes_scientific : Denotes d.scientific d.value := by
  have significant := significant_significantDigits nonzero
  rw [value_eq nonzero, scientific]
  generalize d.significantDigits = ds at *
  cases ds with
  | nil => exact absurd rfl significant.nonempty
  | cons c cs =>
    have written := significant.denotes_power d.leadingExponent
    cases cs <;> exact written

/-- Whatever a style decides, its literals are exact. -/
theorem denotes_write (style : DecimalStyle) : Denotes (style.write d) d.value := by
  unfold DecimalStyle.write
  split
  · exact denotes_scientific nonzero
  · exact denotes_positional nonzero style.pointed

end Decimal

namespace Number

/-! ## Numbers -/

/-- The decimal number that is written for a number. Integers are exact, and for a double it is the
shortest decimal. -/
def value : Number → ℚ
  | .int n => n.toInt
  | .float x => (if x.isNegative then -1 else 1) * x.shortest.value

variable {n : Number}

theorem spells_integerChars (n : Int) : Spells (integerChars n) n := by
  have magnitude := denotes_digits n.natAbs
  rw [← Int.cast_natCast] at magnitude
  unfold integerChars
  by_cases negative : n < 0
  · have opposite : (n.natAbs : Int) = -n := by omega
    rw [opposite, Int.cast_neg] at magnitude
    exact .inr ⟨digits n.natAbs, if_pos negative, magnitude⟩
  · have same : (n.natAbs : Int) = n := by omega
    rw [same] at magnitude
    exact .inl ((if_neg negative).symm ▸ magnitude)

/-- A double has the sign of its text, and the size of its decimal. -/
theorem spells_writeFinite {style : DecimalStyle} {x : Binary64}
    (written : Denotes (style.write x.shortest) x.shortest.value) :
    Spells (style.writeFinite x) (Number.float x).value := by
  unfold DecimalStyle.writeFinite
  cases negative : x.isNegative with
  | true => exact .inr ⟨style.write x.shortest, rfl, by simpa [value, negative] using written⟩
  | false => exact .inl (by simpa [value, negative] using written)

theorem spells_chars (h : n.isFinite = true) : Spells n.chars n.value := by
  cases n with
  | int n => exact spells_integerChars n.toInt
  | float x =>
    have finite : x.isFinite = true := h
    have notNaN : x.isNaN = false := by
      have field : x.exponentField ≠ 2047 := by simpa [Binary64.isFinite] using finite
      simp [Binary64.isNaN, field]
    cases zero : x.isZero with
    | true =>
      have noValue : value (.float x) = (0 : ℕ) := by
        simp [value, Binary64.shortest, zero, Decimal.value]
      have spelled : chars (.float x) = digits 0 := by
        simp [chars, notNaN, finite, zero, digits]
      exact .inl (noValue ▸ spelled ▸ denotes_digits 0)
    | false =>
      have spelled : chars (.float x) = style.writeFinite x := by
        simp [chars, notNaN, finite, zero]
      rw [spelled]
      exact spells_writeFinite
        (Decimal.denotes_write (Binary64.coefficient_shortest_ne_zero zero) style)

theorem number?_chars (h : n.isFinite = true) : number? n.chars = some n.value :=
  (spells_chars h).number?

end Number

end GraphQLDoc
