import GraphQLDoc.Proofs.Interval

/-!
# Exact literals

* `Decimal.lt_leadingExponent_iff`: the power of ten that the first digit of a decimal counts.
* `millionth`, `sextillion`: the doubles where the notation changes.
* `DecimalStyle.mem_write_iff`, `Decimal.point_not_mem_positional`: when a text has an exponent, and
  when it has no point.
* `Number.literals_exact`: the literals of all integers and of all finite doubles are valid and
  exact, and each has the notation that its size asks for.
-/

namespace GraphQLDoc

open Binary64

/-! ## Sizes of decimals -/

namespace Decimal

variable {d : Decimal}

theorem le_value (h : d.coefficient ≠ 0) : 10 ^ d.leadingExponent ≤ d.value := by
  have length : 0 < (digits d.coefficient).length := Nat.length_toDigits_pos
  have exponent : d.leadingExponent = d.exponent + ((digits d.coefficient).length - 1 : ℕ) := by
    unfold leadingExponent
    omega
  have size : 10 ^ ((digits d.coefficient).length - 1) ≤ d.coefficient := by
    rcases Nat.eq_zero_or_pos ((digits d.coefficient).length - 1) with one | more
    · rw [one]
      exact Nat.pos_of_ne_zero h
    · by_contra less
      have short := (Nat.length_toDigits_le_iff (by decide) more).mpr (Nat.lt_of_not_le less)
      exact absurd short (by unfold digits at *; omega)
  have power : (10 : ℚ) ^ ((digits d.coefficient).length - 1) ≤ d.coefficient := by
    exact_mod_cast size
  rw [exponent, zpow_add₀ (by decide), zpow_natCast, value, mul_comm]
  gcongr

theorem value_lt (d : Decimal) : d.value < 10 ^ (d.leadingExponent + 1) := by
  have exponent : d.leadingExponent + 1 = d.exponent + (digits d.coefficient).length := by
    unfold leadingExponent
    omega
  have size : d.coefficient < 10 ^ (digits d.coefficient).length :=
    (Nat.length_toDigits_le_iff (by decide) Nat.length_toDigits_pos).mp (Nat.le_refl _)
  have power : (d.coefficient : ℚ) < 10 ^ (digits d.coefficient).length := by
    exact_mod_cast size
  rw [exponent, zpow_add₀ (by decide), zpow_natCast, value, mul_comm]
  gcongr

/-- The first digit counts a power of ten that can be read off the size of the number. -/
theorem lt_leadingExponent_iff (h : d.coefficient ≠ 0) (n : ℤ) :
    n < d.leadingExponent ↔ 10 ^ (n + 1) ≤ d.value := by
  constructor
  · intro less
    exact le_trans (zpow_le_zpow_right₀ (by norm_num) less) (le_value h)
  · intro large
    by_contra notLess
    have small : d.value < 10 ^ (n + 1) :=
      lt_of_lt_of_le (value_lt d) (zpow_le_zpow_right₀ (by norm_num) (by omega))
    exact absurd large (not_le.mpr small)

end Decimal

/-! ## Where the notation changes -/

namespace Binary64

/-- The double nearest to a millionth. -/
def millionth : Binary64 := ⟨0x3EB0C6F7A0B5ED8D⟩

/-- The double that is a one with 21 zeros. -/
def sextillion : Binary64 := ⟨0x444B1AE4D6E2EF50⟩

theorem shortest_millionth : millionth.shortest = ⟨10, -7⟩ := by decide

theorem shortest_sextillion : sextillion.shortest = ⟨1, 21⟩ := by decide

theorem value_sextillion : sextillion.value = 10 ^ 21 := by
  have significand : sextillion.significand = 0x1B1AE4D6E2EF50 := by decide
  have exponent : sextillion.exponent = 17 := by decide
  have positive : sextillion.isNegative = false := by decide
  rw [value, significand, exponent, positive]
  norm_num

theorem roundsTo_millionth : RoundsTo (1 / 10 ^ 6) millionth := by
  have rounded := Number.roundsTo_value (x := millionth) (by decide)
  have value : (Number.float millionth).value = 1 / 10 ^ 6 := by
    have positive : millionth.isNegative = false := by decide
    rw [Number.value, shortest_millionth, positive, Decimal.value]
    norm_num
  rwa [value] at rounded

end Binary64

/-! ## What the text looks like -/

namespace Decimal

variable {d : Decimal}

theorem mem_scientific (d : Decimal) : 'e' ∈ d.scientific := by
  unfold scientific
  simp

/-- Positional notation knows digits and the point. -/
theorem isDigit_or_of_mem_positional (h : d.coefficient ≠ 0) {c : Char}
    (hc : c ∈ d.positional false) : c.isDigit = true ∨ c = '.' := by
  have significant := (significant_significantDigits h).isDigit
  have zero : ∀ n, c ∈ List.replicate n '0' → c.isDigit = true := fun n hn =>
    List.eq_of_mem_replicate hn ▸ rfl
  unfold positional at hc
  dsimp only at hc
  split at hc
  · rcases List.mem_cons.mp hc with rfl | hc
    · exact .inl rfl
    · rcases List.mem_cons.mp hc with point | hc
      · exact .inr point
      · exact .inl ((List.mem_append.mp hc).elim (zero _) (significant c))
  · split at hc
    · rw [if_neg Bool.false_ne_true, List.append_nil] at hc
      exact .inl ((List.mem_append.mp hc).elim (significant c) (zero _))
    · rcases List.mem_append.mp hc with hc | hc
      · exact .inl (significant c (List.mem_of_mem_take hc))
      · rcases List.mem_cons.mp hc with point | hc
        · exact .inr point
        · exact .inl (significant c (List.mem_of_mem_drop hc))

theorem not_mem_positional (h : d.coefficient ≠ 0) : 'e' ∉ d.positional false := fun hc =>
  (isDigit_or_of_mem_positional h hc).elim (by decide) (by decide)

/-- All digits of a whole number stand before the point, so there is none. -/
theorem point_not_mem_positional (h : d.coefficient ≠ 0) (whole : 0 ≤ d.exponent) :
    '.' ∉ d.positional false := by
  obtain ⟨k, hk⟩ := digits_eq_append_zeros h
  have significant := (significant_significantDigits h).isDigit
  have positive : 0 < (digits d.coefficient).length := Nat.length_toDigits_pos
  have length := congrArg List.length hk
  rw [List.length_append, List.length_replicate] at length
  have large : ¬d.leadingExponent < 0 := by
    unfold leadingExponent
    omega
  have enough : d.significantDigits.length ≤ d.leadingExponent.toNat + 1 := by
    unfold leadingExponent
    omega
  unfold positional
  dsimp only
  rw [if_neg large, if_pos enough, if_neg Bool.false_ne_true, List.append_nil, List.mem_append,
    not_or]
  refine ⟨fun hc => ?_, fun hc => ?_⟩
  · exact absurd (significant '.' hc) (by decide)
  · exact absurd (List.eq_of_mem_replicate hc) (by decide)

end Decimal

/-- An exponent is written exactly in scientific notation. -/
theorem DecimalStyle.mem_write_iff {style : DecimalStyle} (plain : style.pointed = false)
    {d : Decimal} (h : d.coefficient ≠ 0) :
    'e' ∈ style.write d ↔
      d.leadingExponent < style.lowest ∨ style.highest < d.leadingExponent := by
  rw [write, plain]
  split
  · next far => exact iff_of_true d.mem_scientific far
  · next near => exact iff_of_false (Decimal.not_mem_positional h) near

namespace Numeral

variable {m : Numeral}

theorem isSome_power_iff (h : m.Valid) : m.power.isSome ↔ 'e' ∈ m.chars := by
  have whole : 'e' ∉ m.whole := fun hc => nomatch h.whole 'e' hc
  have places : 'e' ∉ placesChars m.places := by
    unfold placesChars
    split
    · exact List.not_mem_nil
    · exact fun hc => (List.mem_cons.mp hc).elim (by decide) fun hc => nomatch h.places 'e' hc
  rw [chars, List.mem_append, List.mem_append, or_iff_right whole, or_iff_right places]
  cases m.power with
  | none => simp [powerChars]
  | some e => simp [powerChars]

theorem places_eq_nil (h : '.' ∉ m.chars) : m.places = [] := by
  by_contra some
  refine h (List.mem_append_right _ (List.mem_append_left _ ?_))
  rw [placesChars, if_neg some]
  exact List.mem_cons_self

/-- A literal with a minus sign, if there is one. -/
def signedChars (negative : Bool) (m : Numeral) : List Char :=
  if negative then '-' :: m.chars else m.chars

/-- The number that such a literal stands for. -/
def signedValue (negative : Bool) (m : Numeral) : ℚ := if negative then -m.value else m.value

theorem mem_signedChars (negative : Bool) {c : Char} (h : c ≠ '-') :
    c ∈ m.signedChars negative ↔ c ∈ m.chars := by
  unfold signedChars
  split
  · rw [List.mem_cons, or_iff_right h]
  · rfl

end Numeral

namespace Number

variable {n : Number} {x y : Binary64}

theorem exists_numeral (h : n.isFinite = true) :
    ∃ negative m, Numeral.Valid m ∧ n.chars = m.signedChars negative ∧
      m.signedValue negative = n.value := by
  rcases spells_chars h with ⟨m, valid, spelled, value⟩ | ⟨text, spelled, m, valid, rfl, value⟩
  · exact ⟨false, m, valid, spelled.symm, value⟩
  · exact ⟨true, m, valid, spelled, by rw [Numeral.signedValue, if_pos rfl, value, neg_neg]⟩

theorem chars_of_isZero (finite : x.isFinite = true) (zero : x.isZero = true) :
    (float x).chars = ['0'] := by
  simp [chars, isNaN_of_isFinite finite, finite, zero]

theorem mem_chars_iff (finite : x.isFinite = true) (nonzero : x.isZero = false) {c : Char}
    (h : c ≠ '-') : c ∈ (float x).chars ↔ c ∈ style.write x.shortest := by
  simp only [chars, isNaN_of_isFinite finite, finite, nonzero, DecimalStyle.writeFinite,
    Bool.not_true, Bool.false_eq_true, if_false]
  split
  · rw [List.mem_cons, or_iff_right h]
  · rfl

/-- Scientific notation is for the numbers that are far from one. -/
theorem scientific_iff (nonzero : x.isZero = false) :
    x.shortest.leadingExponent < style.lowest ∨ style.highest < x.shortest.leadingExponent ↔
      10 ^ 21 ≤ |x.value| ∨ |x.value| < millionth.value := by
  have coefficient := coefficient_shortest_ne_zero nonzero
  have small : millionth.shortest.value = 10 ^ (-7 + 1 : ℤ) := by
    rw [shortest_millionth, Decimal.value]
    norm_num
  have large : sextillion.shortest.value = 10 ^ (20 + 1 : ℤ) := by
    rw [shortest_sextillion, Decimal.value]
    norm_num
  have least : |millionth.value| = millionth.value := by
    rw [abs_value, value_eq_line]
    rfl
  have power : |sextillion.value| = 10 ^ 21 := by
    rw [value_sextillion]
    norm_num
  have below : x.shortest.leadingExponent < -6 ↔ |x.value| < millionth.value := by
    rw [← least, ← value_shortest_lt_iff nonzero (by decide), small,
      ← not_le (b := x.shortest.value), ← Decimal.lt_leadingExponent_iff coefficient]
    omega
  have above : 20 < x.shortest.leadingExponent ↔ 10 ^ 21 ≤ |x.value| := by
    rw [Decimal.lt_leadingExponent_iff coefficient, ← large, ← power, ← not_lt, ← not_lt,
      value_shortest_lt_iff nonzero (by decide)]
  exact (or_congr below above).trans or_comm

section Notation

variable {negative : Bool} {m : Numeral} (finite : x.isFinite = true) (nonzero : x.isZero = false)
  (valid : m.Valid) (spelled : (float x).chars = m.signedChars negative)

include finite nonzero valid spelled

theorem isSome_power_iff_far :
    m.power.isSome ↔ x.shortest.leadingExponent < style.lowest ∨
      style.highest < x.shortest.leadingExponent := by
  rw [Numeral.isSome_power_iff valid, ← Numeral.mem_signedChars negative (by decide), ← spelled,
    mem_chars_iff finite nonzero (by decide),
    DecimalStyle.mem_write_iff rfl (coefficient_shortest_ne_zero nonzero)]

theorem places_eq_nil_of_whole (plain : m.power = none) {i : ℤ} (whole : x.value = i) :
    m.places = [] := by
  have near : ¬(x.shortest.leadingExponent < style.lowest ∨
      style.highest < x.shortest.leadingExponent) := by
    rw [← isSome_power_iff_far finite nonzero valid spelled, plain]
    exact Bool.false_ne_true
  apply Numeral.places_eq_nil
  rw [← Numeral.mem_signedChars negative (by decide), ← spelled,
    mem_chars_iff finite nonzero (by decide), DecimalStyle.write, if_neg near]
  exact Decimal.point_not_mem_positional (coefficient_shortest_ne_zero nonzero)
    (exponent_shortest_nonneg nonzero whole)

end Notation

theorem chars_eq_iff (hx : x.isFinite = true) (hy : y.isFinite = true) :
    (float x).chars = (float y).chars ↔ (x == y) = true := by
  constructor
  · intro same
    have read := number?_chars (n := .float x) hx
    rw [same, number?_chars (n := .float y) hy, Option.some.injEq] at read
    have rounded := roundsTo_value hx
    rw [← read] at rounded
    exact (value_eq_iff hx hy).mp (rounded.value_eq (roundsTo_value hy))
  · intro equal
    rcases (beq_iff hx hy).mp equal with rfl | ⟨zeroX, zeroY⟩
    · rfl
    · rw [chars_of_isZero hx zeroX, chars_of_isZero hy zeroY]

/-- The literals of numbers are exact. The literal of an integer stands for it, and that of a finite
double is rounded to it, and to no other number. Both zeros are written `0`, so doubles that are
written alike are equal. Of the others, those from `10 ^ 21` on and those below the double nearest
to a millionth have an exponent. The rest has none, and there a whole number has no point either. -/
theorem literals_exact :
    (∀ i : Int64, ∃ negative m, Numeral.Valid m ∧ (int i).chars = m.signedChars negative ∧
      m.signedValue negative = i.toInt) ∧
    (∀ x : Binary64, x.isFinite = true → ∃ negative m, Numeral.Valid m ∧
      (float x).chars = m.signedChars negative ∧
      RoundsTo (m.signedValue negative) x ∧
      (∀ y, RoundsTo (m.signedValue negative) y → (x == y) = true) ∧
      (x.isZero = true → (float x).chars = ['0']) ∧
      (x.isZero = false →
        (m.power.isSome ↔ 10 ^ 21 ≤ |x.value| ∨ |x.value| < millionth.value) ∧
        (m.power = none → ∀ i : ℤ, x.value = i → m.places = []))) ∧
    RoundsTo (1 / 10 ^ 6) millionth ∧
    ∀ x y : Binary64, x.isFinite = true → y.isFinite = true →
      ((float x).chars = (float y).chars ↔ (x == y) = true) := by
  refine ⟨fun i => exists_numeral (n := .int i) rfl, fun x finite => ?_, roundsTo_millionth,
    fun x y => chars_eq_iff⟩
  obtain ⟨negative, m, valid, spelled, value⟩ := exists_numeral (n := .float x) finite
  have rounded := roundsTo_value finite
  rw [← value] at rounded
  have unique : ∀ y, RoundsTo (m.signedValue negative) y → (x == y) = true := fun y hy =>
    (value_eq_iff finite hy.isFinite).mp (rounded.value_eq hy)
  refine ⟨negative, m, valid, spelled, rounded, unique, chars_of_isZero finite,
    fun nonzero => ⟨?_, fun plain _ => places_eq_nil_of_whole finite nonzero valid spelled plain⟩⟩
  rw [isSome_power_iff_far finite nonzero valid spelled]
  exact scientific_iff nonzero

/-- The smallest positive double has an exponent, `2 ^ 53` has none, and the two zeros agree. -/
theorem literals_exact_samples :
    (∃ negative m, Numeral.Valid m ∧ RoundsTo (m.signedValue negative) ⟨1⟩ ∧
      m.power.isSome = true) ∧
    (∃ negative m, Numeral.Valid m ∧
      (float ⟨0x4340000000000000⟩).chars = m.signedChars negative ∧
      ((⟨0x4340000000000000⟩ : Binary64) == ⟨0x4340000000000000⟩) = true ∧
      m.power = none ∧ m.places = []) ∧
    (float ⟨0⟩).chars = ['0'] ∧
    (float ⟨0⟩).chars = (float ⟨0x8000000000000000⟩).chars := by
  obtain ⟨-, floats, -, alike⟩ := literals_exact
  refine ⟨?_, ?_, ?_, (alike ⟨0⟩ ⟨0x8000000000000000⟩ (by decide) (by decide)).mpr (by decide)⟩
  · obtain ⟨negative, m, valid, -, rounded, -, -, layout⟩ := floats ⟨1⟩ (by decide)
    refine ⟨negative, m, valid, rounded, (layout (by decide)).1.mpr (.inr ?_)⟩
    rw [abs_value, value_eq_line]
    exact strictMono_line (by decide)
  · obtain ⟨negative, m, valid, spelled, rounded, unique, -, layout⟩ :=
      floats ⟨0x4340000000000000⟩ (by decide)
    obtain ⟨exponent, point⟩ := layout (by decide)
    have value : (⟨0x4340000000000000⟩ : Binary64).value = (9007199254740992 : ℤ) := by
      have significand : (⟨0x4340000000000000⟩ : Binary64).significand = 2 ^ 52 := by decide
      have power : (⟨0x4340000000000000⟩ : Binary64).exponent = 1 := by decide
      have positive : (⟨0x4340000000000000⟩ : Binary64).isNegative = false := by decide
      rw [Binary64.value, significand, power, positive]
      norm_num
    have large : millionth.value ≤ |(⟨0x4340000000000000⟩ : Binary64).value| := by
      rw [abs_value, value_eq_line]
      exact strictMono_line.monotone (by decide)
    have plain : m.power = none := by
      rw [← Option.not_isSome_iff_eq_none, exponent, not_or, not_le, not_lt]
      refine ⟨?_, large⟩
      rw [value]
      norm_num
    exact ⟨negative, m, valid, spelled, unique _ rounded, plain, point plain _ value⟩
  · obtain ⟨-, -, -, -, -, -, zero, -⟩ := floats ⟨0⟩ (by decide)
    exact zero (by decide)

end Number

end GraphQLDoc
