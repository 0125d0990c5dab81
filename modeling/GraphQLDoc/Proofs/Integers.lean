import GraphQLDoc.Binary64.Rounding
import GraphQLDoc.Proofs.Nearest

/-!
# Integers as doubles

An integer that is too long for a significand loses its last bits. What is left is the nearest
double, as for any other exact number.

* `roundHalfEven_odd`: a tie never gives an odd number.
* `Binary64.ofNat_eq`: the bits of the double, by the highest bit of the integer.
* `Binary64.index_ofNat`, `Binary64.value_ofNat`: its place among the doubles, and its exact value.
* `Binary64.error_ofNat`: how far it is from the integer.
* `roundsTo_ofNat`: integers of 64 bits are rounded to the nearest double.
-/

namespace GraphQLDoc

/-! ## Quotients -/

section Quotients

variable {num den bound : Nat} (hden : 0 < den)

include hden

theorem roundHalfEven_le (h : num < bound * den) : roundHalfEven num den ≤ bound := by
  have near := (roundHalfEven_near num hden).2
  have small : 2 * roundHalfEven num den * den < (2 * bound + 1) * den := by
    rw [Nat.mul_assoc, Nat.add_mul, Nat.mul_assoc, Nat.one_mul]
    omega
  have := Nat.lt_of_mul_lt_mul_right small
  omega

theorem le_roundHalfEven (h : bound * den ≤ num) : bound ≤ roundHalfEven num den := by
  have near := (roundHalfEven_near num hden).1
  have large : 2 * bound * den ≤ (2 * roundHalfEven num den + 1) * den := by
    rw [Nat.mul_assoc, Nat.add_mul, Nat.mul_assoc, Nat.one_mul]
    omega
  have := Nat.le_of_mul_le_mul_right large hden
  omega

/-- Only even numbers are half a unit off. -/
theorem roundHalfEven_odd (odd : roundHalfEven num den % 2 = 1) :
    2 * num < 2 * (roundHalfEven num den * den) + den ∧
      2 * (roundHalfEven num den * den) < 2 * num + den := by
  have whole := Nat.div_add_mod num den
  have rest := Nat.mod_lt num hden
  have above : (num / den + 1) * den = num / den * den + den := Nat.succ_mul _ _
  rw [Nat.mul_comm] at whole
  unfold roundHalfEven at odd ⊢
  dsimp only at odd ⊢
  split
  · omega
  · split
    · omega
    · split_ifs at odd
      omega

end Quotients

/-- The same bounds, where the quotient is one by the unit `2 ^ (l - 52)`. -/
theorem near_units {n l m : Nat} (h : m = roundHalfEven (n * 2 ^ (52 - l)) (2 ^ (l - 52))) :
    ((2 * n : ℚ) ≤ 2 * (m * 2 ^ (l - 52 : ℤ)) + 2 ^ (l - 52 : ℤ) ∧
      2 * (m * 2 ^ (l - 52 : ℤ)) ≤ (2 * n + 2 ^ (l - 52 : ℤ) : ℚ)) ∧
    (m % 2 = 1 → (2 * n : ℚ) < 2 * (m * 2 ^ (l - 52 : ℤ)) + 2 ^ (l - 52 : ℤ) ∧
      2 * (m * 2 ^ (l - 52 : ℤ)) < (2 * n + 2 ^ (l - 52 : ℤ) : ℚ)) := by
  have positive : (0 : ℚ) < 2 ^ (52 - l) := by positivity
  have unit : ((2 ^ (l - 52) : ℕ) : ℚ) = 2 ^ (l - 52 : ℤ) * 2 ^ (52 - l) := by
    have exponent : ((l - 52 : ℕ) : ℤ) = (l - 52) + (52 - l : ℕ) := by omega
    rw [Nat.cast_pow, Nat.cast_ofNat, ← zpow_natCast, exponent, zpow_add₀ (by decide),
      zpow_natCast]
  have den : 0 < 2 ^ (l - 52) := Nat.two_pow_pos _
  generalize (2 : ℚ) ^ (l - 52 : ℤ) = u at unit ⊢
  constructor
  · have near := roundHalfEven_near (n * 2 ^ (52 - l)) den
    rw [← h, ← Nat.cast_le (α := ℚ), ← Nat.cast_le (α := ℚ)] at near
    push_cast at near unit
    rw [unit] at near
    constructor
    · refine le_of_mul_le_mul_right ?_ positive
      linarith [near.1]
    · refine le_of_mul_le_mul_right ?_ positive
      linarith [near.2]
  · intro odd
    have near := roundHalfEven_odd den (h ▸ odd)
    rw [← h, ← Nat.cast_lt (α := ℚ), ← Nat.cast_lt (α := ℚ)] at near
    push_cast at near unit
    rw [unit] at near
    constructor
    · refine lt_of_mul_lt_mul_right ?_ positive.le
      linarith [near.1]
    · refine lt_of_mul_lt_mul_right ?_ positive.le
      linarith [near.2]

/-! ## The double of an integer -/

theorem log2Ratio_one {n : Nat} (h : n ≠ 0) : log2Ratio n 1 = n.log2 := by
  have low : 2 ^ n.log2 ≤ n := Nat.log2_self_le h
  have one : Nat.log2 1 = 0 := rfl
  unfold log2Ratio
  rw [one]
  simp [low]

namespace Binary64

/-- The double has the exponent of the highest bit, and a significand of 53 bits that is rounded. A
significand of one bit more carries into the exponent. -/
theorem ofNat_eq {n : Nat} (pos : n ≠ 0) (h : n < 2 ^ 64) :
    ∃ quotient, 2 ^ 52 ≤ quotient ∧ quotient ≤ 2 ^ 53 ∧
      quotient = roundHalfEven (n * 2 ^ (52 - n.log2)) (2 ^ (n.log2 - 52)) ∧
      ofNat n = ofMagnitudeBits false ((n.log2 + 1022) * 0x10000000000000 + quotient) := by
  have low : 2 ^ n.log2 ≤ n := Nat.log2_self_le pos
  have high : n < 2 ^ (n.log2 + 1) := Nat.lt_log2_self
  have short : n.log2 < 64 := (Nat.log2_lt pos).mpr h
  have unit : 0 < 2 ^ (n.log2 - 52) := Nat.two_pow_pos _
  have shift : 2 ^ 52 * 2 ^ (n.log2 - 52) = 2 ^ n.log2 * 2 ^ (52 - n.log2) := by
    rw [← pow_add, ← pow_add]
    congr 1
    omega
  have least : 2 ^ 52 ≤ roundHalfEven (n * 2 ^ (52 - n.log2)) (2 ^ (n.log2 - 52)) := by
    refine le_roundHalfEven unit ?_
    rw [shift]
    exact Nat.mul_le_mul_right _ low
  have most : roundHalfEven (n * 2 ^ (52 - n.log2)) (2 ^ (n.log2 - 52)) ≤ 2 ^ 53 := by
    refine roundHalfEven_le unit ?_
    rw [pow_succ' 2 52, mul_assoc, shift, ← mul_assoc, ← pow_succ']
    exact Nat.mul_lt_mul_of_pos_right high (Nat.two_pow_pos _)
  refine ⟨_, least, most, rfl, ?_⟩
  have scale : max ((n.log2 : Int) - 52) (-1074) = n.log2 - 52 := by omega
  have up : (-((n.log2 : Int) - 52)).toNat = 52 - n.log2 := by omega
  have down : ((n.log2 : Int) - 52).toNat = n.log2 - 52 := by omega
  have exponent : ((n.log2 : Int) - 52 + 1074).toNat = n.log2 + 1022 := by omega
  rw [ofNat, ofRatio, if_neg pos]
  simp only [log2Ratio_one pos, scale, up, down, exponent, Nat.pow_eq, Nat.one_mul]
  refine congrArg (ofMagnitudeBits false) (Nat.min_eq_left ?_)
  unfold infinityBits
  omega

/-- The value at a place with a given significand, also of one that carries into the exponent. -/
theorem line_significand {e m : Nat} (low : 2 ^ 52 ≤ m) (high : m ≤ 2 ^ 53) :
    line (e * 0x10000000000000 + m : ℕ) = m * 2 ^ (e - 1074 : ℤ) := by
  rcases Nat.lt_or_eq_of_le high with inner | carry
  · obtain ⟨f, rfl⟩ := Nat.exists_eq_add_of_le low
    have place : e * 0x10000000000000 + (2 ^ 52 + f) = (e + 1) * 0x10000000000000 + f := by ring
    rw [place, line_normal (by omega), Nat.cast_add, Nat.cast_pow, Nat.cast_ofNat]
  · subst carry
    have place : e * 0x10000000000000 + 2 ^ 53 = (e + 1 + 1) * 0x10000000000000 + 0 := by ring
    have exponent : ((e + 1 : ℕ) - 1074 : ℤ) = (e - 1074) + 1 := by
      push_cast
      ring
    rw [place, line_normal (by decide), exponent, zpow_add_one₀ (by decide)]
    push_cast
    ring

/-- The next place is one unit above or, behind the last significand, two. -/
theorem le_line_significand_succ {e m : Nat} (low : 2 ^ 52 ≤ m) (high : m ≤ 2 ^ 53) :
    (m + 1) * 2 ^ (e - 1074 : ℤ) ≤ line ((e * 0x10000000000000 + m : ℕ) + 1) := by
  have unit : (2 : ℚ) ^ (e - 1074 : ℤ) ≤
      gapAt (e * 0x10000000000000 + m) * 2 ^ (-1074 : ℤ) := by
    have field : e ≤ (e * 0x10000000000000 + m) / 0x10000000000000 - 1 := by omega
    have gap : (2 : ℚ) ^ e ≤ gapAt (e * 0x10000000000000 + m) := by
      exact_mod_cast Nat.pow_le_pow_right (by decide) field
    rw [sub_eq_add_neg, zpow_add₀ (by decide), zpow_natCast]
    exact mul_le_mul_of_nonneg_right gap (by positivity)
  rw [line_succ, line_significand low high]
  linarith

/-- The place before is one unit below, unless the significand is the smallest one. -/
theorem line_significand_pred {e m : Nat} (low : 2 ^ 52 < m) (high : m ≤ 2 ^ 53) :
    line ((e * 0x10000000000000 + m : ℕ) - 1) = (m - 1) * 2 ^ (e - 1074 : ℤ) := by
  obtain ⟨k, rfl⟩ : ∃ k, m = k + 1 := ⟨m - 1, by omega⟩
  have place : ((e * 0x10000000000000 + (k + 1) : ℕ) - 1 : ℤ) =
      (e * 0x10000000000000 + k : ℕ) := by omega
  rw [place, line_significand (by omega) (by omega), Nat.cast_succ, add_sub_cancel_right]

/-- The double stands at the place that its exponent and its significand make up. -/
theorem index_ofNat {n : Nat} (pos : n ≠ 0) (h : n < 2 ^ 64) :
    ∃ m, 2 ^ 52 ≤ m ∧ m ≤ 2 ^ 53 ∧
      m = roundHalfEven (n * 2 ^ (52 - n.log2)) (2 ^ (n.log2 - 52)) ∧
      (ofNat n).isFinite = true ∧
      (ofNat n).index = ((n.log2 + 1022) * 0x10000000000000 + m : ℕ) := by
  have short : n.log2 < 64 := (Nat.log2_lt pos).mpr h
  obtain ⟨m, low, high, rounded, same⟩ := ofNat_eq pos h
  have place : (n.log2 + 1022) * 0x10000000000000 + m < 0x8000000000000000 := by omega
  have rank := rank_ofMagnitudeBits false place
  have positive := isNegative_ofMagnitudeBits false place
  rw [← same] at rank positive
  refine ⟨m, low, high, rounded, ?_, ?_⟩
  · rw [isFinite_iff, rank]
    unfold infinityBits
    omega
  · rw [index, positive, rank]
    rfl

/-- The smallest significand, in units of the last place, is the highest bit. -/
theorem two_pow_mul_unit (l : ℕ) : (2 : ℚ) ^ 52 * 2 ^ (l - 52 : ℤ) = 2 ^ l := by
  have exponents : (52 : ℕ) + (l - 52 : ℤ) = l := by omega
  rw [← zpow_natCast 2 52, ← zpow_add₀ (by decide), exponents, zpow_natCast]

theorem value_ofNat {n : Nat} (pos : n ≠ 0) (h : n < 2 ^ 64) :
    ∃ m, 2 ^ 52 ≤ m ∧ m = roundHalfEven (n * 2 ^ (52 - n.log2)) (2 ^ (n.log2 - 52)) ∧
      (ofNat n).value = m * 2 ^ (n.log2 - 52 : ℤ) := by
  obtain ⟨m, low, high, rounded, -, place⟩ := index_ofNat pos h
  have exponent : ((n.log2 + 1022 : ℕ) - 1074 : ℤ) = n.log2 - 52 := by omega
  refine ⟨m, low, rounded, ?_⟩
  rw [value_eq_line, place, line_significand low high, exponent]

/-- Rounding takes an integer no further than half a unit. -/
theorem error_ofNat {n : Nat} (pos : n ≠ 0) (h : n < 2 ^ 64) :
    2 * |(ofNat n).value - n| ≤ 2 ^ (n.log2 - 52 : ℤ) := by
  obtain ⟨m, -, rounded, value⟩ := value_ofNat pos h
  obtain ⟨⟨left, right⟩, -⟩ := near_units rounded
  have near : |(ofNat n).value - n| ≤ 2 ^ (n.log2 - 52 : ℤ) / 2 := by
    rw [value]
    refine abs_le.mpr ⟨?_, ?_⟩ <;> linarith
  linarith

/-- Rounding keeps the highest bit. -/
theorem two_pow_log2_le_value_ofNat {n : Nat} (pos : n ≠ 0) (h : n < 2 ^ 64) :
    2 ^ n.log2 ≤ (ofNat n).value := by
  obtain ⟨m, low, -, value⟩ := value_ofNat pos h
  have least : (2 : ℚ) ^ 52 ≤ m := by exact_mod_cast low
  rw [value, ← two_pow_mul_unit]
  gcongr

end Binary64

open Binary64

/-- An integer of 64 bits is rounded to the double that it is converted to. -/
theorem roundsTo_ofNat {n : Nat} (h : n < 2 ^ 64) : RoundsTo n (Binary64.ofNat n) := by
  by_cases zero : n = 0
  · subst zero
    exact_mod_cast RoundsTo.of_isZero (x := Binary64.ofNat 0) rfl rfl
  obtain ⟨m, low, high, rounded, finite, index⟩ := index_ofNat zero h
  have parity := index_mod_two (Binary64.ofNat n)
  have exponent : ((n.log2 + 1022 : ℕ) - 1074 : ℤ) = n.log2 - 52 := by omega
  have here := line_significand (e := n.log2 + 1022) low high
  have behind := le_line_significand_succ (e := n.log2 + 1022) low high
  obtain ⟨⟨left, right⟩, odd⟩ := near_units rounded
  rw [exponent] at here behind
  rw [index] at parity
  -- Below the smallest significand the unit is a half, but then nothing was rounded up.
  have before : line (((n.log2 + 1022) * 0x10000000000000 + m : ℕ) - 1) ≤
      (m - 1) * 2 ^ (n.log2 - 52 : ℤ) ∨ m * 2 ^ (n.log2 - 52 : ℤ) ≤ (n : ℚ) := by
    rcases Nat.lt_or_eq_of_le low with inner | least
    · left
      rw [line_significand_pred inner high, exponent]
    · right
      have leading : (m : ℚ) * 2 ^ (n.log2 - 52 : ℤ) = (2 ^ n.log2 : ℕ) := by
        rw [← least, Nat.cast_pow, Nat.cast_pow, Nat.cast_ofNat, two_pow_mul_unit]
      rw [leading, Nat.cast_le]
      exact Nat.log2_self_le zero
  have order : line (((n.log2 + 1022) * 0x10000000000000 + m : ℕ) - 1) <
      line ((n.log2 + 1022) * 0x10000000000000 + m : ℕ) := strictMono_line (by omega)
  refine RoundsTo.of_between finite ?_ ?_ fun isOdd => ⟨?_, ?_⟩
  · rw [index]
    rcases before with inner | least <;> linarith
  · rw [index]
    linarith
  · rw [index]
    have strict := (odd (by omega)).2
    rcases before with inner | least <;> linarith
  · rw [index]
    have strict := (odd (by omega)).1
    linarith

end GraphQLDoc
