import GraphQLDoc.Proofs.Nearest
import GraphQLDoc.Proofs.Numbers
import Mathlib.Tactic.FieldSimp
import Mathlib.Tactic.GCongr
import Mathlib.Tactic.LinearCombination

/-!
# The interval of a double

The decimal that is written for a double is found among the numbers of an interval. The interval
ends half way to the two neighbours of the double, so rounding the decimal gives the double back.

* `Binary64.low_eq`, `Binary64.high_eq`: the ends of the interval.
* `Binary64.between_shortest`: the decimal lies between them.
* `Number.roundsTo_value`: rounding gives the double back, whatever its sign is.
* `Binary64.value_shortest_lt_iff`: decimals have the order of the magnitudes they are written for.
* `Binary64.exponent_shortest_nonneg`: a whole number is written as one.
-/

namespace GraphQLDoc

namespace Binary64

variable {x y : Binary64}

/-! ## Its ends -/

/-- The distance to the number below, in halves of the distance to the number above. -/
def halvesBelow (x : Binary64) : Nat := if x.fraction = 0 ∧ 1 < x.exponentField then 1 else 2

theorem two_mul_gapAt_pred (h : x.isZero = false) :
    2 * gapAt (x.rank - 1) = x.halvesBelow * gapAt x.rank := by
  have positive := rank_pos h
  have small := x.fraction_lt
  rw [gapAt_rank, gapAt, halvesBelow]
  unfold rank at positive ⊢
  split
  · next power =>
    obtain ⟨e, he⟩ : ∃ e, x.exponentField = e + 2 := ⟨x.exponentField - 2, by omega⟩
    have exponent : (x.exponentField * 0x10000000000000 + x.fraction - 1) / 0x10000000000000 =
        e + 1 := by omega
    rw [exponent, he, one_mul, Nat.add_sub_cancel, show e + 2 - 1 = e + 1 from rfl, pow_succ']
  · next inner =>
    have exponent : (x.exponentField * 0x10000000000000 + x.fraction - 1) / 0x10000000000000 - 1 =
        x.exponentField - 1 := by omega
    rw [exponent]

theorem line_below (h : x.isZero = false) :
    line (x.rank - 1) = line x.rank - x.halvesBelow / 2 * 2 ^ x.exponent := by
  have positive := rank_pos h
  have place : ((x.rank - 1 : ℕ) : ℤ) = x.rank - 1 := by omega
  have step := line_succ (x.rank - 1)
  have gap : (2 * gapAt (x.rank - 1) : ℚ) = x.halvesBelow * gapAt x.rank := by
    exact_mod_cast two_mul_gapAt_pred h
  rw [place, sub_add_cancel] at step
  rw [step, ← gap_eq]
  linear_combination (-(1 / 2) * 2 ^ (-1074 : ℤ)) * gap

/-- A power of two in units of a power of ten. -/
theorem unit_eq (quarter : ℤ) :
    ((Nat.pow 2 quarter.toNat * Nat.pow 5 (-quarter).toNat : ℕ) : ℚ) * 10 ^ min quarter 0 =
      2 ^ quarter := by
  have powers : ((Nat.pow 2 quarter.toNat * Nat.pow 5 (-quarter).toNat : ℕ) : ℚ) =
      2 ^ quarter.toNat * 5 ^ (-quarter).toNat := by
    rw [Nat.cast_mul]
    exact congrArg₂ _ (Nat.cast_pow 2 _) (Nat.cast_pow 5 _)
  rw [powers]
  rcases le_total 0 quarter with positive | negative
  · obtain ⟨n, rfl⟩ := Int.eq_ofNat_of_zero_le positive
    simp
  · obtain ⟨n, hn⟩ := Int.eq_ofNat_of_zero_le (neg_nonneg.mpr negative)
    obtain rfl : quarter = -n := by omega
    have ten : (10 : ℚ) ^ n = 2 ^ n * 5 ^ n := by rw [← mul_pow]; norm_num
    have positive : (0 : ℚ) < 5 ^ n := by positivity
    simp [zpow_neg, ten]

theorem quarter_eq (x : Binary64) : (2 : ℚ) ^ (x.exponent - 2) = 2 ^ x.exponent / 4 := by
  rw [zpow_sub₀ (by decide)]
  norm_num

/-- The interval of a number ends half way to its neighbours. -/
theorem high_eq (x : Binary64) :
    2 * (x.bracket.high * 10 ^ x.bracket.exponent) = line x.rank + line (x.rank + 1) := by
  have unit := unit_eq (x.exponent - 2)
  rw [line_above, line_rank]
  rw [quarter_eq] at unit
  unfold bracket
  dsimp only
  rw [Nat.cast_mul, mul_assoc, unit]
  push_cast
  ring

theorem low_eq (h : x.isZero = false) :
    2 * (x.bracket.low * 10 ^ x.bracket.exponent) = line (x.rank - 1) + line x.rank := by
  have unit := unit_eq (x.exponent - 2)
  have positive := significand_pos h
  have few : x.halvesBelow ≤ 4 * x.significand := by
    unfold halvesBelow
    split <;> omega
  rw [line_below h, line_rank]
  rw [quarter_eq] at unit
  have low : x.bracket.low = (4 * x.significand - x.halvesBelow) *
      (Nat.pow 2 (x.exponent - 2).toNat * Nat.pow 5 (-(x.exponent - 2)).toNat) := rfl
  have exponent : x.bracket.exponent = min (x.exponent - 2) 0 := rfl
  rw [low, exponent, Nat.cast_mul, mul_assoc, unit, Nat.cast_sub few]
  push_cast
  ring

/-! ## The decimal inside -/

/-- The decimal that is found lies half way to the neighbours at most, and nearer if the significand
is odd. -/
theorem between_shortest (h : x.isZero = false) :
    line (x.rank - 1) + line x.rank ≤ 2 * x.shortest.value ∧
      2 * x.shortest.value ≤ line x.rank + line (x.rank + 1) ∧
      (x.significand % 2 = 1 → line (x.rank - 1) + line x.rank < 2 * x.shortest.value ∧
        2 * x.shortest.value < line x.rank + line (x.rank + 1)) := by
  obtain ⟨k, exponent, inside⟩ := contains_shortest h
  have value : x.shortest.value =
      (x.shortest.coefficient * 10 ^ k : ℕ) * 10 ^ x.bracket.exponent := by
    rw [Decimal.value, exponent, zpow_add₀ (by decide), zpow_natCast]
    push_cast
    ring
  have unit : (0 : ℚ) < 2 * 10 ^ x.bracket.exponent := by positivity
  rw [← low_eq h, ← high_eq, value]
  generalize x.shortest.coefficient * 10 ^ k = n at inside
  have le : ∀ m n : ℕ, m ≤ n → 2 * ((m : ℚ) * 10 ^ x.bracket.exponent) ≤
      2 * (n * 10 ^ x.bracket.exponent) := by
    intro m n hmn
    gcongr
  have lt : ∀ m n : ℕ, m < n → 2 * ((m : ℚ) * 10 ^ x.bracket.exponent) <
      2 * (n * 10 ^ x.bracket.exponent) := by
    intro m n hmn
    gcongr
  have closed : x.bracket.closed = (x.significand % 2 == 0) := rfl
  rw [Bracket.contains_iff, closed] at inside
  by_cases even : x.significand % 2 = 0
  · simp only [even, beq_self_eq_true, if_true] at inside
    exact ⟨le _ _ inside.1, le _ _ inside.2, fun odd => absurd even (by omega)⟩
  · have open_ : (x.significand % 2 == 0) = false := by simpa using even
    simp only [open_, Bool.false_eq_true, if_false] at inside
    exact ⟨le _ _ inside.1.le, le _ _ inside.2.le, fun _ => ⟨lt _ _ inside.1, lt _ _ inside.2⟩⟩

/-! ## The order of decimals -/

theorem shortest_congr (h : x.rank = y.rank) : x.shortest = y.shortest := by
  have smallX := x.fraction_lt
  have smallY := y.fraction_lt
  unfold rank at h
  have exponent : x.exponentField = y.exponentField := by omega
  have fraction : x.fraction = y.fraction := by omega
  unfold shortest isZero bracket significand Binary64.exponent
  rw [exponent, fraction]

/-- Of two different magnitudes, the larger one has the larger decimal. -/
theorem value_shortest_lt (hx : x.isZero = false) (hy : y.isZero = false) (h : x.rank < y.rank) :
    x.shortest.value < y.shortest.value := by
  obtain ⟨-, high, oddX⟩ := between_shortest hx
  obtain ⟨low, -, oddY⟩ := between_shortest hy
  have first : line x.rank ≤ line (y.rank - 1) := strictMono_line.monotone (by omega)
  have second : line (x.rank + 1) ≤ line y.rank := strictMono_line.monotone (by omega)
  rcases Nat.lt_or_ge (x.rank + 1) y.rank with apart | next
  · have strict : line x.rank < line (y.rank - 1) := strictMono_line (by omega)
    linarith
  · -- Of two neighbours one is odd, so their intervals have no end in common.
    have parityX := index_mod_two x
    have parityY := index_mod_two y
    have placeX := x.natAbs_index
    have placeY := y.natAbs_index
    rcases Nat.mod_two_eq_zero_or_one x.significand with even | odd
    · have strict := (oddY (by omega)).1
      linarith
    · have strict := (oddX odd).2
      linarith

theorem value_shortest_lt_iff (hx : x.isZero = false) (hy : y.isZero = false) :
    x.shortest.value < y.shortest.value ↔ |x.value| < |y.value| := by
  rw [abs_value, abs_value, strictMono_line.lt_iff_lt, Nat.cast_lt]
  refine ⟨fun less => ?_, value_shortest_lt hx hy⟩
  by_contra notLess
  rcases Nat.lt_or_eq_of_le (Nat.le_of_not_lt notLess) with greater | same
  · exact lt_asymm less (value_shortest_lt hy hx greater)
  · exact absurd less (by rw [shortest_congr same]; exact lt_irrefl _)

end Binary64

/-- The decimal that is written for a number is rounded to this very number. -/
theorem Number.roundsTo_value {x : Binary64} (finite : x.isFinite = true) :
    RoundsTo (Number.float x).value x := by
  cases zero : x.isZero with
  | true =>
    have nothing : (Number.float x).value = 0 := by
      simp [value, Binary64.shortest, zero, Decimal.value]
    rw [nothing]
    exact .of_isZero finite zero
  | false =>
    obtain ⟨low, high, odd⟩ := Binary64.between_shortest zero
    exact .of_between_magnitudes finite low high odd

/-! ## Whole numbers -/

/-- A multiple of a power of ten has more digits than the exponent says. -/
theorem le_length_digits {n j : ℕ} (positive : 0 < n) (divides : 10 ^ j ∣ n) :
    j ≤ (digits n).length - 1 := by
  rcases Nat.eq_zero_or_pos j with zero | some
  · omega
  · have size : ¬n < 10 ^ j := Nat.not_lt.mpr (Nat.le_of_dvd positive divides)
    rw [← Nat.length_toDigits_le_iff (by decide) some] at size
    unfold digits
    omega

namespace Bracket

variable {b : Bracket}

theorem onGrid?_of_dvd {grid : Nat} (h : grid ∣ b.value) (value : b.contains b.value = true) :
    ∃ count, b.onGrid? grid = some count := by
  have exact_ : b.value / grid * grid = b.value := Nat.div_mul_cancel h
  unfold onGrid?
  dsimp only
  rw [exact_, if_pos value]
  split
  · split
    · exact ⟨_, rfl⟩
    · split <;> exact ⟨_, rfl⟩
  · exact ⟨_, rfl⟩

/-- The search ends no later than on a grid that the value lies on itself. -/
theorem le_exponent_search {k places : Nat} (h : 10 ^ k ∣ b.value)
    (value : b.contains b.value = true) (le : k ≤ places) :
    b.exponent + k ≤ (b.search places).exponent := by
  induction places with
  | zero =>
    obtain rfl : k = 0 := by omega
    simp [search]
  | succ places ih =>
    unfold search
    split
    · dsimp only
      omega
    · next missed =>
      rcases Nat.lt_or_eq_of_le le with earlier | here
      · exact ih (by omega)
      · obtain ⟨count, found⟩ := onGrid?_of_dvd (here ▸ h) value
        rw [show Nat.pow 10 (places + 1) = 10 ^ (places + 1) from rfl, found] at missed
        exact absurd missed (Option.some_ne_none count)

end Bracket

namespace Binary64

variable {x : Binary64}

/-- In quarters of its last place, a whole number is a multiple of the power of two that makes the
quarters whole. -/
theorem four_mul_significand {i : ℤ} {j : ℕ} (quarter : x.exponent = -j + 2)
    (whole : x.value = i) : 4 * x.significand = i.natAbs * 2 ^ j := by
  have magnitude : |(i : ℚ)| = x.significand * 2 ^ (-(j : ℤ) + 2) := by
    rw [← whole, abs_value, line_rank, quarter]
  have power : (2 : ℚ) ^ (-(j : ℤ) + 2) * 2 ^ j = 4 := by
    rw [← zpow_natCast, ← zpow_add₀ (by decide), show -(j : ℤ) + 2 + j = 2 by omega]
    norm_num
  have scaled : ((i.natAbs * 2 ^ j : ℕ) : ℚ) = (4 * x.significand : ℕ) := by
    rw [Nat.cast_mul, Nat.cast_natAbs, Int.cast_abs, magnitude, Nat.cast_pow, Nat.cast_ofNat,
      mul_assoc, power, Nat.cast_mul, Nat.cast_ofNat, mul_comm]
  exact_mod_cast scaled.symm

theorem bracket_value_of_whole {i : ℤ} {j : ℕ} (quarter : x.exponent = -j + 2)
    (whole : x.value = i) : x.bracket.value = i.natAbs * 10 ^ j := by
  have unfolded : x.bracket.value = 4 * x.significand *
      (Nat.pow 2 (x.exponent - 2).toNat * Nat.pow 5 (-(x.exponent - 2)).toNat) := rfl
  have up : (x.exponent - 2).toNat = 0 := by omega
  have down : (-(x.exponent - 2)).toNat = j := by omega
  have ten : (10 : ℕ) ^ j = 2 ^ j * 5 ^ j := mul_pow 2 5 j
  rw [unfolded, four_mul_significand quarter whole, up, down, mul_assoc, ten]
  simp

/-- The decimal of a whole number has no places behind the point. -/
theorem exponent_shortest_nonneg (h : x.isZero = false) {i : ℤ} (whole : x.value = i) :
    0 ≤ x.shortest.exponent := by
  have inside := contains_value h
  have exponent : x.bracket.exponent = min (x.exponent - 2) 0 := rfl
  rcases le_total 0 (x.exponent - 2) with large | small
  · obtain ⟨k, same, -⟩ := contains_shortest h
    omega
  · obtain ⟨j, hj⟩ := Int.eq_ofNat_of_zero_le (neg_nonneg.mpr small)
    have value := bracket_value_of_whole (j := j) (by omega) whole
    have divides : 10 ^ j ∣ x.bracket.value := value ▸ Nat.dvd_mul_left _ _
    have positive : 0 < x.bracket.value := by
      have low := Bracket.low_le_of_contains inside
      have := low_pos h
      omega
    have found := Bracket.le_exponent_search divides inside (le_length_digits positive divides)
    rw [shortest, h]
    have start : x.bracket.exponent + j = 0 := by omega
    rw [start] at found
    exact found

end Binary64

end GraphQLDoc
