import GraphQLDoc.Binary64
import Mathlib.Algebra.Order.Field.Power
import Mathlib.Algebra.Order.Field.Rat
import Mathlib.Data.Int.ConditionallyCompleteOrder
import Mathlib.Tactic.Linarith
import Mathlib.Tactic.NormNum
import Mathlib.Tactic.Positivity
import Mathlib.Tactic.Ring

/-!
# The nearest double

The finite doubles, put in order, are numbered by their bits: the number below the sign is the place
of a magnitude, and each place has its distance to the next. So being nearest is a question about
two neighbours, whichever exponents they have.

* `Binary64.line`: the finite numbers in order, by place. `Binary64.strictMono_line` says that it is
  one, and `Binary64.value_eq_line` that each number stands at its place.
* `RoundsTo`: the number that an exact number is rounded to, half to even.
* `RoundsTo.of_between`: what lies between the ends half way to the neighbours is rounded to a
  number.
* `RoundsTo.value_eq`: an exact number is rounded to one number at most.
* `RoundsTo.value_le_of_le`: rounding keeps the order.
* `Binary64.value_eq_iff`: equality of exact values is equality of numbers.
-/

namespace GraphQLDoc

namespace Binary64

/-! ## Magnitudes -/

/-- The number's place among all magnitudes: its bits below the sign. -/
def rank (x : Binary64) : Nat := x.exponentField * 0x10000000000000 + x.fraction

theorem rank_lt (x : Binary64) : x.rank < 0x8000000000000000 := by
  have field := x.exponentField_lt
  have small := x.fraction_lt
  unfold rank
  omega

/-- The magnitude at a place, in units of the smallest positive number. -/
def unitsAt (r : Nat) : Nat :=
  (if r < 0x10000000000000 then r else 0x10000000000000 + r % 0x10000000000000) *
    2 ^ (r / 0x10000000000000 - 1)

/-- The distance from the magnitude at a place to the next one, in the same units. -/
def gapAt (r : Nat) : Nat := 2 ^ (r / 0x10000000000000 - 1)

theorem gapAt_pos (r : Nat) : 0 < gapAt r := Nat.two_pow_pos _

/-- The gap also leads to the next magnitude where that has another exponent. -/
theorem unitsAt_succ (r : Nat) : unitsAt (r + 1) = unitsAt r + gapAt r := by
  have place := Nat.div_add_mod r 0x10000000000000
  have small := Nat.mod_lt r (show 0 < 0x10000000000000 by decide)
  unfold unitsAt gapAt
  rcases Nat.lt_or_ge r 0x10000000000000 with subnormal | normal
  · have whole : r / 0x10000000000000 = 0 := Nat.div_eq_of_lt subnormal
    rw [if_pos subnormal, whole]
    rcases Nat.lt_or_ge (r + 1) 0x10000000000000 with below | last
    · rw [if_pos below, Nat.div_eq_of_lt below]
      omega
    · obtain rfl : r = 0xFFFFFFFFFFFFF := by omega
      decide
  · rw [if_neg (by omega), if_neg (by omega)]
    obtain ⟨e, he⟩ : ∃ e, r / 0x10000000000000 = e + 1 :=
      ⟨r / 0x10000000000000 - 1, by omega⟩
    rcases Nat.lt_or_ge (r % 0x10000000000000 + 1) 0x10000000000000 with inner | last
    · have exponent : (r + 1) / 0x10000000000000 = r / 0x10000000000000 := by omega
      have fraction : (r + 1) % 0x10000000000000 = r % 0x10000000000000 + 1 := by omega
      rw [exponent, fraction]
      ring
    · have exponent : (r + 1) / 0x10000000000000 = e + 2 := by omega
      have fraction : (r + 1) % 0x10000000000000 = 0 := by omega
      have full : r % 0x10000000000000 = 0xFFFFFFFFFFFFF := by omega
      rw [exponent, fraction, full, he, Nat.add_sub_cancel, show e + 2 - 1 = e + 1 from rfl,
        pow_succ]
      omega

theorem unitsAt_normal {e f : Nat} (h : f < 0x10000000000000) :
    unitsAt ((e + 1) * 0x10000000000000 + f) = (0x10000000000000 + f) * 2 ^ e := by
  have exponent : ((e + 1) * 0x10000000000000 + f) / 0x10000000000000 = e + 1 := by omega
  have fraction : ((e + 1) * 0x10000000000000 + f) % 0x10000000000000 = f := by omega
  rw [unitsAt, if_neg (by omega), exponent, fraction, Nat.add_sub_cancel]

theorem unitsAt_rank (x : Binary64) :
    unitsAt x.rank = x.significand * 2 ^ (x.exponentField - 1) := by
  have small := x.fraction_lt
  unfold unitsAt rank significand
  have exponent : (x.exponentField * 0x10000000000000 + x.fraction) / 0x10000000000000 =
      x.exponentField := by omega
  have fraction : (x.exponentField * 0x10000000000000 + x.fraction) % 0x10000000000000 =
      x.fraction := by omega
  rw [exponent, fraction]
  by_cases zero : x.exponentField = 0
  · rw [if_pos (by omega), if_pos zero, zero, Nat.zero_mul, Nat.zero_add]
  · rw [if_neg (by omega), if_neg zero]

theorem gapAt_rank (x : Binary64) : gapAt x.rank = 2 ^ (x.exponentField - 1) := by
  have small := x.fraction_lt
  have exponent : x.rank / 0x10000000000000 = x.exponentField := by
    unfold rank
    omega
  rw [gapAt, exponent]

/-! ## The line -/

/-- The finite numbers in their order. Zero stands at the place 0. -/
def line (i : ℤ) : ℚ := (i.sign * unitsAt i.natAbs : ℤ) * 2 ^ (-1074 : ℤ)

theorem line_natCast (r : ℕ) : line r = unitsAt r * 2 ^ (-1074 : ℤ) := by
  cases r with
  | zero => simp [line, unitsAt]
  | succ r =>
    have positive : ((r + 1 : ℕ) : ℤ).sign = 1 := Int.sign_natCast_add_one r
    rw [line, positive, Int.natAbs_natCast, one_mul, Int.cast_natCast]

theorem line_neg (i : ℤ) : line (-i) = -line i := by
  rw [line, line, Int.sign_neg, Int.natAbs_neg, Int.neg_mul, Int.cast_neg, neg_mul]

theorem line_succ (r : ℕ) : line (r + 1) = line r + gapAt r * 2 ^ (-1074 : ℤ) := by
  have next := line_natCast (r + 1)
  rw [Nat.cast_succ, unitsAt_succ, Nat.cast_add] at next
  rw [next, line_natCast, add_mul]

theorem strictMono_line : StrictMono line := by
  have up : ∀ r : ℕ, line r < line (r + 1) := by
    intro r
    have gap : (0 : ℚ) < gapAt r := Nat.cast_pos.mpr (gapAt_pos r)
    rw [line_succ]
    have : (0 : ℚ) < gapAt r * 2 ^ (-1074 : ℤ) := by positivity
    linarith
  refine strictMono_int_of_lt_succ fun i => ?_
  rcases lt_or_ge i 0 with negative | positive
  · obtain ⟨r, rfl⟩ : ∃ r : ℕ, i = -(r + 1) := ⟨(-i - 1).toNat, by omega⟩
    have mirrored : -((r : ℤ) + 1) + 1 = -r := by ring
    rw [mirrored, line_neg, line_neg]
    exact neg_lt_neg (up r)
  · obtain ⟨r, rfl⟩ := Int.eq_ofNat_of_zero_le positive
    exact up r

/-- The place of a number. -/
def index (x : Binary64) : ℤ := if x.isNegative then -x.rank else x.rank

/-- The exact value of a finite number. -/
def value (x : Binary64) : ℚ :=
  (if x.isNegative then -1 else 1) * (x.significand * 2 ^ x.exponent)

/-- A unit in the last place. -/
theorem gap_eq (x : Binary64) : (gapAt x.rank : ℚ) * 2 ^ (-1074 : ℤ) = 2 ^ x.exponent := by
  have exponent : x.exponent = ((x.exponentField - 1 : ℕ) : ℤ) + -1074 := by
    unfold Binary64.exponent
    omega
  rw [gapAt_rank, exponent, zpow_add₀ (by decide), zpow_natCast, Nat.cast_pow, Nat.cast_ofNat]

theorem line_rank (x : Binary64) : line x.rank = x.significand * 2 ^ x.exponent := by
  rw [line_natCast, unitsAt_rank, ← gapAt_rank, Nat.cast_mul, mul_assoc, gap_eq]

theorem line_above (x : Binary64) : line (x.rank + 1) = line x.rank + 2 ^ x.exponent := by
  rw [line_succ, gap_eq]

theorem value_eq_line (x : Binary64) : x.value = line x.index := by
  unfold value index
  cases x.isNegative
  · simp [line_rank]
  · simp [line_rank, line_neg]

theorem abs_value (x : Binary64) : |x.value| = line x.rank := by
  have positive : 0 ≤ line x.rank := by
    rw [line_rank]
    positivity
  rw [value_eq_line, index]
  split
  · rw [line_neg, abs_neg, abs_of_nonneg positive]
  · exact abs_of_nonneg positive

theorem isFinite_iff (x : Binary64) : x.isFinite = true ↔ x.rank < infinityBits := by
  have field := x.exponentField_lt
  have small := x.fraction_lt
  unfold isFinite rank infinityBits
  rw [bne_iff_ne]
  omega

theorem natAbs_index (x : Binary64) : x.index.natAbs = x.rank := by
  unfold index
  split <;> simp

theorem isZero_iff (x : Binary64) : x.isZero = true ↔ x.index = 0 := by
  rw [← Int.natAbs_eq_zero, natAbs_index]
  unfold isZero rank
  rw [Bool.and_eq_true, beq_iff_eq, beq_iff_eq]
  omega

theorem rank_pos {x : Binary64} (h : x.isZero = false) : 0 < x.rank := by
  refine Nat.pos_of_ne_zero fun zero => ?_
  have index : x.index = 0 := Int.natAbs_eq_zero.mp (x.natAbs_index.trans zero)
  rw [(isZero_iff x).mpr index] at h
  exact nomatch h

theorem rank_ofMagnitudeBits (negative : Bool) {magnitude : Nat}
    (h : magnitude < 0x8000000000000000) :
    (ofMagnitudeBits negative magnitude).rank = magnitude := by
  unfold rank exponentField fraction
  rw [toNat_bits_ofMagnitudeBits negative h]
  split <;> omega

theorem isNegative_ofMagnitudeBits (negative : Bool) {magnitude : Nat}
    (h : magnitude < 0x8000000000000000) :
    (ofMagnitudeBits negative magnitude).isNegative = negative := by
  unfold isNegative
  rw [toNat_bits_ofMagnitudeBits negative h]
  cases negative
  · simpa using h
  · simp

theorem exists_index {i : ℤ} (h : i.natAbs < infinityBits) :
    ∃ x : Binary64, x.isFinite = true ∧ x.index = i := by
  have small : i.natAbs < 0x8000000000000000 := Nat.lt_trans h (by decide)
  have rank := rank_ofMagnitudeBits (decide (i < 0)) small
  refine ⟨ofMagnitudeBits (decide (i < 0)) i.natAbs, ?_, ?_⟩
  · rw [isFinite_iff, rank]
    exact h
  · rw [index, isNegative_ofMagnitudeBits _ small, rank]
    by_cases negative : i < 0
    · simp only [negative, decide_true, if_true]
      omega
    · simp only [negative, decide_false]
      simp
      omega

theorem line_normal {e f : Nat} (h : f < 0x10000000000000) :
    line ((e + 1) * 0x10000000000000 + f : ℕ) = (2 ^ 52 + f) * 2 ^ (e - 1074 : ℤ) := by
  rw [line_natCast, unitsAt_normal h, sub_eq_add_neg, zpow_add₀ (by decide), zpow_natCast,
    Nat.cast_mul, Nat.cast_pow, ← mul_assoc, Nat.cast_add, Nat.cast_ofNat, Nat.cast_ofNat]
  norm_num

/-- The place behind the largest finite number. -/
theorem line_infinityBits : line infinityBits = 2 ^ 1024 := by
  have place : infinityBits = (2046 + 1) * 0x10000000000000 + 0 := rfl
  rw [place, line_normal (by decide), show ((2046 : ℕ) - 1074 : ℤ) = (972 : ℕ) from rfl,
    zpow_natCast, Nat.cast_zero, add_zero, ← pow_add]

theorem line_largest : line (infinityBits - 1 : ℕ) = 2 ^ 1024 - 2 ^ 971 := by
  have place : infinityBits - 1 = (2045 + 1) * 0x10000000000000 + 0xFFFFFFFFFFFFF := rfl
  rw [place, line_normal (by decide), show ((2045 : ℕ) - 1074 : ℤ) = (971 : ℕ) from rfl,
    zpow_natCast]
  have power : (2 : ℚ) ^ 1024 = 2 ^ 53 * 2 ^ 971 := by rw [← pow_add]
  rw [power]
  generalize (2 : ℚ) ^ 971 = p
  norm_num
  ring

theorem index_mod_two (x : Binary64) : x.index % 2 = x.significand % 2 := by
  have same : x.significand % 2 = x.rank % 2 := by
    unfold significand rank
    split <;> omega
  unfold index
  split <;> omega

end Binary64

/-! ## Rounding -/

open Binary64

/-- Half way between the largest finite number and the next power of two. From here on, numbers are
rounded to infinity. -/
def rangeEnd : ℚ := 2 ^ 1024 - 2 ^ 970

/-- `x` is the number of double precision that an exact number is rounded to: none is nearer, and of
two equally near it is the one with an even significand. -/
structure RoundsTo (q : ℚ) (x : Binary64) : Prop where
  isFinite : x.isFinite = true
  inRange : |q| < rangeEnd
  nearest : ∀ y : Binary64, y.isFinite = true → |q - x.value| ≤ |q - y.value|
  even : ∀ y : Binary64, y.isFinite = true → y.value ≠ x.value →
    |q - y.value| = |q - x.value| → x.significand % 2 = 0

namespace RoundsTo

variable {q : ℚ} {i j : ℤ}

/-- A number within half the distance to both neighbours of a place is nearest to this place. -/
theorem dist_line_le (low : line (i - 1) + line i ≤ 2 * q) (high : 2 * q ≤ line i + line (i + 1))
    (j : ℤ) : |q - line i| ≤ |q - line j| := by
  rcases lt_trichotomy j i with below | rfl | above
  · have before : line j ≤ line (i - 1) := strictMono_line.monotone (by omega)
    have after : line (i - 1) < line i := strictMono_line (by omega)
    refine le_trans (abs_le.mpr ⟨?_, ?_⟩) (le_abs_self _) <;> linarith
  · exact le_refl _
  · have after : line (i + 1) ≤ line j := strictMono_line.monotone (by omega)
    have before : line i < line (i + 1) := strictMono_line (by omega)
    refine le_trans (abs_le.mpr ⟨?_, ?_⟩) (neg_abs_le _ |> neg_le.mp) <;> linarith

/-- Another place is just as near only from half way to a neighbour. -/
theorem eq_half_way (low : line (i - 1) + line i ≤ 2 * q) (high : 2 * q ≤ line i + line (i + 1))
    (other : j ≠ i) (tie : |q - line j| = |q - line i|) :
    2 * q = line (i - 1) + line i ∨ 2 * q = line i + line (i + 1) := by
  rcases lt_or_gt_of_ne other with below | above
  · left
    have before : line j ≤ line (i - 1) := strictMono_line.monotone (by omega)
    have after : line j < line i := strictMono_line below
    have far := le_abs_self (q - line j)
    rcases abs_choice (q - line i) with e | e <;> rw [tie, e] at far <;> linarith
  · right
    have after : line (i + 1) ≤ line j := strictMono_line.monotone (by omega)
    have before : line i < line j := strictMono_line above
    have far := neg_abs_le (q - line j)
    rcases abs_choice (q - line i) with e | e <;> rw [tie, e] at far <;> linarith

theorem two_mul_rangeEnd : 2 * rangeEnd = line (infinityBits - 1 : ℕ) + line infinityBits := by
  have power : (2 : ℚ) ^ 971 = 2 * 2 ^ 970 := pow_succ' 2 970
  rw [rangeEnd, line_infinityBits, line_largest, power]
  generalize (2 : ℚ) ^ 970 = p
  generalize (2 : ℚ) ^ 1024 = t
  ring

/-- The last place has an odd significand, so what is half way behind it is not rounded to it. -/
theorem lt_rangeEnd {i : ℤ} (finite : i.natAbs < infinityBits)
    (high : 2 * q ≤ line i + line (i + 1)) (odd : i % 2 = 1 → 2 * q < line i + line (i + 1)) :
    q < rangeEnd := by
  have ends := two_mul_rangeEnd
  rcases lt_or_ge (i + 1) (infinityBits : ℤ) with inner | last
  · have first : line i < line (infinityBits - 1 : ℕ) := strictMono_line (by omega)
    have second : line (i + 1) < line infinityBits := strictMono_line inner
    linarith
  · have here : i = (infinityBits - 1 : ℕ) := by omega
    have next : i + 1 = infinityBits := by omega
    have parity : i % 2 = 1 := here ▸ rfl
    have strict := odd parity
    rw [next, here] at strict
    linarith

/-- What lies between the two ends half way to the neighbours is rounded to a number, and so are the
ends if its significand is even. -/
theorem of_between {x : Binary64} (finite : x.isFinite = true)
    (low : line (x.index - 1) + line x.index ≤ 2 * q)
    (high : 2 * q ≤ line x.index + line (x.index + 1))
    (odd : x.significand % 2 = 1 →
      line (x.index - 1) + line x.index < 2 * q ∧ 2 * q < line x.index + line (x.index + 1)) :
    RoundsTo q x where
  isFinite := finite
  inRange := by
    have place : x.index.natAbs < infinityBits := x.natAbs_index ▸ x.isFinite_iff.mp finite
    have parity := index_mod_two x
    refine abs_lt.mpr ⟨?_, ?_⟩
    · have mirrored : -x.index + 1 = -(x.index - 1) := by ring
      have below : -q < rangeEnd := by
        refine lt_rangeEnd (i := -x.index) (by omega) ?_ fun h => ?_
        · rw [mirrored, line_neg, line_neg]
          linarith
        · have strict := (odd (by omega)).1
          rw [mirrored, line_neg, line_neg]
          linarith
      linarith
    · exact lt_rangeEnd place high fun h => (odd (by omega)).2
  nearest y _ := by
    rw [value_eq_line, value_eq_line]
    exact dist_line_le low high y.index
  even y _ other tie := by
    rw [value_eq_line, value_eq_line] at tie
    have place : y.index ≠ x.index := fun e => other (by rw [value_eq_line, e, value_eq_line])
    by_contra notEven
    obtain ⟨above, below⟩ := odd (by omega)
    rcases eq_half_way low high place tie with e | e <;> linarith

/-- The same by magnitudes, for numbers of both signs. -/
theorem of_between_magnitudes {x : Binary64} (finite : x.isFinite = true)
    (low : line (x.rank - 1) + line x.rank ≤ 2 * q)
    (high : 2 * q ≤ line x.rank + line (x.rank + 1))
    (odd : x.significand % 2 = 1 →
      line (x.rank - 1) + line x.rank < 2 * q ∧ 2 * q < line x.rank + line (x.rank + 1)) :
    RoundsTo ((if x.isNegative then -1 else 1) * q) x := by
  cases negative : x.isNegative with
  | false =>
    have index : x.index = x.rank := by simp [Binary64.index, negative]
    rw [if_neg Bool.false_ne_true, one_mul]
    exact of_between finite (index ▸ low) (index ▸ high) (index ▸ odd)
  | true =>
    have index : x.index = -x.rank := by simp [Binary64.index, negative]
    have here : line x.index = -line x.rank := by rw [index, line_neg]
    have before : line (x.index - 1) = -line (x.rank + 1) := by
      rw [← line_neg, index, neg_add, sub_eq_add_neg]
    have behind : line (x.index + 1) = -line (x.rank - 1) := by
      rw [← line_neg, index, neg_sub, sub_eq_neg_add]
    rw [if_pos rfl, neg_one_mul]
    refine of_between finite ?_ ?_ fun h => ?_
    · rw [before, here]
      linarith
    · rw [here, behind]
      linarith
    · obtain ⟨above, below⟩ := odd h
      rw [before, here, behind]
      exact ⟨by linarith, by linarith⟩

theorem of_isZero {x : Binary64} (finite : x.isFinite = true) (zero : x.isZero = true) :
    RoundsTo 0 x := by
  have index := (isZero_iff x).mp zero
  have parity := index_mod_two x
  have first : line (-1) < line 0 := strictMono_line (by decide)
  have second : line 0 < line 1 := strictMono_line (by decide)
  have origin : line 0 = 0 := by simp [line]
  refine of_between finite ?_ ?_ fun odd => absurd odd (by omega)
  · rw [index, zero_sub]
    linarith
  · rw [index, zero_add]
    linarith

/-- Between two numbers with even significands there is a third, so a number half way between them
is rounded to neither. -/
theorem value_le {x y : Binary64} (hx : RoundsTo q x) (hy : RoundsTo q y) : y.value ≤ x.value := by
  by_contra less
  rw [not_le] at less
  have tie : |q - y.value| = |q - x.value| :=
    le_antisymm (hy.nearest x hx.isFinite) (hx.nearest y hy.isFinite)
  have evenX := hx.even y hy.isFinite (ne_of_gt less) tie
  have evenY := hy.even x hx.isFinite (ne_of_lt less) tie.symm
  have parityX := index_mod_two x
  have parityY := index_mod_two y
  have placeX : x.index.natAbs < infinityBits := x.natAbs_index ▸ x.isFinite_iff.mp hx.isFinite
  have placeY : y.index.natAbs < infinityBits := y.natAbs_index ▸ y.isFinite_iff.mp hy.isFinite
  have order : x.index < y.index := by
    rw [value_eq_line, value_eq_line] at less
    exact strictMono_line.lt_iff_lt.mp less
  obtain ⟨z, finite, place⟩ := exists_index (i := x.index + 1) (by omega)
  have after : x.value < z.value := by
    rw [value_eq_line, value_eq_line]
    exact strictMono_line (by omega)
  have before : z.value < y.value := by
    rw [value_eq_line, value_eq_line]
    exact strictMono_line (by omega)
  have middle : 2 * q = x.value + y.value := by
    rcases abs_eq_abs.mp tie with same | opposite <;> linarith
  have far : |q - x.value| = q - x.value := abs_of_pos (by linarith)
  have near : |q - z.value| < q - x.value := abs_lt.mpr ⟨by linarith, by linarith⟩
  exact absurd (hx.nearest z finite) (not_le.mpr (lt_of_lt_of_eq near far.symm))

theorem value_eq {x y : Binary64} (hx : RoundsTo q x) (hy : RoundsTo q y) : x.value = y.value :=
  le_antisymm (value_le hy hx) (value_le hx hy)

/-- Rounding keeps the order. If it did not, each number would be nearer to the other one's double. -/
theorem value_le_of_le {p : ℚ} {x y : Binary64} (hx : RoundsTo p x) (hy : RoundsTo q y)
    (h : p ≤ q) : x.value ≤ y.value := by
  rcases eq_or_lt_of_le h with rfl | less
  · exact value_le hy hx
  · by_contra crossed
    rw [not_le] at crossed
    have nearX := sq_le_sq.mpr (hx.nearest y hy.isFinite)
    have nearY := sq_le_sq.mpr (hy.nearest x hx.isFinite)
    have apart := mul_pos (sub_pos.mpr less) (sub_pos.mpr crossed)
    linarith

end RoundsTo

/-! ## Equality -/

namespace Binary64

variable {x y : Binary64}

theorem isNaN_of_isFinite (h : x.isFinite = true) : x.isNaN = false := by
  have field : x.exponentField ≠ 2047 := by simpa [isFinite] using h
  simp [isNaN, field]

theorem isFinite_of_isZero (h : x.isZero = true) : x.isFinite = true := by
  have field : x.exponentField = 0 := by
    rw [isZero, Bool.and_eq_true, beq_iff_eq] at h
    exact h.1
  simp [isFinite, field]

theorem toNat_bits (x : Binary64) :
    x.bits.toNat = (if x.isNegative then 0x8000000000000000 else 0) + x.rank := by
  have bits := x.bits.toNat_lt
  unfold isNegative rank exponentField fraction
  split
  · next h =>
    rw [decide_eq_true_eq] at h
    omega
  · next h =>
    rw [decide_eq_true_eq] at h
    omega

theorem eq_iff_toNat_bits : x = y ↔ x.bits.toNat = y.bits.toNat := by
  constructor
  · rintro rfl
    rfl
  · intro same
    cases x
    cases y
    exact congrArg mk (UInt64.toNat_inj.mp same)

theorem beq_eq_true_iff :
    (x == y) = true ↔
      x.isNaN = false ∧ y.isNaN = false ∧ (x = y ∨ x.isZero = true ∧ y.isZero = true) := by
  have unfolded : (x == y) =
      (!x.isNaN && !y.isNaN && (x.bits == y.bits || (x.isZero && y.isZero))) := rfl
  rw [unfolded, Bool.and_eq_true, Bool.and_eq_true, Bool.not_eq_true', Bool.not_eq_true', and_assoc,
    Bool.or_eq_true, Bool.and_eq_true, beq_iff_eq, eq_iff_toNat_bits, UInt64.toNat_inj]

theorem beq_iff (hx : x.isFinite = true) (hy : y.isFinite = true) :
    (x == y) = true ↔ x = y ∨ x.isZero = true ∧ y.isZero = true := by
  rw [beq_eq_true_iff, and_iff_right (isNaN_of_isFinite hx), and_iff_right (isNaN_of_isFinite hy)]

/-- Finite numbers are equal if their exact values are. -/
theorem value_eq_iff (hx : x.isFinite = true) (hy : y.isFinite = true) :
    x.value = y.value ↔ (x == y) = true := by
  have boundX := x.rank_lt
  have boundY := y.rank_lt
  rw [beq_iff hx hy, isZero_iff, isZero_iff, value_eq_line, value_eq_line,
    strictMono_line.injective.eq_iff, eq_iff_toNat_bits, toNat_bits, toNat_bits]
  unfold index
  split_ifs <;> omega

end Binary64

end GraphQLDoc
