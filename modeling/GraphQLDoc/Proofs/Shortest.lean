import GraphQLDoc.Decimal.Shortest
import Mathlib.Tactic.Positivity

/-!
# The decimal that is found for a double

* `Bracket.contains_search`: the search ends with a decimal of the interval.
* `Binary64.contains_shortest`: so does the search for a double, whose interval holds its value.
* `Binary64.coefficient_shortest_ne_zero`: only zero is written as zero.
-/

namespace GraphQLDoc

namespace Bracket

variable {b : Bracket}

theorem contains_iff {n : Nat} :
    b.contains n = true ↔
      if b.closed then b.low ≤ n ∧ n ≤ b.high else b.low < n ∧ n < b.high := by
  unfold contains
  split <;> simp

theorem low_le_of_contains {n : Nat} (h : b.contains n = true) : b.low ≤ n := by
  rw [contains_iff] at h
  split at h <;> omega

theorem contains_of_lt {n : Nat} (low : b.low < n) (high : n < b.high) : b.contains n = true := by
  rw [contains_iff]
  split <;> omega

theorem contains_onGrid? {grid count : Nat} (h : b.onGrid? grid = some count) :
    b.contains (count * grid) = true := by
  unfold onGrid? at h
  dsimp only at h
  split at h
  · next below =>
    split at h
    · next above =>
      -- Of two neighbours in the interval, the even one is either of them.
      split at h
      · exact Option.some.inj h ▸ below
      · split at h
        · exact Option.some.inj h ▸ above
        · rcases Nat.mod_two_eq_zero_or_one (b.value / grid) with even | odd
          · rw [even] at h
            exact Option.some.inj h ▸ below
          · rw [odd] at h
            exact Option.some.inj h ▸ above
    · exact Option.some.inj h ▸ below
  · split at h
    · next above => exact Option.some.inj h ▸ above
    · exact nomatch h

theorem contains_search (value : b.contains b.value = true) (places : Nat) :
    ∃ k : Nat, (b.search places).exponent = b.exponent + k ∧
      b.contains ((b.search places).coefficient * 10 ^ k) = true := by
  induction places with
  | zero => exact ⟨0, by simp [search], by simpa [search] using value⟩
  | succ places ih =>
    unfold search
    split
    · next found => exact ⟨places + 1, rfl, contains_onGrid? found⟩
    · exact ih

end Bracket

namespace Binary64

variable {x : Binary64}

theorem significand_pos (h : x.isZero = false) : 0 < x.significand := by
  unfold significand
  unfold isZero at h
  split
  · next subnormal =>
    rw [subnormal] at h
    simpa [Nat.pos_iff_ne_zero] using h
  · omega

theorem scale_pos (quarter : Int) :
    0 < Nat.pow 2 quarter.toNat * Nat.pow 5 (-quarter).toNat := by
  have power : ∀ b k : Nat, 0 < b → 0 < Nat.pow b k := fun b k h => Nat.pow_pos h
  exact Nat.mul_pos (power 2 _ (by decide)) (power 5 _ (by decide))

theorem contains_value (h : x.isZero = false) : x.bracket.contains x.bracket.value = true := by
  have positive := significand_pos h
  have scale := scale_pos (x.exponent - 2)
  apply Bracket.contains_of_lt
  · apply Nat.mul_lt_mul_of_pos_right _ scale
    split <;> omega
  · exact Nat.mul_lt_mul_of_pos_right (by omega) scale

theorem low_pos (h : x.isZero = false) : 0 < x.bracket.low := by
  have positive := significand_pos h
  apply Nat.mul_pos _ (scale_pos _)
  split <;> omega

theorem contains_shortest (h : x.isZero = false) :
    ∃ k : Nat, x.shortest.exponent = x.bracket.exponent + k ∧
      x.bracket.contains (x.shortest.coefficient * 10 ^ k) = true := by
  rw [shortest, h]
  exact Bracket.contains_search (contains_value h) _

theorem coefficient_shortest_ne_zero (h : x.isZero = false) : x.shortest.coefficient ≠ 0 := by
  obtain ⟨k, -, inside⟩ := contains_shortest h
  intro zero
  have low := Bracket.low_le_of_contains inside
  rw [zero, Nat.zero_mul] at low
  exact absurd (low_pos h) (Nat.not_lt.mpr low)

end Binary64

end GraphQLDoc
