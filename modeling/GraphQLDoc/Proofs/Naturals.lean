import GraphQLDoc.Proofs.Integers
import GraphQLDoc.Value.OfJson
import GraphQLDoc.Value.Text

/-!
# Natural numbers as arguments

A natural number of 64 bits comes as such or as a JSON integer, and it is converted in one place for
each. Both give the same number: an integer as long as there is one, and then the nearest double.

* `Number.exactValue`: the number that an integer or a double is.
* `Number.ofJson_natural`, `Json.Number.ofLiteral?_natural`: the way through JSON.
* `Number.error_ofNat`, `Number.exactValue_ofNat_mono`: the conversion loses little, and no order.
* `Number.naturals_agree`: all of this, and the literals of the numbers that stay integers.
-/

namespace GraphQLDoc

theorem log2_eq_sixtyThree {n : Nat} (large : 2 ^ 63 ≤ n) (h : n < 2 ^ 64) : n.log2 = 63 :=
  (Nat.log2_eq_iff (by omega)).mpr ⟨large, h⟩

/-- A literal of digits alone is an integer if that fits. -/
theorem Json.Number.ofLiteral?_natural {n : Nat} (h : n < 2 ^ 64) :
    ∃ fits, Json.Number.ofLiteral? false n 0 true = some (.int n fits) := by
  have fits : -0x8000000000000000 ≤ (n : Int) ∧ (n : Int) < 0x10000000000000000 := by omega
  refine ⟨fits, ?_⟩
  simp only [ofLiteral?, Bool.false_eq_true, if_false, false_and, not_false_eq_true, true_and]
  exact dif_pos fits

namespace Number

/-- The number itself, which is not always the one that is written. -/
def exactValue : Number → ℚ
  | .int i => i.toInt
  | .float x => x.value

variable {m n : Nat}

theorem ofNat_of_lt (h : n < 2 ^ 63) : ofNat n = .int (Int64.ofNat n) :=
  if_pos (by unfold maxInt; omega)

theorem ofNat_of_le (h : 2 ^ 63 ≤ n) : ofNat n = .float (Binary64.ofNat n) :=
  if_neg (by unfold maxInt; omega)

theorem ofJson_natural (fits) : ofJson (.int n fits) = ofNat n := by
  rw [ofJson, ofNat, Int64.ofInt_eq_ofNat, Int.toNat_natCast]
  exact if_congr Int.ofNat_le rfl rfl

/-! ## Exact values -/

theorem exactValue_ofNat_of_lt (h : n < 2 ^ 63) : (ofNat n).exactValue = n := by
  rw [ofNat_of_lt h, exactValue, Int64.toInt_ofNat_of_lt h, Int.cast_natCast]

theorem exactValue_ofNat_of_le (h : 2 ^ 63 ≤ n) :
    (ofNat n).exactValue = (Binary64.ofNat n).value := by
  rw [ofNat_of_le h, exactValue]

/-- The doubles from `2 ^ 63` on are 2048 apart. -/
theorem error_ofNat (h : n < 2 ^ 64) : |(ofNat n).exactValue - n| ≤ 1024 := by
  rcases Nat.lt_or_ge n (2 ^ 63) with small | large
  · rw [exactValue_ofNat_of_lt small, sub_self, abs_zero]
    norm_num
  · have near := Binary64.error_ofNat (by omega) h
    have unit : (2 : ℚ) ^ ((63 : ℕ) - 52 : ℤ) = 2048 := by norm_num
    rw [log2_eq_sixtyThree large h, unit] at near
    rw [exactValue_ofNat_of_le large]
    linarith

/-- No double below `2 ^ 63` is taken, so the order also holds between integers and doubles. -/
theorem exactValue_ofNat_mono (h : n < 2 ^ 64) (le : m ≤ n) :
    (ofNat m).exactValue ≤ (ofNat n).exactValue := by
  rcases Nat.lt_or_ge n (2 ^ 63) with small | large
  · rw [exactValue_ofNat_of_lt small, exactValue_ofNat_of_lt (by omega)]
    exact_mod_cast le
  rw [exactValue_ofNat_of_le large]
  rcases Nat.lt_or_ge m (2 ^ 63) with below | above
  · have highest := Binary64.two_pow_log2_le_value_ofNat (by omega) h
    rw [log2_eq_sixtyThree large h] at highest
    rw [exactValue_ofNat_of_lt below]
    exact le_trans (by exact_mod_cast below.le) highest
  · rw [exactValue_ofNat_of_le above]
    exact (roundsTo_ofNat (by omega)).value_le_of_le (roundsTo_ofNat h) (by exact_mod_cast le)

/-! ## Literals -/

theorem text_ofNat_of_lt (h : n < 2 ^ 63) : (Value.number (ofNat n)).text = toString n := by
  have positive : ¬(n : Int) < 0 := by omega
  rw [ofNat_of_lt h, Value.text, Value.chars, chars, Int64.toInt_ofNat_of_lt h, integerChars,
    if_neg positive]
  rfl

/-! ## All ways -/

/-- A natural number of 64 bits is the same argument, whether it is given as such or as a JSON
integer. Below `2 ^ 63` it is this integer and is written with its own digits. From there on it is
the nearest double, of two equally near the one with the even significand, and this may be written
with other digits. The exact value of the argument is off by 1024 at most, and it does not become
smaller for a larger number. -/
theorem naturals_agree (h : n < 2 ^ 64) :
    (∃ fits, Json.Number.ofLiteral? false n 0 true = some (.int n fits) ∧
      Value.ofJson (.number (.int n fits)) = .ok (.number (ofNat n))) ∧
    (n < 2 ^ 63 → ∃ i : Int64, i.toInt = n ∧ ofNat n = .int i ∧
      (Value.number (ofNat n)).text = toString n) ∧
    (2 ^ 63 ≤ n → ∃ x, ofNat n = .float x ∧ RoundsTo n x) ∧
    |(ofNat n).exactValue - n| ≤ 1024 ∧
    ∀ m ≤ n, (ofNat m).exactValue ≤ (ofNat n).exactValue := by
  obtain ⟨fits, literal⟩ := Json.Number.ofLiteral?_natural h
  refine ⟨⟨fits, literal, ?_⟩, fun small => ?_, fun large => ?_, error_ofNat h,
    fun m => exactValue_ofNat_mono h⟩
  · rw [Value.ofJson, ofJson_natural]
  · exact ⟨_, Int64.toInt_ofNat_of_lt small, ofNat_of_lt small, text_ofNat_of_lt small⟩
  · exact ⟨_, ofNat_of_le large, roundsTo_ofNat h⟩

/-- The largest integer is exact, `2 ^ 63 + 1024` stands half way between two doubles and goes to
the even one, and the largest number of 64 bits is rounded up to `2 ^ 64`. -/
theorem naturals_agree_samples :
    9223372036854775807 < 2 ^ 64 ∧ 9223372036854776832 < 2 ^ 64 ∧
      18446744073709551615 < 2 ^ 64 ∧
      (Value.number (ofNat 9223372036854775807)).text = "9223372036854775807" ∧
      RoundsTo (9223372036854776832 : ℕ) ⟨0x43E0000000000000⟩ ∧
      (∃ fits, Json.Number.ofLiteral? false 18446744073709551615 0 true =
          some (.int (18446744073709551615 : ℕ) fits) ∧
        Value.ofJson (.number (.int (18446744073709551615 : ℕ) fits)) =
          .ok (.number (.float ⟨0x43F0000000000000⟩))) ∧
      (ofNat 9223372036854776832).exactValue ≤ (ofNat 18446744073709551615).exactValue := by
  have exact : 9223372036854775807 < 2 ^ 64 := by decide
  have tie : 9223372036854776832 < 2 ^ 64 := by decide
  have last : 18446744073709551615 < 2 ^ 64 := by decide
  obtain ⟨-, small, -⟩ := naturals_agree exact
  obtain ⟨_, -, -, written⟩ := small (by decide)
  obtain ⟨-, -, large, -⟩ := naturals_agree tie
  obtain ⟨x, converted, rounded⟩ := large (by decide)
  obtain ⟨literal, -, -, -, order⟩ := naturals_agree last
  have even : ofNat 9223372036854776832 = .float ⟨0x43E0000000000000⟩ := by decide
  have carried : ofNat 18446744073709551615 = .float ⟨0x43F0000000000000⟩ := by decide
  cases even.symm.trans converted
  rw [carried] at literal
  exact ⟨exact, tie, last, written, rounded, literal, order _ (by decide)⟩

end Number

end GraphQLDoc
