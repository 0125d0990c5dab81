import GraphQLDoc.Instant.Calendar
import Mathlib.Data.Int.Init
import Mathlib.Tactic.IntervalCases
import Mathlib.Tactic.Ring

/-!
# Dates and days

The rules of the Gregorian calendar say how long months and years are. Adding these lengths up
gives the day that a date stands for. `Date.ofDays` is the way back.

* `Date.Leap`, `Date.yearLength`, `Date.monthLength`, `Date.Valid`: the rules.
* `Date.yearDays`, `Date.monthDays`: the days of several years, and of several months.
  `Date.yearStart`, `Date.toDays`: the days from the start of 1970 to a year, and to a date.
* `Date.ofMarch`: a day of a year that starts in March. `Date.exists_ofMarch`: the day that
  `Date.ofDays` finds in such a year.
* `Date.valid_ofDays`, `Date.toDays_ofDays`: the date of each day exists, and stands for that day.
-/

namespace GraphQLDoc

namespace Date

/-! ## The rules -/

/-- Every fourth year has a leap day, but of the years that end a century only every fourth one. -/
def Leap (year : Int) : Prop := year % 4 = 0 ∧ (year % 100 = 0 → year % 400 = 0)

instance (year : Int) : Decidable (Leap year) := inferInstanceAs (Decidable (_ ∧ _))

def yearLength (year : Int) : Nat := if Leap year then 366 else 365

/-- The number of days in a month. -/
def monthLength (year : Int) : Nat → Nat
  | 2 => if Leap year then 29 else 28
  | 4 | 6 | 9 | 11 => 30
  | _ => 31

theorem monthLength_le (year : Int) (m : Nat) : monthLength year m ≤ 31 := by
  unfold monthLength
  split
  · split <;> decide
  all_goals decide

/-- The calendar has the date. -/
structure Valid (d : Date) : Prop where
  month : 1 ≤ d.month ∧ d.month ≤ 12
  day : 1 ≤ d.day ∧ d.day ≤ monthLength d.year d.month

theorem valid_iff {year : Int} {month day : Nat} :
    Valid ⟨year, month, day⟩ ↔
      (1 ≤ month ∧ month ≤ 12) ∧ 1 ≤ day ∧ day ≤ monthLength year month :=
  ⟨fun h => ⟨h.month, h.day⟩, fun h => ⟨h.1, h.2⟩⟩

instance (d : Date) : Decidable d.Valid := decidable_of_iff _ valid_iff.symm

/-- The days of so many years, from a first one on. -/
def yearDays (first : Int) : Nat → Nat
  | 0 => 0
  | n + 1 => yearDays first n + yearLength (first + n)

/-- The days of the first months of a year. -/
def monthDays (year : Int) : Nat → Nat
  | 0 => 0
  | n + 1 => monthDays year n + monthLength year (n + 1)

/-- The days from the start of 1970 to the start of the year. These are the days of the years in
between, and they count backwards before 1970. -/
def yearStart (year : Int) : Int :=
  yearDays 1970 (year - 1970).toNat - yearDays year (1970 - year).toNat

/-- The days from the start of 1970 to the date: the years, the months and the days before it. -/
def toDays (d : Date) : Int :=
  yearStart d.year + monthDays d.year (d.month - 1) + (d.day - 1)

/-! ## Years -/

theorem yearDays_add_one (first : Int) (n : Nat) :
    yearDays first (n + 1) = yearLength first + yearDays (first + 1) n := by
  induction n with
  | zero => simp [yearDays]
  | succ n ih =>
    have last : first + (n + 1 : Nat) = first + 1 + n := by omega
    rw [yearDays, ih, last, Nat.add_assoc]
    rfl

theorem yearStart_add_one (year : Int) :
    yearStart (year + 1) = yearStart year + yearLength year := by
  unfold yearStart
  rcases Int.lt_or_le year 1970 with earlier | later
  · obtain ⟨n, hn⟩ : ∃ n : Nat, 1970 - year = n + 1 := ⟨(1969 - year).toNat, by omega⟩
    have before : (year - 1970).toNat = 0 ∧ (year + 1 - 1970).toNat = 0 := by omega
    have after : (1970 - year).toNat = n + 1 ∧ (1970 - (year + 1)).toNat = n := by omega
    rw [before.1, before.2, after.1, after.2, yearDays_add_one]
    omega
  · obtain ⟨n, hn⟩ : ∃ n : Nat, year = 1970 + n := ⟨(year - 1970).toNat, by omega⟩
    have before : (1970 - year).toNat = 0 ∧ (1970 - (year + 1)).toNat = 0 := by omega
    have after : (year - 1970).toNat = n ∧ (year + 1 - 1970).toNat = n + 1 := by omega
    have next : yearDays 1970 (n + 1) = yearDays 1970 n + yearLength year := by rw [yearDays, hn]
    rw [before.1, before.2, after.1, after.2, next, yearDays, yearDays]
    omega

/-- The leap days of the years from one up to this one. For years before year one they are counted
negatively. -/
def leapDays (year : Int) : Int := year / 4 - year / 100 + year / 400

theorem leapDays_add_one (year : Int) :
    leapDays year = leapDays (year - 1) + (if Leap year then 1 else 0) := by
  unfold leapDays
  by_cases leap : Leap year
  · rw [if_pos leap]
    unfold Leap at leap
    omega
  · rw [if_neg leap]
    unfold Leap at leap
    omega

/-- There are 477 leap days in the years from one to 1969. -/
theorem yearStart_eq (year : Int) :
    yearStart year = 365 * (year - 1970) + leapDays (year - 1) - 477 := by
  have step : ∀ y, (yearLength y : Int) = 365 + (leapDays y - leapDays (y - 1)) := by
    intro y
    rw [leapDays_add_one, yearLength]
    split <;> omega
  induction year using Int.inductionOn' (b := 1970) with
  | zero => rfl
  | succ k _ ih =>
    rw [yearStart_add_one, ih, step, Int.add_sub_cancel]
    ring
  | pred k _ ih =>
    have next := yearStart_add_one (k - 1)
    rw [Int.sub_add_cancel, ih, step] at next
    omega

/-! ## Years from March on -/

/-- The date of a day in the year that starts on the first of March of `year`. -/
def ofMarch (year : Int) (dayOfYear : Nat) : Date :=
  let monthFromMarch := (5 * dayOfYear + 2) / 153
  let wrapped := 10 ≤ monthFromMarch
  { year := year + (if wrapped then 1 else 0)
    month := if wrapped then monthFromMarch - 9 else monthFromMarch + 3
    day := dayOfYear - monthStart monthFromMarch + 1 }

/-- Of four parts of one size, the last one may have one day more. -/
theorem quarter_spec {size n : Nat} (positive : 0 < size) (h : n ≤ 4 * size) :
    n = min 3 (n / size) * size + (n - min 3 (n / size) * size) ∧
      n - min 3 (n / size) * size ≤ size ∧
      (n - min 3 (n / size) * size = size → min 3 (n / size) = 3) := by
  have whole := Nat.div_add_mod n size
  have rest := Nat.mod_lt n positive
  rcases Nat.lt_or_ge 3 (n / size) with last | inner
  · have four : 4 * size ≤ size * (n / size) := Nat.mul_comm 4 size ▸ Nat.mul_le_mul_left size last
    rw [Nat.min_eq_left last.le]
    omega
  · rw [Nat.min_eq_right inner, Nat.mul_comm]
    omega

/-- Years that are divisible by four have leap days, but not those that end one of the first three
centuries of a cycle. -/
theorem leapDays_of_parts (cycle : Int) {century group year : Nat} (hcentury : century ≤ 3)
    (hgroup : group ≤ 24) (hyear : year ≤ 3) :
    leapDays (400 * cycle + (100 * century + 4 * group + year : Nat)) =
      97 * cycle + 24 * century + group := by
  unfold leapDays
  omega

theorem leap_of_parts (cycle : Int) {century group : Nat} (hgroup : group ≤ 24)
    (last : group = 24 → century = 3) :
    Leap (400 * cycle + (100 * century + 4 * group + 3 : Nat) + 1) := by
  unfold Leap
  omega

/-- The years that end before March have 365 days each and the leap days that the calendar has had
until then. The year itself has its leap day at the end, if it ends in a leap year. -/
theorem exists_ofMarch (days : Int) : ∃ year dayOfYear, ofDays days = ofMarch year dayOfYear ∧
    days + 719468 = 365 * year + leapDays year + dayOfYear ∧ dayOfYear ≤ 365 ∧
      (dayOfYear = 365 → Leap (year + 1)) := by
  refine ⟨_, _, rfl, ?_⟩
  -- Cycle, century, group and year are split off in turn. Each is forgotten but for its bounds.
  generalize days + 719468 = fromMarch
  have inCycle : fromMarch =
      146097 * (fromMarch / 146097) + ((fromMarch % 146097).toNat : Int) := by omega
  have cycleEnd : (fromMarch % 146097).toNat ≤ 4 * 36524 := by omega
  generalize fromMarch / 146097 = cycle at *
  generalize (fromMarch % 146097).toNat = dayOfCycle at *
  obtain ⟨inCentury, centuryEnd, lastCentury⟩ := quarter_spec (by decide) cycleEnd
  have hcentury : min 3 (dayOfCycle / 36524) ≤ 3 := Nat.min_le_left _ _
  generalize min 3 (dayOfCycle / 36524) = century at *
  generalize dayOfCycle - century * 36524 = dayOfCentury at *
  have inGroup : dayOfCentury = 1461 * (dayOfCentury / 1461) + dayOfCentury % 1461 := by omega
  have hgroup : dayOfCentury / 1461 ≤ 24 := by omega
  have groupEnd : dayOfCentury % 1461 ≤ 4 * 365 := by omega
  generalize dayOfCentury / 1461 = group at *
  generalize dayOfCentury % 1461 = dayOfGroup at *
  obtain ⟨inYear, yearEnd, lastYear⟩ := quarter_spec (by decide) groupEnd
  have hyear : min 3 (dayOfGroup / 365) ≤ 3 := Nat.min_le_left _ _
  generalize min 3 (dayOfGroup / 365) = year at *
  generalize dayOfGroup - year * 365 = dayOfYear at *
  refine ⟨?_, yearEnd, fun full => ?_⟩
  · rw [leapDays_of_parts cycle hcentury hgroup hyear]
    push_cast
    omega
  · obtain rfl : year = 3 := lastYear full
    exact leap_of_parts cycle hgroup (by omega)

/-! ## Months -/

theorem monthStart_add_one (year : Int) {m : Nat} (h : m ≤ 9) :
    monthStart (m + 1) = monthStart m + monthLength year (m + 3) := by
  interval_cases m <;> rfl

theorem monthLength_february (year : Int) :
    31 + monthLength year 2 + 306 = yearLength year := by
  rw [monthLength, yearLength]
  split <;> rfl

/-- January and February are behind, and after them come as many months as since March. -/
theorem monthDays_eq (year : Int) {m : Nat} (h : m ≤ 10) :
    monthDays year (m + 2) = 31 + monthLength year 2 + monthStart m := by
  induction m with
  | zero => rfl
  | succ m ih =>
    rw [monthDays, ih (by omega), monthStart_add_one year (by omega), Nat.add_assoc]

section OfMarch

variable (year : Int) {dayOfYear : Nat}

/-- January and February belong to the next year of the calendar. -/
theorem ofMarch_cases (h : dayOfYear ≤ 365) :
    (∃ m ≤ 9, monthStart m ≤ dayOfYear ∧ dayOfYear < monthStart (m + 1) ∧
      ofMarch year dayOfYear = ⟨year, m + 3, dayOfYear - monthStart m + 1⟩) ∨
    (306 ≤ dayOfYear ∧ dayOfYear < 337 ∧
      ofMarch year dayOfYear = ⟨year + 1, 1, dayOfYear - 306 + 1⟩) ∨
    (337 ≤ dayOfYear ∧ ofMarch year dayOfYear = ⟨year + 1, 2, dayOfYear - 337 + 1⟩) := by
  unfold ofMarch
  have inMonth : monthStart ((5 * dayOfYear + 2) / 153) ≤ dayOfYear ∧
      dayOfYear < monthStart ((5 * dayOfYear + 2) / 153 + 1) := by
    unfold monthStart
    omega
  have twelve : (5 * dayOfYear + 2) / 153 ≤ 11 := by omega
  generalize (5 * dayOfYear + 2) / 153 = m at *
  obtain spring | rfl | rfl : m ≤ 9 ∨ m = 10 ∨ m = 11 := by omega
  · refine .inl ⟨m, spring, inMonth.1, inMonth.2, ?_⟩
    simp [Nat.not_le.mpr (Nat.lt_succ_of_le spring)]
  · exact .inr (.inl ⟨inMonth.1, inMonth.2, rfl⟩)
  · exact .inr (.inr ⟨inMonth.1, rfl⟩)

theorem valid_ofMarch (h : dayOfYear ≤ 365) (last : dayOfYear = 365 → Leap (year + 1)) :
    (ofMarch year dayOfYear).Valid := by
  obtain ⟨m, hm, first, next, e⟩ | ⟨first, next, e⟩ | ⟨first, e⟩ := ofMarch_cases year h
  · rw [monthStart_add_one year hm] at next
    rw [e, valid_iff]
    omega
  · have january : monthLength (year + 1) 1 = 31 := rfl
    rw [e, valid_iff, january]
    omega
  · rw [e, valid_iff, monthLength]
    split
    · omega
    · have notLast : dayOfYear ≠ 365 := fun full => absurd (last full) ‹_›
      omega

theorem toDays_ofMarch (h : dayOfYear ≤ 365) :
    (ofMarch year dayOfYear).toDays + 719468 = 365 * year + leapDays year + dayOfYear := by
  have spring := yearStart_add_one year
  have next := yearStart_eq (year + 1)
  rw [Int.add_sub_cancel] at next
  have length := monthLength_february year
  obtain ⟨m, hm, first, -, e⟩ | ⟨first, -, e⟩ | ⟨first, e⟩ := ofMarch_cases year h
  · have months : monthDays year (m + 3 - 1) = _ := monthDays_eq year (Nat.le_succ_of_le hm)
    rw [e, toDays, months]
    push_cast
    omega
  · have none : monthDays (year + 1) (1 - 1) = 0 := rfl
    rw [e, toDays, none]
    push_cast
    omega
  · have january : monthDays (year + 1) (2 - 1) = 31 := rfl
    rw [e, toDays, january]
    push_cast
    omega

end OfMarch

/-! ## Days -/

theorem valid_ofDays (days : Int) : (ofDays days).Valid := by
  obtain ⟨year, dayOfYear, e, -, inside, last⟩ := exists_ofMarch days
  exact e ▸ valid_ofMarch year inside last

/-- The calendar has a date for each day. -/
theorem toDays_ofDays (days : Int) : (ofDays days).toDays = days := by
  obtain ⟨year, dayOfYear, e, total, inside, -⟩ := exists_ofMarch days
  have same := toDays_ofMarch year inside
  rw [e]
  omega

end Date

end GraphQLDoc
