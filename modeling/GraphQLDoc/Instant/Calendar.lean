import GraphQLDoc.Decimal

/-!
# The calendar

Dates of the Gregorian calendar, which is extended to all years, and the days since the start of
1970.

The calendar repeats after 400 years, which have 146097 days. `Date.ofDays` counts years from the
first of March, so that a leap day is the last day of its year. Then each century of a cycle but the
last has 36524 days, each group of four years in a century but the last has 1461, and each year of a
group but the last has 365. The last one of each is where the extra day may stand.
-/

namespace GraphQLDoc

/-- A date. Year zero comes before year one, and earlier years are negative. -/
structure Date where
  year : Int
  month : Nat
  day : Nat
  deriving DecidableEq

namespace Date

/-- The months of a year that starts in March have 31 and 30 days in turn, and the turns start anew
after five months. So month `m` of them begins on day `(153 * m + 2) / 5`. -/
def monthStart (m : Nat) : Nat := (153 * m + 2) / 5

/-- The date a number of days after the first of January 1970. -/
def ofDays (days : Int) : Date :=
  -- The first of March of year zero lies 719468 days before the start of 1970.
  let fromMarch := days + 719468
  let cycle := fromMarch / 146097
  let dayOfCycle := (fromMarch % 146097).toNat
  let century := min 3 (dayOfCycle / 36524)
  let dayOfCentury := dayOfCycle - century * 36524
  let group := dayOfCentury / 1461
  let dayOfGroup := dayOfCentury % 1461
  let yearOfGroup := min 3 (dayOfGroup / 365)
  let dayOfYear := dayOfGroup - yearOfGroup * 365
  let yearOfCycle := 100 * century + 4 * group + yearOfGroup
  let monthFromMarch := (5 * dayOfYear + 2) / 153
  -- January and February are the last months of a year that starts in March.
  let wrapped := 10 ≤ monthFromMarch
  { year := 400 * cycle + yearOfCycle + (if wrapped then 1 else 0)
    month := if wrapped then monthFromMarch - 9 else monthFromMarch + 3
    day := dayOfYear - monthStart monthFromMarch + 1 }

/-- A year has four digits or more. Years of more than four digits and negative ones have a sign. -/
def yearChars (year : Int) : List Char :=
  if year < 0 then '-' :: padded 4 year.natAbs
  else if 9999 < year then '+' :: padded 4 year.natAbs
  else padded 4 year.natAbs

/-- Year, month and day, separated by hyphens. -/
def chars (d : Date) : List Char :=
  yearChars d.year ++ '-' :: (padded 2 d.month ++ '-' :: padded 2 d.day)

end Date

end GraphQLDoc
