import GraphQLDoc.Instant.Calendar

/-!
# Instants

An instant counts seconds and nanoseconds from the start of 1970 in UTC. Days have 86400 seconds,
except that a leap second may follow the last second of a minute. It is counted with that last
second, as nanoseconds from one billion on.

* `Instant.ofElapsed`: the instant after an elapsed time, in which nanoseconds carry into seconds.
* `Instant.chars`: date and time of day in milliseconds, as in `1970-01-01T00:00:00.000Z`. Parts of
  a millisecond are dropped, so an earlier instant never has a later text.
-/

namespace GraphQLDoc

/-- A point in time, `seconds` and `nanos` after the start of 1970. -/
structure Instant where
  seconds : Int
  nanos : Nat
  /-- Only the last second of a minute is followed by a leap second. -/
  valid : nanos < 1000000000 ∨ (nanos < 2000000000 ∧ seconds % 60 = 59)
  deriving DecidableEq

namespace Instant

/-- The instant with these counts, if there is one. -/
def of? (seconds : Int) (nanos : Nat) : Option Instant :=
  if valid : nanos < 1000000000 ∨ (nanos < 2000000000 ∧ seconds % 60 = 59) then
    some ⟨seconds, nanos, valid⟩
  else none

/-- The instant after an elapsed time. -/
def ofElapsed (seconds : Int) (nanos : Nat) : Instant :=
  ⟨seconds + nanos / 1000000000, nanos % 1000000000, .inl (Nat.mod_lt _ (by decide))⟩

/-- The date of the instant. -/
def date (t : Instant) : Date := Date.ofDays (t.seconds / 86400)

/-- The seconds since midnight, where a leap second counts with the second before it. -/
def secondOfDay (t : Instant) : Nat := (t.seconds % 86400).toNat

def hour (t : Instant) : Nat := t.secondOfDay / 3600

def minute (t : Instant) : Nat := t.secondOfDay / 60 % 60

/-- The second of the minute. A leap second has the number 60. -/
def second (t : Instant) : Nat := t.secondOfDay % 60 + t.nanos / 1000000000

/-- The whole milliseconds since the last second. -/
def millisecond (t : Instant) : Nat := t.nanos % 1000000000 / 1000000

/-- Date and time of day in UTC. -/
def chars (t : Instant) : List Char :=
  t.date.chars ++ 'T' :: (padded 2 t.hour ++ ':' :: (padded 2 t.minute ++ ':' ::
    (padded 2 t.second ++ '.' :: (padded 3 t.millisecond ++ ['Z']))))

end Instant

end GraphQLDoc
