import GraphQLDoc.Proofs.Calendar
import GraphQLDoc.Proofs.Numerals
import GraphQLDoc.Proofs.Quoting

/-!
# The literals of instants

The literal of an instant gives its date and time of day, from which the instant can be read again
but for the parts of a millisecond.

* `InDigits`: a number in decimal digits, with leading zeros up to a width.
* `Timestamp`: date and time of day. `Timestamp.instant?` is the instant at this time, and
  `Timestamp.WrittenAs` says how it is written.
* `Timestamp.read?`: the timestamp that a text gives, and `Timestamp.read?_of_writtenAs`: it is the
  one that has been written.
* `Instant.floor`: the instant at the start of the millisecond.
* `Instant.literal_denotes`: the literal of an instant, and what is read from it.
-/

namespace GraphQLDoc

/-! ## Numbers of some width -/

/-- The text has so many digits, and they stand for the number. -/
structure InDigits (width n : Nat) (text : List Char) : Prop where
  length : text.length = width
  digits : ∀ c ∈ text, c.isDigit = true
  value : digitsValue text = n

theorem inDigits_padded (width n : Nat) :
    InDigits (max width (digits n).length) n (padded width n) where
  length := by
    rw [padded, List.length_append, List.length_replicate]
    omega
  digits := fun _ => isDigit_of_mem_padded
  value := by rw [padded, digitsValue_zeros_append, digitsValue_digits]

theorem inDigits_padded_of_lt {width n : Nat} (positive : 0 < width) (h : n < 10 ^ width) :
    InDigits width n (padded width n) := by
  have short : (digits n).length ≤ width :=
    (Nat.length_toDigits_le_iff (by decide) positive).mpr h
  have spelled := inDigits_padded width n
  rwa [Nat.max_eq_left short] at spelled

namespace Reader

/-- A number of some width. -/
def number (width : Nat) : Reader Nat := fun text =>
  if (text.take width).length = width ∧ (text.take width).all Char.isDigit = true then
    some (digitsValue (text.take width), text.drop width)
  else none

/-- What another reader takes after a certain character. -/
def after {α : Type} (mark : Char) (reader : Reader α) : Reader α
  | [] => none
  | c :: text => if c = mark then reader text else none

/-- A year of four digits, or one with a sign, which negative years and those of more digits
have. -/
def year : Reader Int
  | '-' :: text => (run Char.isDigit text).bind fun (ds, rest) =>
    if 4 ≤ ds.length ∧ 0 < digitsValue ds then some (-digitsValue ds, rest) else none
  | '+' :: text => (run Char.isDigit text).bind fun (ds, rest) =>
    if 9999 < digitsValue ds then some (digitsValue ds, rest) else none
  | text => (number 4 text).map fun (n, rest) => (n, rest)

variable {width n : Nat} {ds rest : List Char}

theorem number_append (h : InDigits width n ds) : number width (ds ++ rest) = some (n, rest) := by
  have front : (ds ++ rest).take width = ds := List.take_left' h.length
  have behind : (ds ++ rest).drop width = rest := List.drop_left' h.length
  rw [number, front, behind, if_pos ⟨h.length, List.all_eq_true.mpr h.digits⟩, h.value]

theorem after_cons {α : Type} (mark : Char) (reader : Reader α) (text : List Char) :
    after mark reader (mark :: text) = reader text := if_pos rfl

theorem after_number (mark : Char) (h : InDigits width n ds) :
    after mark (number width) (mark :: (ds ++ rest)) = some (n, rest) := by
  rw [after_cons, number_append h]

end Reader

/-! ## Timestamps -/

/-- Years of more than four digits and negative ones have a sign. -/
def Date.yearSign (year : Int) : List Char :=
  if year < 0 then ['-'] else if 9999 < year then ['+'] else []

theorem Date.yearChars_eq (year : Int) :
    yearChars year = yearSign year ++ padded 4 year.natAbs := by
  unfold yearChars yearSign
  split
  · rfl
  · split <;> rfl

theorem Reader.year_append {year : Int} {ds rest : List Char}
    (h : InDigits (max 4 (digits year.natAbs).length) year.natAbs ds)
    (ends : ∀ c ∈ rest.head?, c.isDigit = false) :
    Reader.year (Date.yearSign year ++ (ds ++ rest)) = some (year, rest) := by
  have long : 4 ≤ ds.length := h.length ▸ Nat.le_max_left _ _
  have taken : Reader.run Char.isDigit (ds ++ rest) = some (ds, rest) :=
    Reader.run_append (List.ne_nil_of_length_pos (by omega)) h.digits ends
  have digit : ∀ c ∈ ds.head?, c.isDigit = true := fun c hc => h.digits c (List.mem_of_mem_head? hc)
  unfold Date.yearSign
  split
  · simp only [List.singleton_append, Reader.year, taken, Option.bind_some, h.value]
    rw [if_pos ⟨long, by omega⟩]
    simp only [Option.some.injEq, Prod.mk.injEq, and_true]
    omega
  · split
    · simp only [List.singleton_append, Reader.year, taken, Option.bind_some, h.value]
      rw [if_pos (by omega)]
      simp only [Option.some.injEq, Prod.mk.injEq, and_true]
      omega
    · have four : InDigits 4 year.natAbs ds := by
        have short : (digits year.natAbs).length ≤ 4 :=
          (Nat.length_toDigits_le_iff (by decide) (by decide)).mpr (by omega)
        rwa [Nat.max_eq_left short] at h
      obtain ⟨c, cs, rfl⟩ := List.exists_cons_of_length_pos (Nat.lt_of_lt_of_le (by decide) long)
      have first : Reader.number 4 (c :: cs ++ rest) = some (year.natAbs, rest) :=
        number_append four
      rw [List.nil_append, Reader.year, first]
      · simp only [Option.map_some, Option.some.injEq, Prod.mk.injEq, and_true]
        omega
      · rintro text ⟨⟩
        exact absurd (digit '-' rfl) (by decide)
      · rintro text ⟨⟩
        exact absurd (digit '+' rfl) (by decide)

/-- A date and a time of day. -/
structure Timestamp where
  date : Date
  hour : Nat
  minute : Nat
  second : Nat
  millisecond : Nat

namespace Timestamp

/-- The form of a timestamp is `[sign]YYYY-MM-DDTHH:MM:SS.mmmZ`, where longer years keep all their
digits. -/
def WrittenAs (s : Timestamp) (text : List Char) : Prop :=
  ∃ year month day hour minute second millisecond : List Char,
    text = Date.yearSign s.date.year ++ (year ++ '-' :: (month ++ '-' :: (day ++ 'T' :: (hour ++
      ':' :: (minute ++ ':' :: (second ++ '.' :: (millisecond ++ ['Z']))))))) ∧
    InDigits (max 4 (digits s.date.year.natAbs).length) s.date.year.natAbs year ∧
    InDigits 2 s.date.month month ∧ InDigits 2 s.date.day day ∧ InDigits 2 s.hour hour ∧
    InDigits 2 s.minute minute ∧ InDigits 2 s.second second ∧ InDigits 3 s.millisecond millisecond

/-- The timestamp that a text gives. -/
def read? (text : List Char) : Option Timestamp := do
  let (year, text) ← Reader.year text
  let (month, text) ← Reader.after '-' (Reader.number 2) text
  let (day, text) ← Reader.after '-' (Reader.number 2) text
  let (hour, text) ← Reader.after 'T' (Reader.number 2) text
  let (minute, text) ← Reader.after ':' (Reader.number 2) text
  let (second, text) ← Reader.after ':' (Reader.number 2) text
  let (millisecond, text) ← Reader.after '.' (Reader.number 3) text
  if text = ['Z'] then some ⟨⟨year, month, day⟩, hour, minute, second, millisecond⟩ else none

/-- The instant at a time, if there is such a time. A second of the number 60 is a leap second, and
it is counted with the second before. -/
def instant? (s : Timestamp) : Option Instant :=
  let leap := s.second / 60
  if s.date.Valid ∧ s.hour < 24 ∧ s.minute < 60 ∧ s.second ≤ 60 ∧ s.millisecond < 1000 then
    Instant.of?
      (86400 * s.date.toDays + (3600 * s.hour + 60 * s.minute + (s.second - leap) : Nat))
      (1000000000 * leap + 1000000 * s.millisecond)
  else none

theorem read?_of_writtenAs {s : Timestamp} {text : List Char} (h : s.WrittenAs text) :
    read? text = some s := by
  obtain ⟨year, month, day, hour, minute, second, millisecond, rfl, hyear, hmonth, hday, hhour,
    hminute, hsecond, hmillisecond⟩ := h
  have first : ∀ rest, Reader.year (Date.yearSign s.date.year ++ (year ++ '-' :: rest)) =
      some (s.date.year, '-' :: rest) := fun rest => Reader.year_append hyear (by simp)
  simp only [read?, first, Reader.after_number _ hmonth, Reader.after_number _ hday,
    Reader.after_number _ hhour, Reader.after_number _ hminute, Reader.after_number _ hsecond,
    Reader.after_number _ hmillisecond, Option.bind_eq_bind, Option.bind_some]
  rfl

end Timestamp

namespace Instant

/-- The instant at the start of the millisecond. -/
def floor (t : Instant) : Instant :=
  ⟨t.seconds, t.nanos / 1000000 * 1000000, by have := t.valid; omega⟩

/-- Date and time of day of the instant. -/
def timestamp (t : Instant) : Timestamp :=
  ⟨t.date, t.hour, t.minute, t.second, t.millisecond⟩

/-! ## Parts of an instant -/

variable (t : Instant)

theorem valid_date : t.date.Valid := Date.valid_ofDays _

theorem toDays_date : t.date.toDays = t.seconds / 86400 := Date.toDays_ofDays _

theorem seconds_eq : t.seconds = 86400 * (t.seconds / 86400) + t.secondOfDay := by
  unfold secondOfDay
  omega

theorem hour_lt : t.hour < 24 := by
  unfold hour secondOfDay
  omega

theorem minute_lt : t.minute < 60 := Nat.mod_lt _ (by decide)

/-- A leap second only follows the last second of a minute. -/
theorem second_div_sixty : t.second / 60 = t.nanos / 1000000000 := by
  have valid := t.valid
  unfold second secondOfDay
  omega

theorem second_le : t.second ≤ 60 := by
  have valid := t.valid
  unfold second secondOfDay
  omega

theorem millisecond_lt : t.millisecond < 1000 := by
  unfold millisecond
  omega

/-! ## Writing and reading -/

theorem instant?_timestamp : t.timestamp.instant? = some t.floor := by
  have seconds : 86400 * t.date.toDays +
      (3600 * t.hour + 60 * t.minute + (t.second - t.second / 60) : Nat) = t.seconds := by
    have inDay := t.seconds_eq
    rw [t.toDays_date, t.second_div_sixty]
    unfold hour minute second
    omega
  have nanos : 1000000000 * (t.second / 60) + 1000000 * t.millisecond =
      t.nanos / 1000000 * 1000000 := by
    rw [t.second_div_sixty]
    unfold millisecond
    omega
  rw [Timestamp.instant?,
    if_pos ⟨t.valid_date, t.hour_lt, t.minute_lt, t.second_le, t.millisecond_lt⟩]
  simp only [timestamp, seconds, nanos]
  exact dif_pos t.floor.valid

theorem writtenAs_timestamp : t.timestamp.WrittenAs t.chars := by
  obtain ⟨month, day⟩ := t.valid_date
  have short := Date.monthLength_le t.date.year t.date.month
  have hour := t.hour_lt
  have minute := t.minute_lt
  have second := t.second_le
  have two : ∀ {n : Nat}, n < 100 → InDigits 2 n (padded 2 n) :=
    inDigits_padded_of_lt Nat.two_pos
  refine ⟨padded 4 t.date.year.natAbs, padded 2 t.date.month, padded 2 t.date.day, padded 2 t.hour,
    padded 2 t.minute, padded 2 t.second, padded 3 t.millisecond, ?_, inDigits_padded _ _,
    two (show t.date.month < 100 by omega), two (show t.date.day < 100 by omega),
    two (show t.hour < 100 by omega), two (show t.minute < 100 by omega),
    two (show t.second < 100 by omega), inDigits_padded_of_lt (by decide) t.millisecond_lt⟩
  have joined : ∀ sign year month day rest : List Char,
      sign ++ year ++ '-' :: (month ++ '-' :: day) ++ 'T' :: rest =
        sign ++ (year ++ '-' :: (month ++ '-' :: (day ++ 'T' :: rest))) := by simp
  rw [chars, Date.chars, Date.yearChars_eq, joined]
  rfl

/-- Only whole milliseconds are written. -/
theorem chars_floor : t.floor.chars = t.chars := by
  have second : t.floor.second = t.second := by
    unfold Instant.second secondOfDay floor
    dsimp only
    omega
  have millisecond : t.floor.millisecond = t.millisecond := by
    unfold Instant.millisecond floor
    dsimp only
    omega
  rw [chars, second, millisecond]
  rfl

/-- The instant that the literal of a date and a time stands for. -/
def read? (literal : List Char) : Option Instant :=
  match Reader.string literal with
  | some (text, []) => (Timestamp.read? text).bind Timestamp.instant?
  | _ => none

theorem read?_of_string {literal text : List Char}
    (h : Reader.string literal = some (text, [])) :
    read? literal = (Timestamp.read? text).bind Timestamp.instant? := by rw [read?, h]

theorem read?_literal : read? (Value.instant t).chars = some t.floor := by
  have body : Reader.string (quoted t.chars ++ []) = some (t.chars, []) :=
    Reader.string_quoted _ _
  have literal : (Value.instant t).chars = quoted t.chars ++ [] := by
    rw [List.append_nil, quoted_chars_instant]
    rfl
  rw [literal, read?_of_string body, Timestamp.read?_of_writtenAs t.writtenAs_timestamp,
    Option.bind_some, t.instant?_timestamp]

/-- The literal of an instant is a timestamp between quotes. Its date is one of the calendar, and
the instant at this date and time is the written one, at the start of its millisecond. So two
instants are written alike exactly if they lie in the same millisecond. -/
theorem literal_denotes :
    (∃ (s : Timestamp) (text : List Char), (Value.instant t).chars = '"' :: (text ++ ['"']) ∧
      s.WrittenAs text ∧ s.date.Valid ∧ Timestamp.read? text = some s ∧
      s.instant? = some t.floor) ∧
    read? (Value.instant t).chars = some t.floor ∧
    ∀ u : Instant, (Value.instant u).text = (Value.instant t).text ↔ u.floor = t.floor := by
  have written := t.writtenAs_timestamp
  refine ⟨⟨t.timestamp, t.chars, rfl, written, t.valid_date,
    Timestamp.read?_of_writtenAs written, t.instant?_timestamp⟩, t.read?_literal, fun u => ?_⟩
  constructor
  · intro same
    have chars : (Value.instant u).chars = (Value.instant t).chars := String.ofList_injective same
    have floors : some u.floor = some t.floor := by
      rw [← u.read?_literal, chars, t.read?_literal]
    exact Option.some.inj floors
  · intro same
    have chars : u.chars = t.chars := by rw [← u.chars_floor, same, t.chars_floor]
    exact congrArg (fun text => String.ofList ('"' :: (text ++ ['"']))) chars

/-- The leap second before 2017. -/
example : (Value.instant ⟨1483228799, 1250999999, .inr (by decide)⟩).chars =
    "\"2016-12-31T23:59:60.250Z\"".toList := by decide

end Instant

end GraphQLDoc
