import QueryLint.Text

/-!
Points in time, to the millisecond, and the proleptic Gregorian calendar in which they are written.

A day is counted from the first of January 1970. The calendar is computed with years that start in
March: the leap day is then the last day of its year, so that the months before it have fixed
places.
-/

namespace QueryLint
set_option autoImplicit false

/-- Milliseconds since the start of 1970, universal time. -/
structure Instant where
  milliseconds : Int
deriving DecidableEq, Repr

structure CivilDate where
  year : Int
  month : Int
  day : Int
deriving DecidableEq, Repr

namespace CivilDate

/-- The day number of a date. A month beyond the twelfth or before the first belongs to another
year, and a day outside of its month to another month. -/
def dayNumber (d : CivilDate) : Int :=
  let marchMonth := (d.month - 3) % 12
  let marchYear := d.year + (d.month - 3) / 12
  let era := marchYear / 400
  let yearOfEra := marchYear % 400
  let dayOfYear := (153 * marchMonth + 2) / 5 + d.day - 1
  era * 146097 + yearOfEra * 365 + yearOfEra / 4 - yearOfEra / 100 + dayOfYear - 719468

def ofDayNumber (n : Int) : CivilDate :=
  let days := n + 719468
  let era := days / 146097
  let dayOfEra := days % 146097
  let yearOfEra := (dayOfEra - dayOfEra / 1460 + dayOfEra / 36524 - dayOfEra / 146096) / 365
  let dayOfYear := dayOfEra - (365 * yearOfEra + yearOfEra / 4 - yearOfEra / 100)
  let marchMonth := (5 * dayOfYear + 2) / 153
  let day := dayOfYear - (153 * marchMonth + 2) / 5 + 1
  let month := if marchMonth < 10 then marchMonth + 3 else marchMonth - 9
  ⟨yearOfEra + era * 400 + (if month ≤ 2 then 1 else 0), month, day⟩

end CivilDate

namespace Instant

def dayLength : Int := 86400000

/-- The instant of a date and a time of day, each part of which may run over. -/
def ofParts (date : CivilDate) (hour minute second millisecond : Int) : Instant :=
  ⟨date.dayNumber * dayLength + ((hour * 60 + minute) * 60 + second) * 1000 + millisecond⟩

def dayNumber (t : Instant) : Int := t.milliseconds / dayLength

def date (t : Instant) : CivilDate := .ofDayNumber t.dayNumber

def timeOfDay (t : Instant) : Nat := (t.milliseconds % dayLength).toNat

def padded (width : Nat) (n : Nat) : Text :=
  let digits := Text.ofNat n
  List.replicate (width - digits.length) ('0' : CodeUnit) ++ digits

def clockText (t : Instant) : Text :=
  let seconds := t.timeOfDay / 1000
  padded 2 (seconds / 3600) ++ ":" ++ padded 2 (seconds / 60 % 60) ++ ":" ++ padded 2 (seconds % 60)

def weekdays : List String := ["Thu", "Fri", "Sat", "Sun", "Mon", "Tue", "Wed"]

def months : List String :=
  ["Jan", "Feb", "Mar", "Apr", "May", "Jun", "Jul", "Aug", "Sep", "Oct", "Nov", "Dec"]

/-- The text in which people read an instant: weekday, date, time and zone. -/
def toText (t : Instant) : Text :=
  let date := t.date
  let weekday : Text := weekdays.getD (t.dayNumber % 7).toNat ""
  let month : Text := months.getD (date.month - 1).toNat ""
  weekday ++ " " ++ month ++ " " ++ padded 2 date.day.toNat ++ " " ++ padded 4 date.year.toNat ++ " " ++
    t.clockText ++ " GMT+0000 (Coordinated Universal Time)"

/-- The text in which data keeps an instant: date, `T`, time with milliseconds, `Z`. -/
def toDataText (t : Instant) : Text :=
  let date := t.date
  padded 4 date.year.toNat ++ "-" ++ padded 2 date.month.toNat ++ "-" ++ padded 2 date.day.toNat ++ "T" ++
    t.clockText ++ "." ++ padded 3 (t.timeOfDay % 1000) ++ "Z"

end Instant
end QueryLint
