/-!
# Instants and their date text

An instant counts seconds from the start of 1970, UTC, and nanoseconds within the second; a count
of nanoseconds from one milliard up marks a leap second. Its text follows RFC 3339 in the proleptic
Gregorian calendar: the fraction has the fewest of 0, 3, 6 or 9 digits that are exact, and a year
outside 0 to 9999 carries its sign and at least four digits.

Results:
* `CivilDate.ofDays`: the calendar date of a day number.
* `text`: the text of an instant.
-/

namespace Conformance

/-- Seconds from the start of 1970, and nanoseconds within the second. -/
structure Instant where
  seconds : Int
  nanoseconds : Nat
  deriving DecidableEq

/-- A date of the proleptic Gregorian calendar. -/
structure CivilDate where
  year : Int
  month : Nat
  day : Nat
  deriving DecidableEq, Repr

/-- The date of a day number, day 0 being the first of January 1970. Years begin in March here, so
that the leap day is the last of its year; 400 years have 146097 days. -/
def CivilDate.ofDays (days : Int) : CivilDate :=
  let shifted := days + 719468
  let era := shifted / 146097
  let dayOfEra := (shifted % 146097).toNat
  let yearOfEra := (dayOfEra - dayOfEra / 1460 + dayOfEra / 36524 - dayOfEra / 146096) / 365
  let dayOfYear := dayOfEra - (365 * yearOfEra + yearOfEra / 4 - yearOfEra / 100)
  let marchMonth := (5 * dayOfYear + 2) / 153
  let day := dayOfYear - (153 * marchMonth + 2) / 5 + 1
  let month := if marchMonth < 10 then marchMonth + 3 else marchMonth - 9
  let year := era * 400 + yearOfEra
  ⟨if month ≤ 2 then year + 1 else year, month, day⟩

namespace Instant

/-- Decimal digits, with zeros in front up to `width`. -/
def padded (width n : Nat) : String :=
  let ds := Nat.toDigits 10 n
  String.ofList (List.replicate (width - ds.length) '0' ++ ds)

def yearText (year : Int) : String :=
  if 0 ≤ year ∧ year ≤ 9999 then padded 4 year.natAbs
  else (if year < 0 then "-" else "+") ++ padded 4 year.natAbs

def fractionText (nanoseconds : Nat) : String :=
  if nanoseconds = 0 then ""
  else if nanoseconds % 1000000 = 0 then "." ++ padded 3 (nanoseconds / 1000000)
  else if nanoseconds % 1000 = 0 then "." ++ padded 6 (nanoseconds / 1000)
  else "." ++ padded 9 nanoseconds

/-- The date and time of an instant, in UTC. -/
def text (t : Instant) : String :=
  let date := CivilDate.ofDays (t.seconds / 86400)
  let secondOfDay := (t.seconds % 86400).toNat
  let second := secondOfDay % 60 + t.nanoseconds / 1000000000
  yearText date.year ++ "-" ++ padded 2 date.month ++ "-" ++ padded 2 date.day ++
    "T" ++ padded 2 (secondOfDay / 3600) ++ ":" ++ padded 2 (secondOfDay / 60 % 60) ++
    ":" ++ padded 2 second ++ fractionText (t.nanoseconds % 1000000000) ++ "+00:00"

end Instant

end Conformance
