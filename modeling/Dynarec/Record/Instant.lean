import Dynarec.Text.Number

/-!
# Instants

Points in time, counted from the start of 1970 in seconds and nanoseconds, and their text in the
calendar.

## Main definitions

* `Dynarec.Instant` — a point in time.
* `Dynarec.Instant.unixNano` — its number of nanoseconds, in 64 bits.
* `Dynarec.Instant.date`, `Dynarec.Instant.text` — its date and its text.
-/

set_option autoImplicit false

namespace Dynarec

/-- A point in time: whole seconds since the start of 1970, and nanoseconds since the last of
them. -/
structure Instant where
  /-- Whole seconds since the start of 1970, rounded down. -/
  seconds : Int
  /-- Nanoseconds since the last whole second. -/
  nanos : Nat
  deriving DecidableEq, Repr

namespace Instant

/-- The point in time at a number of seconds and nanoseconds; the latter may be any number. -/
def ofUnix (seconds nanos : Int) : Instant where
  seconds := seconds + nanos.fdiv 1000000000
  nanos := (nanos.fmod 1000000000).toNat

/-- The point in time that stands for none: the start of the year 1. -/
def unset : Instant where
  seconds := -62135596800
  nanos := 0

/-- The number of nanoseconds since the start of 1970, which wraps at 64 bits. -/
def unixNano (t : Instant) : Int :=
  wrapInt64 (t.seconds * 1000000000 + t.nanos)

/-- Year, month and day of a number of days since the start of 1970. Years are counted from March
inside eras of 400 years, so that leap days come last. -/
def dateOfDays (days : Int) : Int × Nat × Nat :=
  let shifted := days + 719468
  let era := shifted.fdiv 146097
  let dayOfEra := (shifted.fmod 146097).toNat
  let yearOfEra :=
    (dayOfEra - dayOfEra / 1460 + dayOfEra / 36524 - dayOfEra / 146096) / 365
  let dayOfYear := dayOfEra - (365 * yearOfEra + yearOfEra / 4 - yearOfEra / 100)
  let monthFromMarch := (5 * dayOfYear + 2) / 153
  let day := dayOfYear - (153 * monthFromMarch + 2) / 5 + 1
  let month := if monthFromMarch < 10 then monthFromMarch + 3 else monthFromMarch - 9
  let year := era * 400 + yearOfEra
  (if month ≤ 2 then year + 1 else year, month, day)

/-- Year, month and day, by the days since the start of 1970. -/
def date (t : Instant) : Int × Nat × Nat :=
  dateOfDays (t.seconds.fdiv 86400)

/-- Whether the year has at most four digits, as text requires. -/
def hasText (t : Instant) : Bool :=
  0 ≤ t.date.1 && t.date.1 < 10000

/-- A number with at least `width` digits. -/
def digits (width n : Nat) : List Char :=
  Text.padded width (Nat.toDigits 10 n)

/-- Date and time, with as many decimals of the second as are needed. -/
def text (t : Instant) : String :=
  let (year, month, day) := t.date
  let second := (t.seconds.fmod 86400).toNat
  let decimals := ((digits 9 t.nanos).reverse.dropWhile (· == '0')).reverse
  String.ofList <|
    digits 4 year.toNat ++ '-' :: digits 2 month ++ '-' :: digits 2 day ++ 'T' ::
      digits 2 (second / 3600) ++ ':' :: digits 2 (second / 60 % 60) ++ ':' ::
      digits 2 (second % 60) ++ (if decimals.isEmpty then [] else '.' :: decimals) ++ ['Z']

end Instant

end Dynarec
