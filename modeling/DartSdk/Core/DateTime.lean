import Mathlib.Tactic.Ring

/-!
# `DateTime`: calendar arithmetic

`sdk/lib/_internal/vm_shared/lib/date_patch.dart`.

An `int` is an integer of 64 bits: `wrap` is put where the arguments of a caller may overflow it. The
sum of several products is wrapped once, as a sum modulo `2 ^ 64` does not depend on the wrapping of
its parts. The native function `_timeZoneOffsetInSecondsForClampedSeconds` is an argument.
-/

namespace Core

namespace Duration

abbrev microsecondsPerMillisecond : Int := 1000
abbrev microsecondsPerSecond : Int := 1000000
abbrev microsecondsPerMinute : Int := 60000000
abbrev microsecondsPerHour : Int := 3600000000
abbrev microsecondsPerDay : Int := 86400000000
abbrev secondsPerDay : Int := 86400

end Duration

namespace DateTime

open Duration

def wrap (x : Int) : Int := (x + 2 ^ 63) % 2 ^ 64 - 2 ^ 63

/-- The arguments of the constructor. -/
structure BrokenDownDate where
  year : Int
  month : Int
  day : Int
  hour : Int
  minute : Int
  second : Int
  millisecond : Int
  microsecond : Int
  deriving DecidableEq, Repr

def maxMillisecondsSinceEpoch : Int := 8640000000000000

def daysUntilMonth (isLeap : Bool) : List Int :=
  if isLeap then [0, 31, 60, 91, 121, 152, 182, 213, 244, 274, 305, 335]
  else [0, 31, 59, 90, 120, 151, 181, 212, 243, 273, 304, 334]

def flooredDivision (a b : Int) : Int := (wrap (a - if a < 0 then b - 1 else 0)).tdiv b

def dayFromYear (year : Int) : Int :=
  wrap (365 * (year - 1970) + flooredDivision (wrap (year - 1969)) 4 -
    flooredDivision (wrap (year - 1901)) 100 + flooredDivision (wrap (year - 1601)) 400)

def isLeapYear (y : Int) : Bool := y % 4 == 0 && (y % 16 == 0 || y % 100 != 0)

/-! ## The parts of a date -/

/-- The fields that `_computeUpperPart` lists. -/
structure Parts where
  microsecond : Int
  millisecond : Int
  second : Int
  minute : Int
  hour : Int
  day : Int
  weekday : Int
  month : Nat
  year : Int
  deriving DecidableEq, Repr

/-- The search for the month from December on. -/
def monthLoop (daysUntilMonth : List Int) (days : Int) : Nat → Nat
  | 0 => 0
  | resultMonth + 1 =>
    if daysUntilMonth.getD resultMonth 0 > days then monthLoop daysUntilMonth days resultMonth
    else resultMonth + 1

abbrev daysIn4Years : Int := 4 * 365 + 1
abbrev daysIn100Years : Int := 25 * daysIn4Years - 1
abbrev daysIn400Years : Int := 4 * daysIn100Years + 1

def computeUpperPart (localMicros : Int) : Parts :=
  let days1970To2000 := 30 * 365 + 7
  let daysOffset := 1000 * daysIn400Years + 5 * daysIn400Years - days1970To2000
  let yearsOffset := 400000
  let daysSince1970 := flooredDivision localMicros microsecondsPerDay
  let days := daysSince1970 + daysOffset
  let resultYear := 400 * days.tdiv daysIn400Years - yearsOffset
  let days := days.tmod daysIn400Years - 1
  let yd1 := days.tdiv daysIn100Years
  let days := days.tmod daysIn100Years + 1
  let yd2 := days.tdiv daysIn4Years
  let days := days.tmod daysIn4Years - 1
  let yd3 := days.tdiv 365
  let days := days.tmod 365
  let isLeap := (yd1 == 0 || yd2 != 0) && yd3 == 0
  let days := if isLeap then days + 1 else days
  let resultMonth := monthLoop (daysUntilMonth isLeap) days 12
  { microsecond := localMicros % microsecondsPerMillisecond
    millisecond := flooredDivision localMicros microsecondsPerMillisecond % 1000
    second := flooredDivision localMicros microsecondsPerSecond % 60
    minute := flooredDivision localMicros microsecondsPerMinute % 60
    hour := flooredDivision localMicros microsecondsPerHour % 24
    day := days - (daysUntilMonth isLeap).getD (resultMonth - 1) 0 + 1
    weekday := (daysSince1970 + 4 - 1) % 7 + 1
    month := resultMonth
    year := resultYear + 100 * yd1 + 4 * yd2 + yd3 }

/-! ## The time zone -/

def weekDay (y : Int) : Int := (dayFromYear y + 4) % 7

def equivalentYear (year : Int) : Int :=
  let recentYear := (if isLeapYear year then 1956 else 1967) + weekDay year * 12
  2008 + (recentYear - 2008) % 28

def yearsFromSecondsSinceEpoch (secondsSinceEpoch : Int) : Int :=
  let daysYear2098 := daysIn100Years + 6 * daysIn4Years
  let days := secondsSinceEpoch.tdiv secondsPerDay
  if days > 0 ∧ days < daysYear2098 then 1970 + (4 * days + 2).tdiv daysIn4Years
  else (computeUpperPart (secondsSinceEpoch * microsecondsPerSecond)).year

def equivalentSeconds (microsecondsSinceEpoch : Int) : Int :=
  let cutOffSeconds := 0x7FFFFFFF
  let secondsSinceEpoch := flooredDivision microsecondsSinceEpoch microsecondsPerSecond
  if secondsSinceEpoch.natAbs > cutOffSeconds then
    let year := yearsFromSecondsSinceEpoch secondsSinceEpoch
    let days := dayFromYear year
    let equivalentDays := dayFromYear (equivalentYear year)
    let diffDays := equivalentDays - days
    secondsSinceEpoch + diffDays * secondsPerDay
  else secondsSinceEpoch

def timeZoneOffsetInSeconds (timeZoneOffsetInSecondsForClampedSeconds : Int → Int)
    (microsecondsSinceEpoch : Int) : Int :=
  timeZoneOffsetInSecondsForClampedSeconds (equivalentSeconds microsecondsSinceEpoch)

/-- `_toLocalTimeOffset` for any function in the place of `_timeZoneOffsetInSeconds`. -/
def toLocalTimeOffset (timeZoneOffsetInSeconds : Int → Int) (microsecondsSinceEpoch : Int) : Int :=
  let offset := timeZoneOffsetInSeconds microsecondsSinceEpoch * microsecondsPerSecond
  let offset2 :=
    timeZoneOffsetInSeconds (microsecondsSinceEpoch - offset) * microsecondsPerSecond
  if offset ≠ 0 ∧ offset2 ≠ offset then
    let offset3 :=
      timeZoneOffsetInSeconds (microsecondsSinceEpoch - offset2) * microsecondsPerSecond
    if offset2 ≤ offset3 then offset2 else offset3
  else
    let offset4 := timeZoneOffsetInSeconds
      (microsecondsSinceEpoch - offset - 2 * microsecondsPerHour) * microsecondsPerSecond
    let offset5 :=
      timeZoneOffsetInSeconds (microsecondsSinceEpoch - offset4) * microsecondsPerSecond
    if offset4 > offset ∧ (offset4 = offset + 2 * microsecondsPerHour ∨ offset5 = offset4) then
      offset4
    else offset

/-! ## The value of a date -/

/-- The part of `_brokenDownDateToValue` that deals with under- and overflow of the month, which is
zero-based. -/
def carryMonth (year month : Int) : Int × Int :=
  if month ≥ 12 then (wrap (year + month.tdiv 12), month % 12)
  else if month < 0 then
    let realMonth := month % 12
    (wrap (year + (wrap (month - realMonth)).tdiv 12), realMonth)
  else (year, month)

section
variable (timeZoneOffsetInSecondsForClampedSeconds : Int → Int) (date : BrokenDownDate)
  (isUtc : Bool)

def brokenDownDateToValue : Option Int :=
  let (year, month) := carryMonth date.year (wrap (date.month - 1))
  let days := wrap (date.day - 1 + (daysUntilMonth (isLeapYear year)).getD month.toNat 0 +
    dayFromYear year)
  let microsecondsSinceEpoch := wrap (days * microsecondsPerDay + date.hour * microsecondsPerHour +
    date.minute * microsecondsPerMinute + date.second * microsecondsPerSecond +
    date.millisecond * microsecondsPerMillisecond + date.microsecond)
  let limit := maxMillisecondsSinceEpoch * microsecondsPerMillisecond
  if isUtc then
    if wrap microsecondsSinceEpoch.natAbs > limit then none else some microsecondsSinceEpoch
  else if wrap microsecondsSinceEpoch.natAbs > limit + microsecondsPerDay then none
  else
    let microsecondsSinceEpoch := wrap (microsecondsSinceEpoch -
      toLocalTimeOffset (timeZoneOffsetInSeconds timeZoneOffsetInSecondsForClampedSeconds)
        microsecondsSinceEpoch)
    if wrap microsecondsSinceEpoch.natAbs > limit then none else some microsecondsSinceEpoch

inductive ArgumentError where
  | argumentError
  deriving DecidableEq, Repr

/-- The `_value` of the `DateTime` that `DateTime._internal` makes. -/
def internal : Except ArgumentError Int :=
  let value :=
    (brokenDownDateToValue timeZoneOffsetInSecondsForClampedSeconds date isUtc).getD (-1)
  if value = -1 then .error .argumentError else .ok value

end

end DateTime

end Core
