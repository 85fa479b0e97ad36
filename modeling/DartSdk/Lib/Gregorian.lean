/-!
# The proleptic Gregorian calendar

The number of a day, counted from 1970-01-01. Any number is taken for the day of a month.

* `yearStart_eq`: the days before a year in closed form.
-/

namespace Gregorian

structure Date where
  year : Int
  month : Nat
  day : Int
  deriving DecidableEq, Repr

def IsLeap (year : Int) : Prop := year % 4 = 0 ∧ (year % 100 = 0 → year % 400 = 0)

instance : DecidablePred IsLeap := fun _ => inferInstanceAs (Decidable (_ ∧ _))

def monthLength (year : Int) : Nat → Int
  | 2 => if IsLeap year then 29 else 28
  | 4 | 6 | 9 | 11 => 30
  | _ => 31

/-- The days of the first `k` months. -/
def monthStart (year : Int) : Nat → Int
  | 0 => 0
  | k + 1 => monthStart year k + monthLength year (k + 1)

def yearLength (year : Int) : Int := monthStart year 12

/-- The days of the `n` years from a year on. -/
def daysOfYears (year : Int) : Nat → Int
  | 0 => 0
  | n + 1 => daysOfYears year n + yearLength (year + n)

/-- The days from 1970 to a year. -/
def yearStart (year : Int) : Int :=
  if 1970 ≤ year then daysOfYears 1970 (year - 1970).toNat
  else -daysOfYears year (1970 - year).toNat

def dayNumber (d : Date) : Int := yearStart d.year + monthStart d.year (d.month - 1) + d.day - 1

theorem yearLength_eq (year : Int) : yearLength year = if IsLeap year then 366 else 365 := by
  simp only [yearLength, monthStart, monthLength]
  split <;> rfl

/-- One day for every fourth year, but not for every hundredth, but for every four hundredth. -/
theorem daysOfYears_eq (year : Int) (n : Nat) : daysOfYears year n = 365 * n +
    ((year + n - 1) / 4 - (year - 1) / 4) - ((year + n - 1) / 100 - (year - 1) / 100) +
    ((year + n - 1) / 400 - (year - 1) / 400) := by
  induction n with
  | zero => simp [daysOfYears]
  | succ n ih =>
    rw [daysOfYears, ih, yearLength_eq]
    split <;> rename_i h <;> unfold IsLeap at h <;> omega

theorem yearStart_eq (year : Int) : yearStart year =
    365 * (year - 1970) + (year - 1969) / 4 - (year - 1901) / 100 + (year - 1601) / 400 := by
  unfold yearStart
  split <;> rw [daysOfYears_eq] <;> omega

end Gregorian
