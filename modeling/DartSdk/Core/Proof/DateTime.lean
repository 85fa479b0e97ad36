import DartSdk.Core.DateTime
import DartSdk.Lib.Gregorian
import Mathlib.Tactic.IntervalCases

/-!
# The moment of a date

* `residue_eq`: the calendar arithmetic is exact modulo `2 ^ 64` unless the year overflows.
* `internal_moment_iff`: **the constructor** makes the moment that its arguments denote, unless that
  is the one before the epoch, or one outside the range that is taken for another one.
-/

namespace Core.DateTime

open Duration Gregorian Int

variable {a b x y : Int}

theorem wrap_eq (h1 : -2 ^ 63 ≤ x := by omega) (h2 : x < 2 ^ 63 := by omega) : wrap x = x := by
  unfold wrap
  omega

theorem flooredDivision_eq (hb : 0 < b) (h1 : -2 ^ 63 + (b - 1) ≤ a) (h2 : a < 2 ^ 63) :
    flooredDivision a b = a / b := by
  unfold flooredDivision
  split
  next h =>
    rw [wrap_eq]
    obtain ⟨x, hx⟩ : ∃ x, a - (b - 1) = -x := ⟨_, (Int.neg_neg _).symm⟩
    have h3 := emod_add_mul_ediv x b
    have h4 := emod_nonneg x hb.ne'
    have h5 := emod_lt_of_pos x hb
    rw [hx, Int.neg_tdiv, tdiv_eq_ediv_of_nonneg (by omega)]
    refine ((Int.ediv_emod_unique hb (r := b - 1 - x % b)).mpr ⟨?_, by omega, by omega⟩).1.symm
    rw [Int.mul_neg]
    omega
  next h => rw [Int.sub_zero, wrap_eq (by omega) h2, tdiv_eq_ediv_of_nonneg (by omega)]

theorem daysUntilMonth_eq (y : Int) {k : Nat} (hk : k < 12) :
    (daysUntilMonth (decide (IsLeap y))).getD k 0 = monthStart y k := by
  by_cases hy : IsLeap y <;> interval_cases k <;> simp [daysUntilMonth, monthStart, monthLength, hy]

theorem monthStart_bounds (y : Int) {k : Nat} (hk : k < 12) :
    0 ≤ monthStart y k ∧ monthStart y k ≤ 335 := by
  rw [← daysUntilMonth_eq y hk]
  cases decide (IsLeap y) <;> interval_cases k <;> decide

/-- The moments of a `DateTime`. -/
def InRange (v : Int) : Prop := v.natAbs ≤ maxMillisecondsSinceEpoch * microsecondsPerMillisecond

instance : DecidablePred InRange := fun _ => inferInstanceAs (Decidable (_ ≤ _))

namespace BrokenDownDate

/-- The time of the day, or any time. -/
def time (d : BrokenDownDate) : Int :=
  d.hour * microsecondsPerHour + d.minute * microsecondsPerMinute +
    d.second * microsecondsPerSecond + d.millisecond * microsecondsPerMillisecond + d.microsecond

/-- The months are carried into the year, and all else is linear. -/
def carriedYear (d : BrokenDownDate) : Int := d.year + (d.month - 1) / 12

def moment (d : BrokenDownDate) : Int :=
  dayNumber ⟨d.carriedYear, ((d.month - 1) % 12).toNat + 1, d.day⟩ * microsecondsPerDay + d.time

/-- The fields are integers of 64 bits. -/
structure Fits (d : BrokenDownDate) : Prop where
  year : -2 ^ 63 ≤ d.year ∧ d.year < 2 ^ 63
  month : -2 ^ 63 ≤ d.month ∧ d.month < 2 ^ 63
  day : -2 ^ 63 ≤ d.day ∧ d.day < 2 ^ 63
  hour : -2 ^ 63 ≤ d.hour ∧ d.hour < 2 ^ 63
  minute : -2 ^ 63 ≤ d.minute ∧ d.minute < 2 ^ 63
  second : -2 ^ 63 ≤ d.second ∧ d.second < 2 ^ 63
  millisecond : -2 ^ 63 ≤ d.millisecond ∧ d.millisecond < 2 ^ 63
  microsecond : -2 ^ 63 ≤ d.microsecond ∧ d.microsecond < 2 ^ 63

/-- The months can be carried within 64 bits, and the days of the year can be counted. -/
structure YearFits (d : BrokenDownDate) : Prop where
  month : -2 ^ 63 + 9 ≤ d.month ∧ d.month ≤ 2 ^ 63
  year : -2 ^ 63 + 2000 ≤ d.carriedYear ∧ d.carriedYear < 2 ^ 63

/-- The moment modulo `2 ^ 64`, with the year and its first day in 64 bits. -/
def residue (d : BrokenDownDate) : Int :=
  let carried := carryMonth d.year (wrap (d.month - 1))
  wrap ((dayFromYear carried.1 + monthStart carried.1 carried.2.toNat + d.day - 1) *
    microsecondsPerDay + d.time)

end BrokenDownDate

open BrokenDownDate

theorem isLeapYear_eq (y : Int) : isLeapYear y = decide (IsLeap y) := by
  rw [Bool.eq_iff_iff, decide_eq_true_iff]
  simp only [isLeapYear, IsLeap, Bool.and_eq_true, Bool.or_eq_true, beq_iff_eq, bne_iff_ne]
  omega

theorem dayFromYear_eq (h1 : -2 ^ 63 + 2000 ≤ y) (h2 : y < 2 ^ 63) :
    dayFromYear y = wrap (yearStart y) := by
  have h (k b : Int) (hb : 0 < b) (hk : 0 ≤ k ∧ k + b ≤ 2001) :
      flooredDivision (wrap (y - k)) b = (y - k) / b := by
    rw [wrap_eq]
    exact flooredDivision_eq hb (by omega) (by omega)
  rw [dayFromYear, h 1969 4 (by decide) (by decide), h 1901 100 (by decide) (by decide),
    h 1601 400 (by decide) (by decide), yearStart_eq]

theorem carryMonth_eq {m : Int} (hm : -2 ^ 63 + 8 ≤ m) (h1 : -2 ^ 63 ≤ y + m / 12)
    (h2 : y + m / 12 < 2 ^ 63) : carryMonth y m = (y + m / 12, m % 12) := by
  unfold carryMonth
  split_ifs with hp hn
  · rw [tdiv_eq_ediv_of_nonneg (by omega), wrap_eq h1 h2]
  · dsimp only
    by_cases hw : m - m % 12 < 2 ^ 63
    · rw [wrap_eq (by omega) hw, show m - m % 12 = 12 * (m / 12) by omega,
        mul_tdiv_cancel_left _ (by decide), wrap_eq h1 h2]
    · omega
  · rw [show m / 12 = 0 by omega, show m % 12 = m by omega, Int.add_zero]

theorem carryMonth_snd (y m : Int) : (carryMonth y m).2.toNat < 12 := by
  unfold carryMonth
  split_ifs <;> dsimp only <;> omega

section
variable {tz : Int → Int} {d : BrokenDownDate}

/-! ## The residue -/

theorem wrap_add_wrap (x y : Int) : wrap (wrap x * microsecondsPerDay + y) =
    wrap (x * microsecondsPerDay + y) := by
  simp only [wrap, microsecondsPerDay]
  omega

theorem wrap_natAbs_gt_iff {l : Int} (h1 : -2 ^ 63 ≤ x) (h2 : x < 2 ^ 63) (hl : 0 ≤ l) :
    wrap x.natAbs > l ↔ ¬ x.natAbs ≤ l ∧ x ≠ -2 ^ 63 := by
  simp only [wrap]
  omega

theorem residue_bounds (d : BrokenDownDate) : -2 ^ 63 ≤ d.residue ∧ d.residue < 2 ^ 63 := by
  simp only [residue, wrap]
  omega

theorem brokenDownDateToValue_residue : brokenDownDateToValue tz d true =
    if ¬ InRange d.residue ∧ d.residue ≠ -2 ^ 63 then none else some d.residue := by
  have hr : d.residue = wrap (wrap (d.day - 1 + (daysUntilMonth (isLeapYear
      (carryMonth d.year (wrap (d.month - 1))).1)).getD
      (carryMonth d.year (wrap (d.month - 1))).2.toNat 0 +
      dayFromYear (carryMonth d.year (wrap (d.month - 1))).1) * microsecondsPerDay +
      d.hour * microsecondsPerHour + d.minute * microsecondsPerMinute +
      d.second * microsecondsPerSecond + d.millisecond * microsecondsPerMillisecond +
      d.microsecond) := by
    rw [isLeapYear_eq, daysUntilMonth_eq _ (carryMonth_snd ..)]
    simp only [Int.add_assoc, wrap_add_wrap]
    rw [residue, time]
    simp only [Int.add_assoc]
    congr 3
    omega
  obtain ⟨h1, h2⟩ := residue_bounds d
  simp only [brokenDownDateToValue, if_true, ← hr]
  simp only [wrap_natAbs_gt_iff h1 h2 (show 0 ≤ maxMillisecondsSinceEpoch *
    microsecondsPerMillisecond by decide), InRange]
  rfl

/-- The constructor throws for a residue that is far away, and for -1. -/
theorem internal_residue : internal tz d true =
    if d.residue = -1 ∨ ¬ InRange d.residue ∧ d.residue ≠ -2 ^ 63 then .error .argumentError
    else .ok d.residue := by
  rw [internal, brokenDownDateToValue_residue]
  by_cases h : ¬ InRange d.residue ∧ d.residue ≠ -2 ^ 63
  · have h' : d.residue = -1 ∨ ¬ InRange d.residue ∧ d.residue ≠ -2 ^ 63 := .inr h
    simp only [if_pos h, if_pos h']
    rfl
  · simp only [if_neg h, Option.getD_some, or_iff_left h]

/-- **The residue of a moment.** -/
theorem residue_eq (h : d.YearFits) : d.residue = wrap d.moment := by
  obtain ⟨hm, hy⟩ := h
  have hc : wrap (d.month - 1) = d.month - 1 := wrap_eq
  rw [carriedYear] at hy
  rw [residue, hc, carryMonth_eq (by omega) (by omega) (by omega)]
  dsimp only
  rw [dayFromYear_eq (by omega) (by omega), moment, carriedYear, dayNumber, Nat.add_sub_cancel]
  simp only [wrap, microsecondsPerDay]
  omega

/-! ## The moment -/

/-- The other fields cannot make up for a year that does not fit. -/
theorem carriedYear_bounds (hd : d.Fits) (h : InRange d.moment) :
    -2 ^ 60 ≤ d.carriedYear ∧ d.carriedYear ≤ 2 ^ 60 := by
  obtain ⟨-, -, hday, hhour, hminute, hsecond, hmillisecond, hmicrosecond⟩ := hd
  have hk : ((d.month - 1) % 12).toNat < 12 := by omega
  have hms := monthStart_bounds d.carriedYear hk
  simp only [InRange, moment, dayNumber, Nat.add_sub_cancel, yearStart_eq, time] at h
  simp only [maxMillisecondsSinceEpoch, microsecondsPerHour, microsecondsPerMinute,
    microsecondsPerSecond, microsecondsPerMillisecond, microsecondsPerDay] at h
  omega

theorem yearFits_of_inRange (hd : d.Fits) (h : InRange d.moment) (hm : -2 ^ 63 + 9 ≤ d.month) :
    d.YearFits := by
  have hy := carriedYear_bounds hd h
  have := hd.month
  exact ⟨by omega, by omega⟩

/-- The number of years in `2 ^ 64` months. -/
abbrev lostYears : Int := 1537228672809129301

/-- For the least months the carry into the year is wrong by `2 ^ 64` months. -/
theorem carryMonth_least (h1 : -2 ^ 63 ≤ d.month) (h2 : d.month < -2 ^ 63 + 9)
    (hy : -2 ^ 60 ≤ d.carriedYear ∧ d.carriedYear ≤ 2 ^ 60) :
    (carryMonth d.year (wrap (d.month - 1))).1 = d.carriedYear + lostYears := by
  rw [carriedYear] at hy ⊢
  by_cases h0 : d.month = -2 ^ 63
  · have hm : wrap (d.month - 1) = 2 ^ 63 - 1 := by
      rw [h0]
      decide
    have ht : (2 ^ 63 - 1 : Int).tdiv 12 = 768614336404564650 := by decide
    rw [hm, carryMonth, if_pos (by decide), ht, wrap_eq (by omega) (by omega)]
    simp only [lostYears]
    omega
  · have hm : wrap (d.month - 1) = d.month - 1 := wrap_eq (by omega) (by omega)
    have hr : wrap (d.month - 1 - (d.month - 1) % 12) = 2 ^ 63 - 4 := by
      simp only [wrap]
      omega
    have ht : (2 ^ 63 - 4 : Int).tdiv 12 = 768614336404564650 := by decide
    rw [hm, carryMonth, if_neg (by omega), if_pos (by omega)]
    dsimp only
    rw [hr, ht, wrap_eq (by omega) (by omega)]
    simp only [lostYears]
    omega

theorem yearStart_lostYears (y : Int) :
    561461243528488408720 ≤ yearStart (y + lostYears) - yearStart y ∧
      yearStart (y + lostYears) - yearStart y ≤ 561461243528488408722 := by
  simp only [yearStart_eq, lostYears]
  omega

/-- The lost days are no multiple of `2 ^ 51`, so the lost microseconds are none of `2 ^ 64`. -/
theorem residue_ne (hd : d.Fits) (h : InRange d.moment) (hm : d.month < -2 ^ 63 + 9) :
    d.residue ≠ d.moment := by
  have hy := carriedYear_bounds hd h
  have hk : ((d.month - 1) % 12).toNat < 12 := by omega
  have hms := monthStart_bounds d.carriedYear hk
  have hms' := monthStart_bounds (d.carriedYear + lostYears)
    (carryMonth_snd d.year (wrap (d.month - 1)))
  have hlost := yearStart_lostYears d.carriedYear
  have hl : lostYears = 1537228672809129301 := rfl
  rw [residue, carryMonth_least hd.month.1 hm hy, moment, dayNumber, Nat.add_sub_cancel]
  dsimp only
  rw [dayFromYear_eq (by omega) (by omega)]
  generalize monthStart (d.carriedYear + lostYears) _ = a at *
  generalize monthStart d.carriedYear _ = b at *
  generalize yearStart (d.carriedYear + lostYears) = s' at *
  generalize yearStart d.carriedYear = s at *
  clear h hd hm hy hk
  simp only [wrap, microsecondsPerDay]
  omega

/-- The constructor throws if the sum of 64 bits is this. -/
def Refused (v : Int) : Prop := v = -1 ∨ ¬ InRange v ∧ v ≠ -2 ^ 63

/-- **The constructor** makes the moment of its arguments if that is in the range, and throws
otherwise, exactly if the moment is in the range and not -1, or is outside and is refused modulo
`2 ^ 64`. If the year does not fit, the moment must be outside. -/
theorem internal_moment_iff (tz : Int → Int) (hd : d.Fits) :
    let correct := internal tz d true =
      if InRange d.moment then .ok d.moment else .error .argumentError
    (d.YearFits → (correct ↔ InRange d.moment ∧ d.moment ≠ -1 ∨
      ¬ InRange d.moment ∧ Refused (wrap d.moment))) ∧
    (¬ d.YearFits → (correct ↔ ¬ InRange d.moment ∧ Refused d.residue)) := by
  intro correct
  have hout (hi : ¬ InRange d.moment) : correct ↔ Refused d.residue := by
    simp only [correct, if_neg hi, internal_residue]
    split_ifs with hr
    · exact iff_of_true rfl hr
    · exact iff_of_false (by simp) hr
  refine ⟨fun hy => ?_, fun hy => ?_⟩
  · by_cases hi : InRange d.moment
    · have hr : d.residue = d.moment := by
        rw [residue_eq hy]
        simp only [InRange, maxMillisecondsSinceEpoch, microsecondsPerMillisecond] at hi
        exact wrap_eq (by omega) (by omega)
      simp [correct, internal_residue, hr, hi]
    · simp only [hout hi, residue_eq hy, hi, false_and, not_false_eq_true, true_and, false_or]
  · by_cases hi : InRange d.moment
    · refine iff_of_false (fun h => ?_) fun h => h.1 hi
      have hm : d.month < -2 ^ 63 + 9 := by
        by_contra hm
        exact hy (yearFits_of_inRange hd hi (by omega))
      simp only [correct, if_pos hi, internal_residue] at h
      split_ifs at h
      exact residue_ne hd hi hm (Except.ok.inj h)
    · simp only [hout hi, hi, not_false_eq_true, true_and]

end

/-- The microsecond before the epoch. -/
def beforeEpoch : BrokenDownDate := ⟨1969, 12, 31, 23, 59, 59, 999, 999⟩

theorem internal_beforeEpoch : InRange beforeEpoch.moment ∧ beforeEpoch.moment = -1 ∧
    internal (fun _ => 0) beforeEpoch true = .error .argumentError := by
  decide

/-- The fifth of March 2000 given as the 65th day of that year. -/
theorem internal_moment_iff_carried :
    internal (fun _ => 0) ⟨2000, 1, 65, 0, 0, 0, 0, 0⟩ true = .ok 952214400000000 :=
  ((internal_moment_iff (fun _ => 0) ⟨by decide, by decide, by decide, by decide, by decide,
    by decide, by decide, by decide⟩).1 ⟨by decide, by decide⟩).2 (.inl (by decide))

end Core.DateTime
