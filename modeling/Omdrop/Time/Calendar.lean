import Mathlib.Data.Int.Init
import Mathlib.Order.Defs.LinearOrder
import Mathlib.Tactic.IntervalCases

namespace Omdrop.Time

/-!
# The proleptic Gregorian calendar

Civil dates and their numbers, counted in days from 1 January 1970 in both directions.
`dayNumber_next` and `dayNumber_epoch` say that the number counts the days one by one, and
`dayNumber_injective` that it tells the date.
-/

/-- Does the year have a 29 February? -/
def IsLeap (year : Int) : Prop := year % 4 = 0 ∧ (year % 100 ≠ 0 ∨ year % 400 = 0)

instance (year : Int) : Decidable (IsLeap year) := inferInstanceAs (Decidable (_ ∧ _))

/-- The number of days in a year. -/
def yearLength (year : Int) : Int := if IsLeap year then 366 else 365

/-- The number of days in a month. -/
def monthLength (year : Int) : Nat → Int
  | 2              => if IsLeap year then 29 else 28
  | 4 | 6 | 9 | 11 => 30
  | _              => 31

/-- The days of a year that come before a month. -/
def daysBeforeMonth (year : Int) : Nat → Int
  | 0     => 0
  | 1     => 0
  | m + 1 => daysBeforeMonth year m + monthLength year m

/-- The days between 1 January of year 1 and that of another year. -/
def daysBeforeYear (year : Int) : Int :=
  365 * (year - 1) + (year - 1) / 4 - (year - 1) / 100 + (year - 1) / 400

/-- A civil date. -/
@[ext] structure Date where
  year : Int
  month : Nat
  day : Int
  month_valid : 1 ≤ month ∧ month ≤ 12
  day_valid : 1 ≤ day ∧ day ≤ monthLength year month

namespace Date

/-- The first day that is counted. -/
def epoch : Date := ⟨1970, 1, 1, by decide, by decide⟩

/-- The number of a day. -/
def dayNumber (d : Date) : Int :=
  daysBeforeYear d.year - daysBeforeYear 1970 + daysBeforeMonth d.year d.month + (d.day - 1)

/-- The day after. -/
def next (d : Date) : Date :=
  if h : d.day < monthLength d.year d.month then
    ⟨d.year, d.month, d.day + 1, d.month_valid, by have := d.day_valid; omega⟩
  else if hm : d.month < 12 then
    ⟨d.year, d.month + 1, 1, by have := d.month_valid; omega, by
      unfold monthLength
      split <;> (try split) <;> omega⟩
  else ⟨d.year + 1, 1, 1, by decide, by simp [monthLength]⟩

end Date

/-! ### Years and months -/

theorem daysBeforeYear_succ (year : Int) :
    daysBeforeYear (year + 1) = daysBeforeYear year + yearLength year := by
  unfold daysBeforeYear yearLength
  by_cases h : IsLeap year
  · rw [if_pos h]
    unfold IsLeap at h
    omega
  · rw [if_neg h]
    unfold IsLeap at h
    omega

theorem daysBeforeMonth_succ (year : Int) {m : Nat} (hm : 1 ≤ m) :
    daysBeforeMonth year (m + 1) = daysBeforeMonth year m + monthLength year m := by
  obtain ⟨m, rfl⟩ := Nat.exists_eq_add_of_le' hm
  rfl

private theorem monthLength_pos (year : Int) (m : Nat) : 0 < monthLength year m := by
  unfold monthLength
  split <;> (try split) <;> omega

/-- The months make up the year. -/
theorem daysBeforeMonth_thirteen (year : Int) : daysBeforeMonth year 13 = yearLength year := by
  simp only [daysBeforeMonth, monthLength, yearLength]
  split <;> rfl

theorem daysBeforeMonth_mono (year : Int) {m n : Nat} (hm : 1 ≤ m) (h : m ≤ n) :
    daysBeforeMonth year m ≤ daysBeforeMonth year n := by
  induction n, h using Nat.le_induction with
  | base => exact Int.le_refl _
  | succ n hmn ih =>
    rw [daysBeforeMonth_succ year (hm.trans hmn)]
    have := monthLength_pos year n
    omega

theorem daysBeforeYear_mono {y y' : Int} (h : y ≤ y') : daysBeforeYear y ≤ daysBeforeYear y' := by
  unfold daysBeforeYear
  omega

/-! ### The days one by one -/

namespace Date

theorem dayNumber_epoch : epoch.dayNumber = 0 := by decide

/-- **The number counts the days.** -/
theorem dayNumber_next (d : Date) : d.next.dayNumber = d.dayNumber + 1 := by
  obtain ⟨year, month, day, hmonth, hday⟩ := d
  unfold next
  split_ifs with hin hyear
  · simp only [dayNumber]
    omega
  · simp only [dayNumber, daysBeforeMonth_succ year hmonth.1] at hin ⊢
    omega
  · have h12 : month = 12 := by simp only at hyear; omega
    subst h12
    have hlength : daysBeforeMonth year 12 + monthLength year 12 = yearLength year :=
      (daysBeforeMonth_succ year (by omega)).symm.trans (daysBeforeMonth_thirteen year)
    have hfirst : daysBeforeMonth (year + 1) 1 = 0 := rfl
    simp only [dayNumber, daysBeforeYear_succ, hfirst] at hin ⊢
    omega

/-- A date stands within its month. -/
theorem dayNumber_month (d : Date) :
    daysBeforeYear d.year + daysBeforeMonth d.year d.month ≤ d.dayNumber + daysBeforeYear 1970 ∧
    d.dayNumber + daysBeforeYear 1970 <
      daysBeforeYear d.year + daysBeforeMonth d.year (d.month + 1) := by
  have hday := d.day_valid
  rw [daysBeforeMonth_succ d.year d.month_valid.1, dayNumber]
  omega

/-- A date stands within its year. -/
theorem dayNumber_year (d : Date) :
    daysBeforeYear d.year ≤ d.dayNumber + daysBeforeYear 1970 ∧
    d.dayNumber + daysBeforeYear 1970 < daysBeforeYear (d.year + 1) := by
  obtain ⟨hlo, hhi⟩ := d.dayNumber_month
  have hfirst : daysBeforeMonth d.year 1 = 0 := rfl
  have h1 := daysBeforeMonth_mono d.year (Nat.le_refl 1) d.month_valid.1
  have h13 := daysBeforeMonth_mono d.year (Nat.le_add_left 1 d.month)
    (Nat.succ_le_succ d.month_valid.2)
  rw [daysBeforeMonth_thirteen] at h13
  rw [daysBeforeYear_succ]
  omega

/-- **The number tells the date.** -/
theorem dayNumber_injective {d e : Date} (h : d.dayNumber = e.dayNumber) : d = e := by
  have hyear : d.year = e.year := by
    have hd := d.dayNumber_year
    have he := e.dayNumber_year
    rcases Int.lt_trichotomy d.year e.year with hlt | heq | hgt
    · have := daysBeforeYear_mono (Int.add_one_le_of_lt hlt)
      omega
    · exact heq
    · have := daysBeforeYear_mono (Int.add_one_le_of_lt hgt)
      omega
  have hmonth : d.month = e.month := by
    have hd := d.dayNumber_month
    have he := e.dayNumber_month
    rw [hyear] at hd
    rcases Nat.lt_trichotomy d.month e.month with hlt | heq | hgt
    · have := daysBeforeMonth_mono e.year (Nat.le_add_left 1 d.month) hlt
      omega
    · exact heq
    · have := daysBeforeMonth_mono e.year (Nat.le_add_left 1 e.month) hgt
      omega
  have hday : d.day = e.day := by
    rw [dayNumber, dayNumber, hyear, hmonth] at h
    omega
  exact Date.ext hyear hmonth hday

end Date

/-! ### The week -/

/-- The days of the week. -/
inductive Weekday
  | monday | tuesday | wednesday | thursday | friday | saturday | sunday
deriving DecidableEq, Repr

namespace Weekday

/-- The day after. -/
def next : Weekday → Weekday
  | monday    => tuesday
  | tuesday   => wednesday
  | wednesday => thursday
  | thursday  => friday
  | friday    => saturday
  | saturday  => sunday
  | sunday    => monday

/-- The weekday of a day, by its number. -/
def ofDayNumber (n : Int) : Weekday :=
  if n % 7 = 0 then thursday
  else if n % 7 = 1 then friday
  else if n % 7 = 2 then saturday
  else if n % 7 = 3 then sunday
  else if n % 7 = 4 then monday
  else if n % 7 = 5 then tuesday
  else wednesday

/-- The first day that is counted is a Thursday. -/
theorem ofDayNumber_zero : ofDayNumber 0 = thursday := rfl

/-- Weekdays are consecutive. -/
theorem ofDayNumber_succ (n : Int) : ofDayNumber (n + 1) = (ofDayNumber n).next := by
  have hrange : 0 ≤ n % 7 ∧ n % 7 < 7 := by omega
  obtain ⟨r, hr⟩ : ∃ r, n % 7 = r := ⟨_, rfl⟩
  have hsucc : (n + 1) % 7 = (r + 1) % 7 := by omega
  rw [hr] at hrange
  obtain ⟨h0, h7⟩ := hrange
  unfold ofDayNumber
  rw [hsucc, hr]
  interval_cases r <;> rfl

end Weekday

end Omdrop.Time
