import Omdrop.Text.Fields
import Omdrop.Time.Calendar

namespace Omdrop.Proto

open Omdrop.Text Omdrop.Time

/-!
# The `Date` header

The date of a reply, from the seconds since the epoch.  The arithmetic of the source is on
signed 64-bit integers, so every step is `checked`: `httpDate` has no result when one of them
does not fit, and `httpDate_eq` says that this never happens and that what is printed is the
civil date.
-/

/-- An integer, if it fits a signed 64-bit one. -/
def checked (x : Int) : Option Int := if -2 ^ 63 ≤ x ∧ x < 2 ^ 63 then some x else none

/-- What follows a step that fits goes on with its result. -/
theorem checked_bind {α : Type} {x : Int} (h : -2 ^ 63 ≤ x ∧ x < 2 ^ 63) (f : Int → Option α) :
    checked x >>= f = f x := by
  rw [checked, if_pos h]
  rfl

/-- The year of an era that a day is in. -/
def yearOfEra (doe : Int) : Option Int := do
  let common ← checked (doe - (← checked (doe.tdiv 1460)))
  let century ← checked (common + (← checked (doe.tdiv 36524)))
  let whole ← checked (century - (← checked (doe.tdiv 146096)))
  checked (whole.tdiv 365)

/-- The day of its year. -/
def dayOfYear (doe yoe : Int) : Option Int := do
  let fourth ← checked ((← checked (365 * yoe)) + (← checked (yoe.tdiv 4)))
  checked (doe - (← checked (fourth - (← checked (yoe.tdiv 100)))))

/-- The month, counted from March, and the day in it. -/
def monthAndDay (doy : Int) : Option (Int × Int) := do
  let mp ← checked ((← checked ((← checked (5 * doy)) + 2)).tdiv 153)
  let before ← checked ((← checked ((← checked (153 * mp)) + 2)).tdiv 5)
  let day ← checked ((← checked (doy - before)) + 1)
  return (mp, day)

/-- Year, month and day of a day number, by the years that begin in March. -/
def civilFromDays (days : Int) : Option (Int × Int × Int) := do
  let z ← checked (days + 719468)
  let era ← checked (z / 146097)
  let doe ← checked (z - (← checked (era * 146097)))
  let yoe ← yearOfEra doe
  let doy ← dayOfYear doe yoe
  let (mp, day) ← monthAndDay doy
  let month ← checked (if mp < 10 then mp + 3 else mp - 9)
  let year ← checked ((← checked (yoe + (← checked (era * 400)))) + if month ≤ 2 then 1 else 0)
  return (year, month, day)

/-- The names of the weekdays, from that of the epoch on. -/
def weekdays : List Text := ["Thu", "Fri", "Sat", "Sun", "Mon", "Tue", "Wed"]

/-- The names of the months. -/
def months : List Text :=
  ["Jan", "Feb", "Mar", "Apr", "May", "Jun", "Jul", "Aug", "Sep", "Oct", "Nov", "Dec"]

/-- An integer as an index. -/
def asUsize (x : Int) : Nat := (x % 2 ^ 64).toNat

/-- A number that may be negative, padded with zeros to two characters. -/
def twoDigits (x : Int) : Text := if x < 0 then (decimalInt x) else zeroPadded 2 x.toNat

/-- The date of a time, by the seconds from the epoch to it; a time before the epoch has none. -/
def httpDate (sinceEpoch : Option UInt64) : Option Text := do
  let secs := sinceEpoch.getD 0
  let days ← checked (secs / 86400).toNat
  let rem := (secs % 86400).toNat
  let (year, month, day) ← civilFromDays days
  return (weekdays[asUsize (days % 7)]?).getD "Thu" ++ [',', ' '] ++ twoDigits day ++ ' ' ::
    (months[asUsize (← checked (month - 1))]?).getD "Jan" ++ ' ' :: decimalInt year ++ ' ' ::
    zeroPadded 2 (rem / 3600) ++ ':' :: zeroPadded 2 (rem % 3600 / 60) ++ ':' ::
    zeroPadded 2 (rem % 60) ++ " GMT".toList

/-! ### The years of an era

An era is the 400 years after which the calendar repeats.  When years begin in March, its leap
day comes last in a year, and the year of a day is found by dividing the days that are left
without the leap days before.
-/

/-- The first day of a year of an era. -/
def yearStart (yoe : Int) : Int := 365 * yoe + yoe / 4 - yoe / 100

/-- A day of an era without the leap days before it. -/
def commonDays (doe : Int) : Int := doe - doe / 1460 + doe / 36524 - doe / 146096

/-- Later in an era there are more common days. -/
theorem commonDays_mono {doe doe' : Int} (h : doe ≤ doe') : commonDays doe ≤ commonDays doe' := by
  have hfour : doe - doe / 1460 ≤ doe' - doe' / 1460 := by omega
  have hcentury : doe / 36524 - doe / 146096 ≤ doe' / 36524 - doe' / 146096 := by
    have hd : doe / 146096 = doe / 36524 / 4 := by omega
    have hd' : doe' / 146096 = doe' / 36524 / 4 := by omega
    omega
  unfold commonDays
  omega

/-- The first and the last day of every year of an era. -/
theorem commonDays_year : ∀ y : Fin 400,
    365 * (y : Int) ≤ commonDays (yearStart y) ∧
    commonDays (yearStart (y + 1) - if y.val = 399 then 0 else 1) < 365 * (y + 1) := by
  decide +kernel

/-- The year of a day in an era. -/
private theorem yearOfEra_eq {doe : Int} (h : 0 ≤ doe ∧ doe < 146097) :
    yearOfEra doe = some (commonDays doe / 365) := by
  have h1460 : doe.tdiv 1460 = doe / 1460 := Int.tdiv_eq_ediv_of_nonneg h.1
  have h36524 : doe.tdiv 36524 = doe / 36524 := Int.tdiv_eq_ediv_of_nonneg h.1
  have h146096 : doe.tdiv 146096 = doe / 146096 := Int.tdiv_eq_ediv_of_nonneg h.1
  have h365 : (commonDays doe).tdiv 365 = commonDays doe / 365 :=
    Int.tdiv_eq_ediv_of_nonneg (by unfold commonDays; omega)
  rw [yearOfEra, h1460, h36524, h146096, checked_bind (by omega), checked_bind (by omega),
    checked_bind (by omega), checked_bind (by omega), checked_bind (by omega),
    checked_bind (by omega)]
  show checked ((commonDays doe).tdiv 365) = _
  rw [h365, checked, if_pos]
  unfold commonDays
  omega

/-- The day of that year. -/
private theorem dayOfYear_eq {doe yoe : Int} (h : 0 ≤ doe ∧ doe < 146097)
    (hyoe : 0 ≤ yoe ∧ yoe < 400) :
    dayOfYear doe yoe = some (doe - yearStart yoe) := by
  have h4 : yoe.tdiv 4 = yoe / 4 := Int.tdiv_eq_ediv_of_nonneg hyoe.1
  have h100 : yoe.tdiv 100 = yoe / 100 := Int.tdiv_eq_ediv_of_nonneg hyoe.1
  rw [dayOfYear, h4, h100, checked_bind (by omega), checked_bind (by omega),
    checked_bind (by omega), checked_bind (by omega), checked_bind (by omega), checked, if_pos]
  · rfl
  · omega

/-- The month of it, from March on, and the day of that. -/
private theorem monthAndDay_eq {doy : Int} (h : 0 ≤ doy ∧ doy ≤ 365) :
    monthAndDay doy = some ((5 * doy + 2) / 153,
      doy - (153 * ((5 * doy + 2) / 153) + 2) / 5 + 1) := by
  have h153 : (5 * doy + 2).tdiv 153 = (5 * doy + 2) / 153 :=
    Int.tdiv_eq_ediv_of_nonneg (by omega)
  have h5 : (153 * ((5 * doy + 2) / 153) + 2).tdiv 5 = (153 * ((5 * doy + 2) / 153) + 2) / 5 :=
    Int.tdiv_eq_ediv_of_nonneg (by omega)
  rw [monthAndDay, checked_bind (by omega), checked_bind (by omega), h153,
    checked_bind (by omega), checked_bind (by omega), checked_bind (by omega), h5,
    checked_bind (by omega), checked_bind (by omega), checked_bind (by omega)]
  rfl

/-- The year is the one that the day is in; the last of an era has the leap day of the era. -/
private theorem year_of_era {doe : Int} (h : 0 ≤ doe ∧ doe < 146097) :
    (0 ≤ commonDays doe / 365 ∧ commonDays doe / 365 < 400) ∧
    yearStart (commonDays doe / 365) ≤ doe ∧
    doe + (if commonDays doe / 365 = 399 then 0 else 1) ≤
      yearStart (commonDays doe / 365 + 1) := by
  obtain ⟨yoe, hyoe⟩ : ∃ yoe, yoe = commonDays doe / 365 := ⟨_, rfl⟩
  rw [← hyoe]
  have hrange : 0 ≤ commonDays doe ∧ commonDays doe < 365 * 400 := by
    have h0 := commonDays_mono h.1
    have h1 := commonDays_mono (by omega : doe ≤ 146096)
    have hends : commonDays 0 = 0 ∧ commonDays 146096 = 145999 := by decide
    omega
  have hyear : 0 ≤ yoe ∧ yoe < 400 := by omega
  refine ⟨hyear, ?_, ?_⟩
  · by_contra hlt
    -- a day before the year is no later than the last day of the year before
    obtain ⟨y, rfl⟩ : ∃ y : Nat, yoe = y + 1 := by
      have hne : yoe ≠ 0 := by
        rintro rfl
        exact hlt h.1
      exact ⟨(yoe - 1).toNat, by omega⟩
    have hend := (commonDays_year ⟨y, by omega⟩).2
    have hmono := commonDays_mono (by omega : doe ≤ yearStart (y + 1) - 1)
    have hy : y ≠ 399 := by omega
    simp only [hy, if_false] at hend
    omega
  · by_contra hlt
    by_cases hlast : yoe = 399
    · subst hlast
      have hstart : yearStart (399 + 1) = 146096 := by decide
      rw [if_pos rfl, hstart] at hlt
      omega
    · -- and one after it no earlier than the first day of the next
      obtain ⟨y, rfl⟩ : ∃ y : Nat, yoe = y := ⟨yoe.toNat, by omega⟩
      rw [if_neg hlast] at hlt
      have hstart := (commonDays_year ⟨y + 1, by omega⟩).1
      have hmono := commonDays_mono (by omega : yearStart (y + 1) ≤ doe)
      push_cast at hstart
      omega

/-! ### The day of the year -/

/-- Eras are of 146097 days. -/
private theorem daysBeforeYear_era {era yoe : Int} (h : 0 ≤ yoe ∧ yoe < 400) :
    daysBeforeYear (yoe + era * 400 + 1) = 146097 * era + yearStart yoe := by
  unfold daysBeforeYear yearStart
  omega

/-- Leap years recur with the eras. -/
private theorem isLeap_era (era yoe : Int) : IsLeap (yoe + era * 400 + 1) ↔ IsLeap (yoe + 1) := by
  have h4 : (yoe + era * 400 + 1) % 4 = (yoe + 1) % 4 := by omega
  have h100 : (yoe + era * 400 + 1) % 100 = (yoe + 1) % 100 := by omega
  have h400 : (yoe + era * 400 + 1) % 400 = (yoe + 1) % 400 := by omega
  rw [IsLeap, IsLeap, h4, h100, h400]

/-- A year that is one day longer ends with a leap day. -/
private theorem isLeap_of_yearStart {yoe : Int} (h : yearStart yoe + 366 ≤ yearStart (yoe + 1)) :
    IsLeap (yoe + 1) := by
  unfold yearStart at h
  have h4 : (yoe + 1) % 4 = 0 := by omega
  have h100 : (yoe + 1) % 100 ≠ 0 := by omega
  exact ⟨h4, .inl h100⟩

/-- From March on the days before a month follow a linear rule. -/
private theorem daysBeforeMonth_march (year : Int) {mp : Nat} (h : mp < 10) :
    daysBeforeMonth year (mp + 3) = yearLength year - 306 + (153 * mp + 2) / 5 ∧
    monthLength year (mp + 3) = (153 * (mp + 1) + 2) / 5 - (153 * mp + 2) / 5 := by
  interval_cases mp <;> simp only [daysBeforeMonth, monthLength, yearLength] <;> split <;> decide

/-- The first two months of a year follow it too, behind the others. -/
private theorem daysBeforeMonth_january (year : Int) {m : Nat} (h : 1 ≤ m ∧ m ≤ 2) :
    daysBeforeMonth year m = (153 * (m + 9) + 2) / 5 - 306 ∧
    monthLength year m = if m = 1 then 31 else if IsLeap year then 29 else 28 := by
  obtain ⟨h1, h2⟩ := h
  interval_cases m <;> exact ⟨rfl, rfl⟩

/-- The date of a day of a year that begins in March. -/
private theorem date_of_year {era yoe doy : Int} (hyear : 0 ≤ yoe ∧ yoe < 400)
    (hdoy : 0 ≤ doy ∧ doy ≤ 365) (hleap : doy = 365 → IsLeap (yoe + era * 400 + 1)) :
    ∃ d : Date, d.dayNumber = 146097 * era + yearStart yoe + doy - 719468 ∧
      d.day = doy - (153 * ((5 * doy + 2) / 153) + 2) / 5 + 1 ∧
      (d.month : Int) = (if (5 * doy + 2) / 153 < 10 then (5 * doy + 2) / 153 + 3
        else (5 * doy + 2) / 153 - 9) ∧
      d.year = yoe + era * 400 + if (d.month : Int) ≤ 2 then 1 else 0 := by
  obtain ⟨mp, hmp⟩ : ∃ mp : Nat, (5 * doy + 2) / 153 = mp :=
    ⟨((5 * doy + 2) / 153).toNat, by omega⟩
  rw [hmp]
  have hera : daysBeforeYear (yoe + era * 400 + 1) = 146097 * era + yearStart yoe :=
    daysBeforeYear_era hyear
  have hepoch : daysBeforeYear 1970 = 719162 := by decide
  -- from March to December it is the year that began in January
  by_cases hmarch : mp < 10
  · obtain ⟨hbefore, hlength⟩ := daysBeforeMonth_march (yoe + era * 400) hmarch
    have hnext := daysBeforeYear_succ (yoe + era * 400)
    refine ⟨⟨yoe + era * 400, mp + 3, doy - (153 * mp + 2) / 5 + 1, by omega, by omega⟩,
      ?_, rfl, ?_, ?_⟩
    · show daysBeforeYear (yoe + era * 400) - daysBeforeYear 1970 +
        daysBeforeMonth (yoe + era * 400) (mp + 3) + (doy - (153 * mp + 2) / 5 + 1 - 1) = _
      rw [hbefore, hepoch]
      omega
    · rw [if_pos (by omega)]
      rfl
    · show yoe + era * 400 = yoe + era * 400 + if ((mp + 3 : Nat) : Int) ≤ 2 then 1 else 0
      rw [if_neg (by omega), Int.add_zero]
  · -- January and February belong to the next one
    obtain ⟨m, rfl⟩ : ∃ m, mp = m + 9 := ⟨mp - 9, by omega⟩
    have hm : 1 ≤ m ∧ m ≤ 2 := by omega
    obtain ⟨hbefore, hlength⟩ := daysBeforeMonth_january (yoe + era * 400 + 1) hm
    -- only in a leap year there is a last day of February to come to
    have hday : doy - (153 * (m + 9) + 2) / 5 + 1 ≤ monthLength (yoe + era * 400 + 1) m := by
      rw [hlength]
      split_ifs with h1 hl
      · omega
      · omega
      · have hlast : doy ≠ 365 := fun h => hl (hleap h)
        omega
    refine ⟨⟨yoe + era * 400 + 1, m, doy - (153 * (m + 9) + 2) / 5 + 1, by omega, by omega, hday⟩,
      ?_, by push_cast; rfl, ?_, ?_⟩
    · show daysBeforeYear (yoe + era * 400 + 1) - daysBeforeYear 1970 +
        daysBeforeMonth (yoe + era * 400 + 1) m + (doy - (153 * (m + 9) + 2) / 5 + 1 - 1) = _
      rw [hbefore, hera, hepoch]
      omega
    · show (m : Int) = _
      rw [if_neg (by omega)]
      omega
    · show yoe + era * 400 + 1 = yoe + era * 400 + if (m : Int) ≤ 2 then 1 else 0
      rw [if_pos (by omega)]

/-! ### The whole date -/

/-- **No step overflows, and the date is the day's.** -/
theorem civilFromDays_eq {days : Int} (h : 0 ≤ days ∧ days < 2 ^ 48) :
    ∃ d : Date, d.dayNumber = days ∧ civilFromDays days = some (d.year, (d.month : Int), d.day) := by
  obtain ⟨era, hera⟩ : ∃ era, era = (days + 719468) / 146097 := ⟨_, rfl⟩
  obtain ⟨doe, hdoe⟩ : ∃ doe, doe = days + 719468 - era * 146097 := ⟨_, rfl⟩
  have hdays : 0 ≤ doe ∧ doe < 146097 := by omega
  obtain ⟨hyoe, hstart, hend⟩ := year_of_era hdays
  obtain ⟨yoe, hyear⟩ : ∃ yoe, yoe = commonDays doe / 365 := ⟨_, rfl⟩
  rw [← hyear] at hyoe hstart hend
  obtain ⟨doy, hdoy⟩ : ∃ doy, doy = doe - yearStart yoe := ⟨_, rfl⟩
  have hin : 0 ≤ doy ∧ doy ≤ 365 := by
    unfold yearStart at *
    split at hend <;> omega
  have hleap : doy = 365 → IsLeap (yoe + era * 400 + 1) := by
    intro h365
    rw [isLeap_era]
    by_cases hlast : yoe = 399
    · rw [hlast]
      decide
    · rw [if_neg hlast] at hend
      exact isLeap_of_yearStart (by omega)
  obtain ⟨d, hnumber, hday, hmonth, hyears⟩ := date_of_year hyoe hin hleap
  refine ⟨d, by omega, ?_⟩
  have hstep : monthAndDay (doe - yearStart yoe) = some ((5 * doy + 2) / 153, d.day) := by
    rw [← hdoy, monthAndDay_eq hin, hday]
  have hmonths : 1 ≤ d.month ∧ d.month ≤ 12 := d.month_valid
  rw [civilFromDays, checked_bind (by omega), ← hera, checked_bind (by omega),
    checked_bind (by omega), ← hdoe, checked_bind (by omega), yearOfEra_eq hdays, ← hyear]
  show (dayOfYear doe yoe >>= _) = _
  rw [dayOfYear_eq hdays hyoe]
  show (monthAndDay (doe - yearStart yoe) >>= _) = _
  rw [hstep]
  show (checked (if (5 * doy + 2) / 153 < 10 then (5 * doy + 2) / 153 + 3
    else (5 * doy + 2) / 153 - 9) >>= _) = _
  rw [← hmonth, checked_bind (by omega), checked_bind (by omega), checked_bind (by omega),
    checked_bind (by split <;> omega), ← hyears]
  rfl

/-! ### As text -/

/-- The name of a weekday. -/
def weekdayName : Weekday → Text
  | .monday    => "Mon"
  | .tuesday   => "Tue"
  | .wednesday => "Wed"
  | .thursday  => "Thu"
  | .friday    => "Fri"
  | .saturday  => "Sat"
  | .sunday    => "Sun"

/-- The name of a month. -/
def monthName : Nat → Text
  | 1  => "Jan"
  | 2  => "Feb"
  | 3  => "Mar"
  | 4  => "Apr"
  | 5  => "May"
  | 6  => "Jun"
  | 7  => "Jul"
  | 8  => "Aug"
  | 9  => "Sep"
  | 10 => "Oct"
  | 11 => "Nov"
  | _  => "Dec"

/-- A date and a time of day in the fixed form of the header. -/
def imfFixdate (w : Weekday) (d : Date) (hour minute second : Nat) : Text :=
  weekdayName w ++ [',', ' '] ++ zeroPadded 2 d.day.toNat ++ ' ' :: monthName d.month ++ ' ' ::
    decimalInt d.year ++ ' ' :: zeroPadded 2 hour ++ ':' :: zeroPadded 2 minute ++ ':' ::
    zeroPadded 2 second ++ " GMT".toList

/-- The table of weekdays has their names. -/
private theorem weekdays_get (days : Int) :
    (weekdays[asUsize (days % 7)]?).getD "Thu" = weekdayName (.ofDayNumber days) := by
  obtain ⟨r, hr⟩ : ∃ r, days % 7 = r := ⟨_, rfl⟩
  have hrange : 0 ≤ r ∧ r < 7 := by omega
  obtain ⟨h0, h7⟩ := hrange
  unfold Weekday.ofDayNumber
  rw [hr]
  interval_cases r <;> rfl

/-- The table of months has their names. -/
private theorem months_get {month : Nat} (h : 1 ≤ month ∧ month ≤ 12) :
    (months[asUsize ((month : Int) - 1)]?).getD "Jan" = monthName month := by
  obtain ⟨h1, h12⟩ := h
  interval_cases month <;> rfl

/-- **The date of every time**: no step overflows, the date is the one civil date with the number
    of the day, the weekday is that of the day, and hour, minute and second are what is left of
    it. -/
theorem httpDate_eq (secs : UInt64) :
    ∃ d : Date, d.dayNumber = (secs.toNat / 86400 : Nat) ∧
      (∀ e : Date, e.dayNumber = d.dayNumber → e = d) ∧
      ∃ hour minute second : Nat, hour < 24 ∧ minute < 60 ∧ second < 60 ∧
        (secs.toNat : Int) = 86400 * d.dayNumber + 3600 * hour + 60 * minute + second ∧
        httpDate (some secs) =
          some (imfFixdate (.ofDayNumber d.dayNumber) d hour minute second) := by
  have hdays : (secs / 86400).toNat = secs.toNat / 86400 := UInt64.toNat_div _ _
  have hrem : (secs % 86400).toNat = secs.toNat % 86400 := UInt64.toNat_mod _ _
  have hsecs : secs.toNat < 2 ^ 64 := secs.toNat_lt
  have hrange : 0 ≤ ((secs.toNat / 86400 : Nat) : Int) ∧
      ((secs.toNat / 86400 : Nat) : Int) < 2 ^ 48 := by omega
  obtain ⟨d, hnumber, hcivil⟩ := civilFromDays_eq hrange
  have hmonths : 1 ≤ d.month ∧ d.month ≤ 12 := d.month_valid
  have hday : ¬ d.day < 0 := by
    have := d.day_valid
    omega
  refine ⟨d, hnumber, fun e he => Date.dayNumber_injective he, secs.toNat % 86400 / 3600,
    secs.toNat % 86400 % 3600 / 60, secs.toNat % 86400 % 60, by omega, by omega, by omega,
    by omega, ?_⟩
  rw [httpDate, Option.getD_some, hdays, hrem, checked_bind (by omega), hcivil]
  show (checked ((d.month : Int) - 1) >>= _) = _
  rw [checked_bind (by omega), months_get hmonths, weekdays_get, twoDigits, if_neg hday, hnumber]
  rfl

example : httpDate (some 1791668400) = some "Sat, 10 Oct 2026 21:40:00 GMT".toList := by
  decide +kernel

end Omdrop.Proto
