import Mathlib.Algebra.BigOperators.Intervals
import Mathlib.Tactic.IntervalCases
import ZAssembler.Calendar

/-
  Day counts follow the Gregorian calendar. The calendar is stated without the conversion: which
  years are leap years, how long a month is, which date comes next, and how many days lie between a
  date and 1970-01-01, counted year by year and month by month (`Date.dayNumber`).

  The conversion gives back every date from its day count (`dateOfDay_dayNumber`): counted from
  March, a date is a year and a day of it (`Date.Valid.inMarchYear`), and the divisions recover the
  year, since what each of them is off by is less than what is left of the year
  (`yearOfCycle_digits`). Every count is that of a date, because the next date has the next count
  and 400 years later it is 146097 days later (`Date.exists_dayNumber`).
-/

namespace ZAssembler.Calendar

open Finset

/-! ## The calendar -/

def IsLeap (year : Int) : Prop := year % 4 = 0 ∧ (year % 100 ≠ 0 ∨ year % 400 = 0)

instance (year : Int) : Decidable (IsLeap year) :=
  inferInstanceAs (Decidable (year % 4 = 0 ∧ (year % 100 ≠ 0 ∨ year % 400 = 0)))

def monthLength (year : Int) : Nat → Nat
  | 2 => if IsLeap year then 29 else 28
  | 4 | 6 | 9 | 11 => 30
  | _ => 31

/-- The days of a year before its `month`; the year ends before month 13. -/
def daysBefore (year : Int) (month : Nat) : Nat := ∑ m ∈ Ico 1 month, monthLength year m

def yearLength (year : Int) : Nat := daysBefore year 13

/-- The days from 1970-01-01 to the beginning of a year: those of the years since, or less those of
    the years before. -/
def yearStart (year : Int) : Int :=
  ∑ i ∈ range (year - 1970).toNat, (yearLength (1970 + i) : Int) -
    ∑ i ∈ range (1970 - year).toNat, (yearLength (1969 - i) : Int)

namespace Date

structure Valid (date : Date) : Prop where
  month_pos : 1 ≤ date.month
  month_le : date.month ≤ 12
  day_pos : 1 ≤ date.day
  day_le : date.day ≤ monthLength date.year date.month

/-- The distance of a date from 1970-01-01 in days. -/
def dayNumber (date : Date) : Int :=
  yearStart date.year + daysBefore date.year date.month + (date.day - 1)

/-- The date that follows. -/
def next (date : Date) : Date :=
  if date.day < monthLength date.year date.month then { date with day := date.day + 1 }
  else if date.month < 12 then { date with month := date.month + 1, day := 1 }
  else { year := date.year + 1, month := 1, day := 1 }

end Date

/-! ## Months and years -/

theorem daysBefore_one (year : Int) : daysBefore year 1 = 0 := rfl

theorem daysBefore_succ (year : Int) {month : Nat} (h : 1 ≤ month) :
    daysBefore year (month + 1) = daysBefore year month + monthLength year month :=
  sum_Ico_succ_top h _

theorem yearLength_eq (year : Int) : yearLength year = if IsLeap year then 366 else 365 := by
  unfold yearLength daysBefore
  simp only [sum_Ico_succ_top, monthLength, Nat.reduceLeDiff, Ico_self, sum_empty]
  split <;> rfl

theorem yearStart_epoch : yearStart 1970 = 0 := rfl

theorem yearStart_succ (year : Int) : yearStart (year + 1) = yearStart year + yearLength year := by
  unfold yearStart
  rcases Int.lt_or_le year 1970 with hbefore | hsince
  · have hcount : (1970 - year).toNat = (1970 - (year + 1)).toNat + 1 := by omega
    have hlast : 1969 - ((1970 - (year + 1)).toNat : Int) = year := by omega
    have hnone : (year + 1 - 1970).toNat = 0 ∧ (year - 1970).toNat = 0 := by omega
    rw [hcount, sum_range_succ, hlast, hnone.1, hnone.2]
    omega
  · have hcount : (year + 1 - 1970).toNat = (year - 1970).toNat + 1 := by omega
    have hlast : 1970 + ((year - 1970).toNat : Int) = year := by omega
    have hnone : (1970 - (year + 1)).toNat = 0 ∧ (1970 - year).toNat = 0 := by omega
    rw [hcount, sum_range_succ, hlast, hnone.1, hnone.2]
    omega

/-- The days from 1 March of year 0 to 1 March of a year: each fourth year has one day more, of the
    centuries each fourth. -/
def marchStart (year : Int) : Int := 365 * year + year / 4 - year / 100 + year / 400

/-- The leap day comes before the 1 March of its year. -/
theorem marchStart_pred_add (year : Int) :
    marchStart (year - 1) + yearLength year = marchStart year := by
  rw [yearLength_eq]
  unfold marchStart
  by_cases hleap : IsLeap year
  · rw [if_pos hleap]
    unfold IsLeap at hleap
    omega
  · rw [if_neg hleap]
    unfold IsLeap at hleap
    omega

/-- A year begins 306 days after 1 March of the year before. -/
theorem yearStart_eq (year : Int) : yearStart year = marchStart (year - 1) + 306 - 719468 := by
  induction year using Int.inductionOn' (b := 1970) with
  | zero => rw [yearStart_epoch]; rfl
  | succ year _ ih =>
    rw [yearStart_succ, ih, Int.add_sub_cancel, ← marchStart_pred_add year]
    omega
  | pred year _ ih =>
    have hstep := yearStart_succ (year - 1)
    rw [Int.sub_add_cancel, ih, ← marchStart_pred_add (year - 1)] at hstep
    omega

/-! ## Every count is that of a date -/

theorem monthLength_bounds (year : Int) (month : Nat) :
    28 ≤ monthLength year month ∧ monthLength year month ≤ 31 := by
  unfold monthLength
  split
  · split <;> decide
  all_goals decide

theorem monthLength_pos (year : Int) (month : Nat) : 1 ≤ monthLength year month :=
  Nat.le_trans (by decide) (monthLength_bounds year month).1

namespace Date

variable {date : Date}

theorem Valid.next (h : date.Valid) : date.next.Valid := by
  unfold Date.next
  split
  · next hday => exact ⟨h.month_pos, h.month_le, Nat.le_add_left 1 _, hday⟩
  · split
    · next hmonth => exact ⟨Nat.le_add_left 1 _, hmonth, Nat.le_refl 1, monthLength_pos _ _⟩
    · exact ⟨Nat.le_refl 1, (by decide : 1 ≤ 12), Nat.le_refl 1, monthLength_pos _ _⟩

theorem Valid.dayNumber_next (h : date.Valid) : date.next.dayNumber = date.dayNumber + 1 := by
  have hmonth := h.month_pos
  have hday := h.day_le
  unfold Date.next dayNumber
  split
  · dsimp only
    omega
  · split
    · dsimp only
      rw [daysBefore_succ _ hmonth]
      omega
    · have hle := h.month_le
      have hlast : date.month = 12 := by omega
      have hyear : yearLength date.year = daysBefore date.year 12 + monthLength date.year 12 :=
        daysBefore_succ _ (by decide)
      dsimp only
      rw [yearStart_succ, hyear, ← hlast, daysBefore_one]
      omega

/-- The same day of another cycle of 400 years. -/
def shift (date : Date) (cycles : Int) : Date := { date with year := date.year + 400 * cycles }

theorem monthLength_shift (year cycles : Int) (month : Nat) :
    monthLength (year + 400 * cycles) month = monthLength year month := by
  have hleap : IsLeap (year + 400 * cycles) ↔ IsLeap year := by
    unfold IsLeap
    omega
  unfold monthLength
  simp only [hleap]

theorem Valid.shift (h : date.Valid) (cycles : Int) : (date.shift cycles).Valid :=
  ⟨h.month_pos, h.month_le, h.day_pos, (monthLength_shift _ cycles _).symm ▸ h.day_le⟩

theorem dayNumber_shift (date : Date) (cycles : Int) :
    (date.shift cycles).dayNumber = date.dayNumber + 146097 * cycles := by
  unfold shift dayNumber daysBefore
  simp only [monthLength_shift, yearStart_eq, marchStart]
  omega

def epoch : Date := ⟨1970, 1, 1⟩

theorem valid_epoch : epoch.Valid := ⟨by decide, by decide, by decide, by decide⟩

theorem dayNumber_epoch : epoch.dayNumber = 0 := rfl

theorem exists_dayNumber_natCast (n : Nat) : ∃ date : Date, date.Valid ∧ date.dayNumber = n := by
  induction n with
  | zero => exact ⟨epoch, valid_epoch, dayNumber_epoch⟩
  | succ n ih =>
    obtain ⟨date, hvalid, hn⟩ := ih
    refine ⟨date.next, hvalid.next, ?_⟩
    rw [hvalid.dayNumber_next, hn, Int.natCast_succ]

/-- A count below 0 is that of a day of an earlier cycle. -/
theorem exists_dayNumber (n : Int) : ∃ date : Date, date.Valid ∧ date.dayNumber = n := by
  obtain ⟨date, hvalid, hdate⟩ := exists_dayNumber_natCast (n + 146097 * n.natAbs).toNat
  refine ⟨date.shift (-n.natAbs), hvalid.shift _, ?_⟩
  rw [dayNumber_shift, hdate]
  omega

end Date

/-! ## Years that begin in March -/

/-- The days of a year from March before a month, where March is month 0 and February month 11. -/
def marchMonthStart (month : Nat) : Nat := (153 * month + 2) / 5

def marchMonth (month : Nat) : Nat := (month + 9) % 12

/-- A year from March ends with the leap day of the year after it. -/
def InMarchYear (year : Int) (day : Nat) : Prop := day < 365 ∨ day = 365 ∧ IsLeap (year + 1)

/-- The date of a day of the year from 1 March of `year`. -/
def marchDate (year : Int) (day : Nat) : Date :=
  let marchMonth := (5 * day + 2) / 153
  let month := if marchMonth < 10 then marchMonth + 3 else marchMonth - 9
  { year := year + (if month ≤ 2 then 1 else 0)
    month
    day := day - marchMonthStart marchMonth + 1 }

theorem monthLength_february (year : Int) : monthLength year 2 + 337 = yearLength year := by
  rw [yearLength_eq, monthLength]
  split <;> rfl

theorem monthLength_other (year : Int) {month : Nat} (hpos : 1 ≤ month) (hle : month ≤ 12)
    (hother : month ≠ 2) : marchMonthStart (marchMonth month) + monthLength year month =
      marchMonthStart (marchMonth month + 1) := by
  interval_cases month <;> simp_all [monthLength, marchMonth, marchMonthStart]

theorem monthLength_le (year : Int) {month : Nat} (hpos : 1 ≤ month) (hle : month ≤ 12) :
    marchMonthStart (marchMonth month) + monthLength year month ≤
      marchMonthStart (marchMonth month + 1) := by
  by_cases hfebruary : month = 2
  · subst hfebruary
    rw [monthLength]
    split <;> decide
  · exact Nat.le_of_eq (monthLength_other year hpos hle hfebruary)

theorem daysBefore_eq (year : Int) {month : Nat} (hpos : 1 ≤ month) (hle : month ≤ 12) :
    daysBefore year month + 306 =
      marchMonthStart (marchMonth month) + (if month ≤ 2 then 0 else yearLength year) := by
  induction month, hpos using Nat.le_induction with
  | base =>
    rw [daysBefore_one, if_pos (by decide)]
    rfl
  | succ month hpos ih =>
    have hbefore := ih (Nat.le_of_succ_le hle)
    rw [daysBefore_succ year hpos]
    by_cases hfebruary : month = 2
    · -- The year from March begins anew.
      subst hfebruary
      have hend : marchMonthStart (marchMonth 2) = 337 := rfl
      have hbegin : marchMonthStart (marchMonth (2 + 1)) = 0 := rfl
      have hlength := monthLength_february year
      rw [if_pos (by decide)] at hbefore
      rw [if_neg (by decide)]
      omega
    · have hlength := monthLength_other year hpos (Nat.le_of_succ_le hle) hfebruary
      have hmonth : marchMonth (month + 1) = marchMonth month + 1 := by
        unfold marchMonth
        omega
      have hsame : (month + 1 ≤ 2) = (month ≤ 2) := by
        rw [eq_iff_iff]
        omega
      rw [hmonth]
      simp only [hsame]
      omega

namespace Date

def marchYear (date : Date) : Int := if date.month ≤ 2 then date.year - 1 else date.year

def marchDay (date : Date) : Nat := marchMonthStart (marchMonth date.month) + (date.day - 1)

namespace Valid

variable {date : Date} (h : date.Valid)

include h

theorem inMarchYear : InMarchYear date.marchYear date.marchDay := by
  have hday := h.day_pos
  have hroom := h.day_le
  unfold InMarchYear marchDay
  by_cases hfebruary : date.month = 2
  · have hyear : date.marchYear + 1 = date.year := by
      rw [marchYear, if_pos (Nat.le_of_eq hfebruary), Int.sub_add_cancel]
    have hlength := monthLength_february date.year
    have hmarch : marchMonthStart (marchMonth 2) = 337 := rfl
    rw [yearLength_eq] at hlength
    rw [hfebruary] at hroom
    rw [hyear, hfebruary, hmarch]
    split at hlength
    · next hleap =>
      have hbound : 337 + (date.day - 1) ≤ 365 := by omega
      rcases Nat.lt_or_eq_of_le hbound with hlt | heq
      · exact .inl hlt
      · exact .inr ⟨heq, hleap⟩
    · left
      omega
  · have hlength := monthLength_other date.year h.month_pos h.month_le hfebruary
    have hle := h.month_le
    have hmonth : marchMonth date.month + 1 ≤ 11 := by
      unfold marchMonth
      omega
    left
    unfold marchMonthStart at *
    omega

theorem dayNumber_eq : date.dayNumber + 719468 = marchStart date.marchYear + date.marchDay := by
  have hday := h.day_pos
  have hbefore := daysBefore_eq date.year h.month_pos h.month_le
  have hstart := marchStart_pred_add date.year
  unfold dayNumber marchYear marchDay
  rw [yearStart_eq]
  by_cases hearly : date.month ≤ 2
  · rw [if_pos hearly] at hbefore ⊢
    omega
  · rw [if_neg hearly] at hbefore ⊢
    omega

theorem marchDate_eq : marchDate date.marchYear date.marchDay = date := by
  have hlength := monthLength_le date.year h.month_pos h.month_le
  have hday := h.day_pos
  have hroom := h.day_le
  have hmonth : (5 * date.marchDay + 2) / 153 = marchMonth date.month := by
    unfold marchDay marchMonthStart at *
    omega
  have hback : (if marchMonth date.month < 10 then marchMonth date.month + 3
      else marchMonth date.month - 9) = date.month := by
    have hpos := h.month_pos
    have hle := h.month_le
    unfold marchMonth
    split <;> omega
  have hyear : date.marchYear + (if date.month ≤ 2 then 1 else 0) = date.year := by
    unfold marchYear
    split <;> omega
  have hdate : date.marchDay - marchMonthStart (marchMonth date.month) + 1 = date.day := by
    unfold marchDay
    omega
  unfold marchDate
  dsimp only
  rw [hmonth, hback, hyear, hdate]

end Valid

end Date

/-! ## The conversion -/

/-- The day of a cycle that is day `r` of the year `t` of the `q`-th four years of century `c`. The
    division by 1460 is off by one only at the end of four years, where the days of the year cover
    it. -/
theorem yearOfCycle_digits {c q t r n : Nat} (hc : c < 4) (hq : q < 25) (ht : t < 4)
    (hr : r < 365 ∨ r = 365 ∧ t = 3 ∧ (q < 24 ∨ c = 3))
    (hn : n = 36524 * c + 1461 * q + 365 * t + r) :
    (n - n / 1460 + n / 36524 - n / 146096) / 365 = 100 * c + 4 * q + t := by
  by_cases hlast : n = 146096
  · subst hlast
    omega
  · have hcentury : n / 36524 = c := by omega
    have hcycle : n / 146096 = 0 := by omega
    have hfour : n / 1460 = 25 * c + q + (24 * c + q + 365 * t + r) / 1460 := by omega
    have hoff : (24 * c + q + 365 * t + r) / 1460 ≤ r ∧
        r - (24 * c + q + 365 * t + r) / 1460 < 365 := by omega
    omega

theorem dateOfMarchDay_marchStart {year : Int} {day : Nat} (h : InMarchYear year day) :
    dateOfMarchDay (marchStart year + day) = marchDate year day := by
  obtain ⟨y, hy⟩ := Int.eq_ofNat_of_zero_le (Int.emod_nonneg year (by decide : (400 : Int) ≠ 0))
  have hyear : year = y + year / 400 * 400 := by omega
  have hlt : y < 400 := by omega
  generalize hn : 365 * y + y / 4 - y / 100 + day = n
  have hdays : marchStart year + day = n + 146097 * (year / 400) := by
    unfold marchStart
    omega
  unfold InMarchYear IsLeap at h
  have hfit : n < 146097 := by omega
  have hcycle : (marchStart year + day) / 146097 = year / 400 := by omega
  have hofCycle : ((marchStart year + day) % 146097).toNat = n := by omega
  have hyearOfCycle : (n - n / 1460 + n / 36524 - n / 146096) / 365 = y := by
    rw [yearOfCycle_digits (c := y / 100) (q := y % 100 / 4) (t := y % 4) (r := day)]
    all_goals omega
  have hofYear : n - (365 * y + y / 4 - y / 100) = day := by omega
  unfold dateOfMarchDay
  dsimp only
  rw [hofCycle, hcycle, hyearOfCycle, hofYear, ← hyear]
  rfl

theorem dateOfMarchDay_dayNumber {date : Date} (h : date.Valid) :
    dateOfMarchDay (date.dayNumber + 719468) = date := by
  rw [h.dayNumber_eq, dateOfMarchDay_marchStart h.inMarchYear, h.marchDate_eq]

/-- The count of a date gives the date. -/
theorem dateOfDay_dayNumber {days : Int64} (hfit : days.toInt + 719468 ≤ Int64.maxValue.toInt)
    {date : Date} (h : date.Valid) (hdays : date.dayNumber = days.toInt) :
    dateOfDay days = date := by
  have hsum : (days + 719468).toInt = days.toInt + 719468 := by
    have hlow := days.le_toInt
    have hmax : Int64.maxValue.toInt = 9223372036854775807 := rfl
    have hstart : (719468 : Int64).toInt = 719468 := rfl
    rw [Int64.toInt_add, hstart]
    apply Int.bmod_eq_of_le <;> omega
  rw [dateOfDay, hsum, ← hdays, dateOfMarchDay_dayNumber h]

/-! ## The serial number -/

/-- A text of two digits that shows a number. -/
structure TwoDigits (text : List Char) (n : Nat) : Prop where
  length : text.length = 2
  digits : text.all Char.isDigit = true
  shows : Nat.ofDigitChars 10 text 0 = n

theorem twoDigits_shows {n : Nat} (h : n < 100) : TwoDigits (twoDigits n).toList n := by
  have htens : n / 10 % 10 < 10 := Nat.mod_lt _ (by decide)
  have hones : n % 10 < 10 := Nat.mod_lt _ (by decide)
  have hzero : '0'.toNat = 48 := rfl
  unfold twoDigits
  rw [String.toList_ofList]
  refine ⟨rfl, ?_, ?_⟩
  · simp [Nat.isDigit_digitChar, htens, hones]
  · rw [Nat.ofDigitChars_cons, Nat.ofDigitChars_cons, Nat.ofDigitChars_nil, hzero,
      Nat.toNat_digitChar_sub_48_of_lt_ten htens, Nat.toNat_digitChar_sub_48_of_lt_ten hones]
    omega

/-- A count gives the one date of the calendar that is as many days from 1970-01-01, the next count
    gives the next date, and the serial shows the year within its century, the month and the day as
    two digits each. -/
theorem dates_follow_calendar (days : Int64) (hfit : days.toInt + 719468 ≤ Int64.maxValue.toInt) :
    (dateOfDay days).Valid ∧ (dateOfDay days).dayNumber = days.toInt ∧
    (∀ date : Date, date.Valid → date.dayNumber = days.toInt → date = dateOfDay days) ∧
    (∀ later : Int64, later.toInt = days.toInt + 1 → later.toInt + 719468 ≤ Int64.maxValue.toInt →
      dateOfDay later = (dateOfDay days).next) ∧
    ∃ year month day : List Char, (serialOfDay days).toList = year ++ month ++ day ∧
      TwoDigits year ((dateOfDay days).year % 100).toNat ∧
      TwoDigits month (dateOfDay days).month ∧ TwoDigits day (dateOfDay days).day := by
  obtain ⟨date, hvalid, hnumber⟩ := Date.exists_dayNumber days.toInt
  have hdate : dateOfDay days = date := dateOfDay_dayNumber hfit hvalid hnumber
  rw [hdate]
  refine ⟨hvalid, hnumber, ?_, ?_, ?_⟩
  · intro other hother hcount
    rw [← hdate, dateOfDay_dayNumber hfit hother hcount]
  · intro later hlater hlaterFit
    apply dateOfDay_dayNumber hlaterFit hvalid.next
    rw [hvalid.dayNumber_next, hnumber, hlater]
  · have hmonth := hvalid.month_le
    have hday := Nat.le_trans hvalid.day_le (monthLength_bounds _ _).2
    refine ⟨_, _, _, ?_, twoDigits_shows (by omega), twoDigits_shows (by omega),
      twoDigits_shows (by omega)⟩
    unfold serialOfDay
    dsimp only
    rw [hdate, String.toList_append, String.toList_append]

/-- The leap day of year 0 is the day before the first cycle. -/
theorem leapDay_follows_calendar :
    (-719469 : Int64).toInt + 719468 ≤ Int64.maxValue.toInt ∧ dateOfDay (-719469) = ⟨0, 2, 29⟩ ∧
    (⟨0, 2, 29⟩ : Date).Valid ∧ (⟨0, 2, 29⟩ : Date).dayNumber = -719469 ∧
    dateOfDay (-719468) = (⟨0, 2, 29⟩ : Date).next ∧ (⟨0, 2, 29⟩ : Date).next = ⟨0, 3, 1⟩ ∧
    serialOfDay (-719469) = "000229" := by
  have hfit : (-719469 : Int64).toInt + 719468 ≤ Int64.maxValue.toInt := by decide
  have hdate : dateOfDay (-719469) = ⟨0, 2, 29⟩ := by decide
  obtain ⟨hvalid, hnumber, -, hnext, -⟩ := dates_follow_calendar (-719469) hfit
  rw [hdate] at hvalid hnumber hnext
  exact ⟨hfit, hdate, hvalid, hnumber,
    hnext (-719468) (by decide) (by decide), by decide, by decide⟩

end ZAssembler.Calendar
