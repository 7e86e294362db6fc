import Mathlib.Algebra.Order.Group.Int

/-!
# The calendar of `time.h`

The proleptic Gregorian calendar with a year 0, in which every day has 86400 seconds.
`timegm` is the number of seconds that POSIX gives a broken-down time in UTC, with
divisions that round down; months and the other fields out of their range carry over, as
`mktime` lets them.  `gmtimeR` goes back, and `gmtimeR_timegm` says that on a valid date and
time it does.

A `TimeZone` is what `mktime` needs to know of one.  The zone in use is not the one the
environment variable `TZ` names until `tzset` is called, and `mktime` calls it.
-/

set_option autoImplicit false

namespace Clib

/-! ## Years and months -/

def isLeap (year : ℤ) : Bool := year % 4 = 0 ∧ (year % 100 ≠ 0 ∨ year % 400 = 0)

/-- The days from the first day of year 0 to that of `year`: 365 for each year, and one for
each leap year. -/
def daysBeforeYear (year : ℤ) : ℤ :=
  365 * year + (year + 3) / 4 - (year + 99) / 100 + (year + 399) / 400

def yearLength (leap : Bool) : ℕ := if leap then 366 else 365

/-- The lengths of the months. -/
def monthLengths (leap : Bool) : List ℕ :=
  [31, if leap then 29 else 28, 31, 30, 31, 30, 31, 31, 30, 31, 30, 31]

def monthLength (leap : Bool) (month : ℕ) : ℕ := (monthLengths leap).getD month 0

/-- The days of the year before a month, the first month being 0. -/
def daysBeforeMonth (leap : Bool) (month : ℕ) : ℕ :=
  ((monthLengths leap).take month).foldl (· + ·) 0

/-- The year that has the day with that number, found from the mean length of a year. -/
def yearOf (day : ℤ) : ℤ :=
  let year := day * 400 / 146097
  if day < daysBeforeYear year then year - 1
  else if day < daysBeforeYear (year + 1) then year
  else year + 1

/-- The month that has that day of the year, the first day being 0. -/
def monthOf (leap : Bool) (yday : ℕ) : ℕ :=
  (List.range 11).countP fun month => daysBeforeMonth leap (month + 1) ≤ yday

/-- From the start of a year to the next there are the days of that year. -/
theorem daysBeforeYear_succ (year : ℤ) :
    daysBeforeYear (year + 1) = daysBeforeYear year + yearLength (isLeap year) := by
  unfold daysBeforeYear yearLength isLeap
  simp only [decide_eq_true_eq]
  split <;> omega

/-- A later year starts on no earlier day. -/
theorem daysBeforeYear_mono {y y' : ℤ} (h : y ≤ y') : daysBeforeYear y ≤ daysBeforeYear y' := by
  unfold daysBeforeYear
  omega

/-- Year 0 to `year` are at most three days from as many mean years. -/
theorem daysBeforeYear_near (year : ℤ) :
    146097 * year - 400 ≤ 400 * daysBeforeYear year ∧
      400 * daysBeforeYear year ≤ 146097 * year + 700 := by
  unfold daysBeforeYear
  omega

/-- A day lies in its year. -/
theorem yearOf_spec (day : ℤ) :
    daysBeforeYear (yearOf day) ≤ day ∧ day < daysBeforeYear (yearOf day + 1) := by
  have hquot : 146097 * (day * 400 / 146097) ≤ 400 * day ∧
      400 * day < 146097 * (day * 400 / 146097 + 1) := by omega
  have hbefore := daysBeforeYear_near (day * 400 / 146097 - 1)
  have hafter := daysBeforeYear_near (day * 400 / 146097 + 1 + 1)
  unfold yearOf
  dsimp only
  split
  · rw [Int.sub_add_cancel]
    omega
  · split
    · omega
    · omega

/-- Only that year holds the day. -/
theorem yearOf_eq {day year : ℤ} (hle : daysBeforeYear year ≤ day)
    (hlt : day < daysBeforeYear (year + 1)) : yearOf day = year := by
  obtain ⟨hle', hlt'⟩ := yearOf_spec day
  by_contra hne
  cases lt_or_gt_of_ne hne with
  | inl hless =>
      have := daysBeforeYear_mono (by omega : yearOf day + 1 ≤ year)
      omega
  | inr hmore =>
      have := daysBeforeYear_mono (by omega : year + 1 ≤ yearOf day)
      omega

/-! The lengths of the months, checked for both kinds of year. -/

/-- What is checked for every day of both years, in one evaluation. -/
theorem months_checked : ∀ leap,
    (∀ yday < yearLength leap, monthOf leap yday < 12 ∧
      daysBeforeMonth leap (monthOf leap yday) ≤ yday ∧
      yday < daysBeforeMonth leap (monthOf leap yday) + monthLength leap (monthOf leap yday)) ∧
    (∀ month < 12, ∀ day < monthLength leap month,
      monthOf leap (daysBeforeMonth leap month + day) = month) ∧
    ∀ month' < 12, ∀ month < month',
      daysBeforeMonth leap month + monthLength leap month ≤ daysBeforeMonth leap month' := by
  decide +kernel

/-- A day of the year lies in its month, which is one of twelve. -/
theorem monthOf_spec (leap : Bool) : ∀ yday < yearLength leap, monthOf leap yday < 12 ∧
    daysBeforeMonth leap (monthOf leap yday) ≤ yday ∧
    yday < daysBeforeMonth leap (monthOf leap yday) + monthLength leap (monthOf leap yday) :=
  (months_checked leap).1

/-- Every day of a month has that month. -/
theorem monthOf_eq (leap : Bool) : ∀ month < 12, ∀ day < monthLength leap month,
    monthOf leap (daysBeforeMonth leap month + day) = month :=
  (months_checked leap).2.1

/-- A month is over before a later one starts. -/
theorem daysBeforeMonth_next (leap : Bool) : ∀ month' < 12, ∀ month < month',
    daysBeforeMonth leap month + monthLength leap month ≤ daysBeforeMonth leap month' :=
  (months_checked leap).2.2

/-- No month goes beyond the end of the year. -/
theorem day_lt_year : ∀ leap, ∀ month < 12,
    daysBeforeMonth leap month + monthLength leap month ≤ yearLength leap := by
  decide

/-- No month has more than 31 days. -/
theorem monthLength_le : ∀ leap, ∀ month < 12, monthLength leap month ≤ 31 := by
  decide

/-! ## Broken-down time -/

/-- `struct tm`, without the two fields that `mktime` does not read. -/
@[ext]
structure Tm where
  tm_sec : ℤ
  tm_min : ℤ
  tm_hour : ℤ
  tm_mday : ℤ
  tm_mon : ℤ
  tm_year : ℤ
  tm_isdst : ℤ
deriving DecidableEq

/-- The number of 1 January 1970, from which seconds count. -/
def epochDay : ℤ := 719528

/-- The seconds since the epoch of a time in UTC. -/
def timegm (tm : Tm) : ℤ :=
  let year := 1900 + tm.tm_year + tm.tm_mon / 12
  let month := (tm.tm_mon % 12).toNat
  let day := daysBeforeYear year + daysBeforeMonth (isLeap year) month + (tm.tm_mday - 1)
  (day - epochDay) * 86400 + tm.tm_hour * 3600 + tm.tm_min * 60 + tm.tm_sec

/-- `gmtime_r`: the time in UTC of some seconds since the epoch. -/
def gmtimeR (seconds : ℤ) : Tm :=
  let day := seconds / 86400 + epochDay
  let second := seconds % 86400
  let year := yearOf day
  let yday := (day - daysBeforeYear year).toNat
  let month := monthOf (isLeap year) yday
  { tm_sec := second % 60
    tm_min := second / 60 % 60
    tm_hour := second / 3600
    tm_mday := yday - daysBeforeMonth (isLeap year) month + 1
    tm_mon := month
    tm_year := year - 1900
    tm_isdst := 0 }

/-- A date of the calendar and a time of day. -/
structure Tm.Valid (tm : Tm) : Prop where
  mon : 0 ≤ tm.tm_mon ∧ tm.tm_mon < 12
  mday : 1 ≤ tm.tm_mday ∧ tm.tm_mday ≤ monthLength (isLeap (1900 + tm.tm_year)) tm.tm_mon.toNat
  hour : 0 ≤ tm.tm_hour ∧ tm.tm_hour < 24
  min : 0 ≤ tm.tm_min ∧ tm.tm_min < 60
  sec : 0 ≤ tm.tm_sec ∧ tm.tm_sec < 60

/-! ## Time zones -/

/-- How many seconds a local time is ahead of UTC. -/
structure TimeZone where
  ahead : Tm → ℤ

/-- The variable `TZ`, and the zone in use. -/
structure TimeEnv where
  TZ : Option (List UInt8)
  zone : TimeZone

section Zones

variable (zoneOf : Option (List UInt8) → TimeZone)

def tzset (env : TimeEnv) : TimeEnv := { env with zone := zoneOf env.TZ }

/-- `mktime`; of what it changes in `tm` nothing is used. -/
def mktime (tm : Tm) (env : TimeEnv) : ℤ × TimeEnv :=
  let env := tzset zoneOf env
  (timegm tm - env.zone.ahead tm, env)

end Zones

/-! ## There and back -/

/-- The date and time of a second of a day of the calendar. -/
theorem gmtimeR_of_day (year : ℤ) {month day : ℕ} {second : ℤ} (hmonth : month < 12)
    (hday : day < monthLength (isLeap year) month) (hpos : 0 ≤ second) (hsecond : second < 86400) :
    gmtimeR ((daysBeforeYear year + daysBeforeMonth (isLeap year) month + day - epochDay) * 86400 +
      second) = ⟨second % 60, second / 60 % 60, second / 3600, day + 1, month, year - 1900, 0⟩ := by
  have hyear := day_lt_year (isLeap year) month hmonth
  have hnext := daysBeforeYear_succ year
  have hquot : ∀ n : ℤ, ((n - epochDay) * 86400 + second) / 86400 + epochDay = n := by
    intro n
    omega
  have hrem : ∀ n : ℤ, ((n - epochDay) * 86400 + second) % 86400 = second := by
    intro n
    omega
  have hyearOf :
      yearOf (daysBeforeYear year + daysBeforeMonth (isLeap year) month + day) = year := by
    apply yearOf_eq
    · omega
    · omega
  have hyday : (daysBeforeYear year + daysBeforeMonth (isLeap year) month + day -
      daysBeforeYear year).toNat = daysBeforeMonth (isLeap year) month + day := by omega
  have hmonthOf := monthOf_eq (isLeap year) month hmonth day hday
  simp only [gmtimeR, hquot, hrem, hyearOf, hyday, hmonthOf, Tm.mk.injEq, true_and, and_true]
  omega

/-- The seconds of a valid time: nothing is carried over. -/
theorem Tm.Valid.timegm_eq {tm : Tm} (h : tm.Valid) :
    timegm tm = (daysBeforeYear (1900 + tm.tm_year) +
      daysBeforeMonth (isLeap (1900 + tm.tm_year)) tm.tm_mon.toNat + (tm.tm_mday - 1) -
        epochDay) * 86400 + (tm.tm_hour * 3600 + tm.tm_min * 60 + tm.tm_sec) := by
  obtain ⟨hmon, hmon'⟩ := h.mon
  have hcarry : 1900 + tm.tm_year + tm.tm_mon / 12 = 1900 + tm.tm_year := by omega
  have hmonth : (tm.tm_mon % 12).toNat = tm.tm_mon.toNat := by omega
  simp only [timegm, hcarry, hmonth]
  omega

/-- **Back from seconds to a time.**  A valid date and time in UTC is what it was. -/
theorem gmtimeR_timegm {tm : Tm} (h : tm.Valid) :
    gmtimeR (timegm tm) = { tm with tm_isdst := 0 } := by
  have hsum := h.timegm_eq
  obtain ⟨⟨hmon, hmon'⟩, ⟨hmday, hmday'⟩, ⟨hhour, hhour'⟩, ⟨hmin, hmin'⟩, ⟨hsec, hsec'⟩⟩ := h
  have hday : ((tm.tm_mday - 1).toNat : ℤ) = tm.tm_mday - 1 := by omega
  have hdaylt : (tm.tm_mday - 1).toNat <
      monthLength (isLeap (1900 + tm.tm_year)) tm.tm_mon.toNat := by omega
  have hsecond : 0 ≤ tm.tm_hour * 3600 + tm.tm_min * 60 + tm.tm_sec ∧
      tm.tm_hour * 3600 + tm.tm_min * 60 + tm.tm_sec < 86400 := by omega
  have hback := gmtimeR_of_day (1900 + tm.tm_year) (by omega) hdaylt hsecond.1 hsecond.2
  rw [hday] at hback
  rw [hsum, hback, Tm.mk.injEq]
  omega

/-- The day of the year that a number of a day is. -/
theorem yday_lt (day : ℤ) : (day - daysBeforeYear (yearOf day)).toNat <
    yearLength (isLeap (yearOf day)) := by
  have hyear := yearOf_spec day
  rw [daysBeforeYear_succ] at hyear
  omega

/-- The fields of a broken-down time are in their ranges. -/
theorem gmtimeR_valid (seconds : ℤ) : (gmtimeR seconds).Valid := by
  obtain ⟨hmonth, hle, hlt⟩ := monthOf_spec _ _ (yday_lt (seconds / 86400 + epochDay))
  have hyear : 1900 + (yearOf (seconds / 86400 + epochDay) - 1900) =
      yearOf (seconds / 86400 + epochDay) := by omega
  constructor
  · simp only [gmtimeR]
    omega
  · simp only [gmtimeR, hyear, Int.toNat_natCast]
    omega
  · simp only [gmtimeR]
    omega
  · simp only [gmtimeR]
    omega
  · simp only [gmtimeR]
    omega

/-- **From seconds to a time and back.**  Every number of seconds is that of its time. -/
theorem timegm_gmtimeR (seconds : ℤ) : timegm (gmtimeR seconds) = seconds := by
  obtain ⟨hmonth, hle, hlt⟩ := monthOf_spec _ _ (yday_lt (seconds / 86400 + epochDay))
  have hspec := yearOf_spec (seconds / 86400 + epochDay)
  have hmonth12 : ∀ m : ℕ, m < 12 → (m : ℤ) / 12 = 0 ∧ ((m : ℤ) % 12).toNat = m := by
    intro m hm
    omega
  obtain ⟨hquot, hrem⟩ := hmonth12 _ hmonth
  have hyear : 1900 + (yearOf (seconds / 86400 + epochDay) - 1900) + 0 =
      yearOf (seconds / 86400 + epochDay) := by omega
  simp only [timegm, gmtimeR, hquot, hrem, hyear]
  omega

/-! ## The order of times -/

/-- The first field that is not the same, from the year on, is less. -/
def Tm.Before (tm tm' : Tm) : Prop :=
  tm.tm_year < tm'.tm_year ∨ tm.tm_year = tm'.tm_year ∧
    (tm.tm_mon < tm'.tm_mon ∨ tm.tm_mon = tm'.tm_mon ∧
      (tm.tm_mday < tm'.tm_mday ∨ tm.tm_mday = tm'.tm_mday ∧
        (tm.tm_hour < tm'.tm_hour ∨ tm.tm_hour = tm'.tm_hour ∧
          (tm.tm_min < tm'.tm_min ∨ tm.tm_min = tm'.tm_min ∧ tm.tm_sec < tm'.tm_sec))))

/-- The day of a valid time is one of its year. -/
theorem Tm.Valid.day_bounds {tm : Tm} (h : tm.Valid) :
    1 ≤ daysBeforeMonth (isLeap (1900 + tm.tm_year)) tm.tm_mon.toNat + tm.tm_mday ∧
      daysBeforeYear (1900 + tm.tm_year) +
        daysBeforeMonth (isLeap (1900 + tm.tm_year)) tm.tm_mon.toNat + tm.tm_mday ≤
          daysBeforeYear (1900 + tm.tm_year + 1) := by
  have hmon := h.mon
  have hmday := h.mday
  have hlast := day_lt_year (isLeap (1900 + tm.tm_year)) tm.tm_mon.toNat (by omega)
  rw [daysBeforeYear_succ]
  omega

/-- An earlier time has fewer seconds. -/
theorem timegm_lt {tm tm' : Tm} (h : tm.Valid) (h' : tm'.Valid) (hbefore : tm.Before tm') :
    timegm tm < timegm tm' := by
  have hday := h.day_bounds
  have hday' := h'.day_bounds
  rw [h.timegm_eq, h'.timegm_eq]
  obtain ⟨hmon, hmday, hhour, hmin, hsec⟩ := h
  obtain ⟨hmon', hmday', hhour', hmin', hsec'⟩ := h'
  cases hbefore with
  | inl hyear =>
      have hyears := daysBeforeYear_mono (by omega : 1900 + tm.tm_year + 1 ≤ 1900 + tm'.tm_year)
      omega
  | inr hrest =>
      obtain ⟨hyear, hrest⟩ := hrest
      rw [hyear] at hday hmday ⊢
      cases hrest with
      | inl hmonth =>
          have hmonths := daysBeforeMonth_next (isLeap (1900 + tm'.tm_year)) tm'.tm_mon.toNat
            (by omega) tm.tm_mon.toNat (by omega)
          omega
      | inr hrest =>
          obtain ⟨hmonth, hrest⟩ := hrest
          rw [hmonth]
          omega

/-- Later seconds are those of a later time. -/
theorem gmtimeR_before {seconds seconds' : ℤ} (h : seconds < seconds') :
    (gmtimeR seconds).Before (gmtimeR seconds') := by
  have hvalid := gmtimeR_valid seconds
  have hvalid' := gmtimeR_valid seconds'
  have hsum := timegm_gmtimeR seconds
  have hsum' := timegm_gmtimeR seconds'
  by_contra hno
  by_cases hsame : gmtimeR seconds = gmtimeR seconds'
  · rw [hsame] at hsum
    omega
  · have hdst : (gmtimeR seconds).tm_isdst = (gmtimeR seconds').tm_isdst := rfl
    have hafter : (gmtimeR seconds').Before (gmtimeR seconds) := by
      rw [Tm.ext_iff] at hsame
      unfold Tm.Before at hno ⊢
      omega
    have hlt := timegm_lt hvalid' hvalid hafter
    omega

end Clib
