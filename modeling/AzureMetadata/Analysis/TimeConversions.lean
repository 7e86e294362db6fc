import AzureMetadata.Model.Timefn

/-!
# The three forms of a time

A valid date and time of the years 0000 to 9999 can be held in a `TimefnTime`, counted in
milliseconds and written as text, and `time_conversions_agree` says that the functions of
`src/timefn.c` take each form to the others.
-/

set_option autoImplicit false

namespace AzureMetadata.Analysis

open Clib AzureMetadata.Model

variable {t : TimefnTime}

/-- A date of the Gregorian calendar with a year of four digits, and a time of day. -/
structure ValidTime (t : TimefnTime) : Prop where
  year : t.year.toNat ≤ 9999
  month : 1 ≤ t.month.toNat ∧ t.month.toNat ≤ 12
  day : 1 ≤ t.day.toNat ∧ t.day.toNat ≤ monthLength (isLeap t.year.toNat) (t.month.toNat - 1)
  hour : t.hour.toNat < 24
  minute : t.minute.toNat < 60
  second : t.second.toNat < 60

/-- With `TZ` empty, local time is UTC. -/
def EmptyIsUtc (zoneOf : Option (List UInt8) → TimeZone) : Prop :=
  ∀ tm, (zoneOf (some [])).ahead tm = 0

/-- The time as `struct tm` has it. -/
def tmOf (t : TimefnTime) : Tm where
  tm_sec := t.second.toNat
  tm_min := t.minute.toNat
  tm_hour := t.hour.toNat
  tm_mday := t.day.toNat
  tm_mon := (t.month.toNat : ℤ) - 1
  tm_year := (t.year.toNat : ℤ) - 1900
  tm_isdst := 0

/-! ## Milliseconds -/

/-- `my_timegm` makes the zone that of an empty `TZ`, whatever the environment is. -/
theorem myTimegm_ahead (zoneOf : Option (List UInt8) → TimeZone) (tm : Tm) (env : TimeEnv) :
    (myTimegm zoneOf tm env).1 = timegm tm - (zoneOf (some [])).ahead tm := by
  cases htz : env.TZ with
  | some tz => simp only [myTimegm, mktime, tzset, htz]
  | none => simp only [myTimegm, mktime, tzset, htz]

/-- With the empty `TZ` as UTC, `my_timegm` is `timegm`. -/
theorem myTimegm_value {zoneOf : Option (List UInt8) → TimeZone} (hutc : EmptyIsUtc zoneOf)
    (tm : Tm) (env : TimeEnv) : (myTimegm zoneOf tm env).1 = timegm tm := by
  rw [myTimegm_ahead, hutc, Int.sub_zero]

/-- So the milliseconds are those of the broken-down time. -/
theorem getunixmillis_value {zoneOf : Option (List UInt8) → TimeZone} (hutc : EmptyIsUtc zoneOf)
    (junk : Tm) (year month day hour minute second : ℤ) (env : TimeEnv) :
    (timefnGetunixmillis zoneOf junk year month day hour minute second env).1 =
      toInt64 (timegm ⟨second, minute, hour, day, month - 1, year - 1900, 0⟩ * 1000) := by
  have hvalue := myTimegm_value hutc
    { junk with
      tm_year := year - 1900
      tm_mon := month - 1
      tm_mday := day
      tm_hour := hour
      tm_min := minute
      tm_sec := second } env
  simp only [timefnGetunixmillis, hvalue]
  rfl

/-- And those of the structure. -/
theorem getunixmillisfromtimestruct_value {zoneOf : Option (List UInt8) → TimeZone}
    (hutc : EmptyIsUtc zoneOf) (junk : Tm) (t : TimefnTime) (env : TimeEnv) :
    (timefnGetunixmillisfromtimestruct zoneOf junk t env).1 =
      toInt64 (timegm (tmOf t) * 1000) :=
  getunixmillis_value hutc junk t.year.toNat t.month.toNat t.day.toNat t.hour.toNat
    t.minute.toNat t.second.toNat env

/-- A valid time is a valid broken-down time. -/
theorem ValidTime.valid (ht : ValidTime t) : (tmOf t).Valid := by
  obtain ⟨hyear, hmonth, hday, hhour, hminute, hsecond⟩ := ht
  have hshift : (1900 : ℤ) + ((t.year.toNat : ℤ) - 1900) = t.year.toNat := by omega
  have hindex : ((t.month.toNat : ℤ) - 1).toNat = t.month.toNat - 1 := by omega
  constructor
  · simp only [tmOf]
    omega
  · simp only [tmOf, hshift, hindex]
    omega
  · simp only [tmOf]
    omega
  · simp only [tmOf]
    omega
  · simp only [tmOf]
    omega

/-- The years 0 to 9999 have 3652425 days. -/
theorem ValidTime.seconds_bounds (ht : ValidTime t) :
    -719528 * 86400 ≤ timegm (tmOf t) ∧ timegm (tmOf t) < 2932897 * 86400 := by
  have hvalid := ht.valid
  obtain ⟨hyear, hmonth, hday, hhour, hminute, hsecond⟩ := ht
  have hindex : ((t.month.toNat : ℤ) - 1).toNat = t.month.toNat - 1 := by omega
  have hcarry : (1900 : ℤ) + ((t.year.toNat : ℤ) - 1900) + ((t.month.toNat : ℤ) - 1) / 12 =
      t.year.toNat := by omega
  have hmod : (((t.month.toNat : ℤ) - 1) % 12).toNat = t.month.toNat - 1 := by omega
  have hlength := day_lt_year (isLeap t.year.toNat) (t.month.toNat - 1) (by omega)
  have hfirst := daysBeforeYear_mono (by omega : (0 : ℤ) ≤ t.year.toNat)
  have hlast := daysBeforeYear_mono (by omega : (t.year.toNat : ℤ) + 1 ≤ 10000)
  have hzero : daysBeforeYear 0 = 0 := rfl
  have hmax : daysBeforeYear 10000 = 3652425 := rfl
  rw [hzero] at hfirst
  rw [daysBeforeYear_succ, hmax] at hlast
  simp only [timegm, tmOf, hcarry, hmod, epochDay]
  omega

/-- The milliseconds of a valid time are its seconds with three zeros; nothing is lost. -/
theorem ValidTime.toInt64_millis (ht : ValidTime t) :
    toInt64 (timegm (tmOf t) * 1000) = timegm (tmOf t) * 1000 := by
  have hbounds := ht.seconds_bounds
  unfold toInt64
  apply Int.bmod_eq_of_le
  · omega
  · omega

/-- A field of 16 bits comes back from `int` as it was. -/
theorem ofInt_toNat (n : UInt16) : UInt16.ofInt (n.toNat : ℤ) = n := by
  have hlt := n.toNat_lt
  have hmod : ((n.toNat : ℤ) % 2 ^ 16).toNat = n.toNat := by omega
  rw [UInt16.ofInt, hmod, UInt16.ofNat_toNat]

/-- A time before 1970 has a negative count, which the division by 1000 gives back because
nothing is left over. -/
theorem gettimefromunixtimemillis_millis (ht : ValidTime t) :
    timefnGettimefromunixtimemillis (timegm (tmOf t) * 1000) = t := by
  have hdiv : (timegm (tmOf t) * 1000).tdiv 1000 = timegm (tmOf t) :=
    Int.mul_tdiv_cancel _ (by decide)
  have hmonth : (t.month.toNat : ℤ) - 1 + 1 = t.month.toNat := by omega
  have hyear : (t.year.toNat : ℤ) - 1900 + 1900 = t.year.toNat := by omega
  simp only [timefnGettimefromunixtimemillis, hdiv, gmtimeR_timegm ht.valid]
  simp only [tmOf, hmonth, hyear, ofInt_toNat]

/-! ## Text -/

/-- Every number fits in its field. -/
theorem ValidTime.fits (ht : ValidTime t) : t.year.toNat < 10 ^ 4 ∧ t.month.toNat < 10 ^ 2 ∧
    t.day.toNat < 10 ^ 2 ∧ t.hour.toNat < 10 ^ 2 ∧ t.minute.toNat < 10 ^ 2 ∧
    t.second.toNat < 10 ^ 2 := by
  obtain ⟨hyear, hmonth, hday, hhour, hminute, hsecond⟩ := ht
  have hlength := monthLength_le (isLeap t.year.toNat) (t.month.toNat - 1) (by omega)
  omega

/-- The text of a valid time has 19 characters. -/
theorem ValidTime.length_timeText (ht : ValidTime t) : (timeText t).length = 19 := by
  obtain ⟨hyear, hmonth, hday, hhour, hminute, hsecond⟩ := ht.fits
  have hfour : 0 < 4 := by omega
  have htwo : 0 < 2 := by omega
  have hT : (ascii "T").length = 1 := rfl
  simp only [timeText, List.length_append, List.length_singleton, hT,
    length_printPadded hfour hyear, length_printPadded htwo hmonth, length_printPadded htwo hday,
    length_printPadded htwo hhour, length_printPadded htwo hminute,
    length_printPadded htwo hsecond]

/-- None of them is NUL. -/
theorem zero_notMem_timeText (t : TimefnTime) : 0 ∉ timeText t := by
  have hT : ascii "T" = [84] := rfl
  simp [timeText, hT, zero_notMem_printPadded]

/-- The string that is written. -/
def timeString (ht : ValidTime t) : CString where
  bytes := timeText t
  noNul := zero_notMem_timeText t
  length_lt := by
    rw [ht.length_timeText]
    unfold ptrdiffMax
    omega

/-- The 20 bytes hold the text and its NUL. -/
theorem formattimefromdatetimestruct_inplace_whole (ht : ValidTime t) :
    timefnFormattimefromdatetimestructInplace t = timeText t ++ [0] := by
  have hlength := ht.length_timeText
  apply snprintf_whole
  omega

/-- `sscanf` finds the numbers, and the `T` between date and time. -/
theorem sscanf_timeText (ht : ValidTime t) : sscanf scanFormat (timeText t) =
    [(t.year.toNat : ℤ), t.month.toNat, t.day.toNat, 84, t.hour.toNat, t.minute.toNat,
      t.second.toNat] := by
  obtain ⟨hyear, hmonth, hday, hhour, hminute, hsecond⟩ := ht.fits
  have hfour : 0 < 4 := by omega
  have htwo : 0 < 2 := by omega
  have hT : ascii "T" = [84] := rfl
  rw [timeText, ← List.append_nil (printPadded 2 t.second.toNat), hT]
  simp only [scanFormat, List.append_assoc, List.cons_append, List.nil_append]
  rw [sscanf_padded _ _ hfour hyear, sscanf_literal, sscanf_padded _ _ htwo hmonth,
    sscanf_literal, sscanf_padded _ _ htwo hday, sscanf_char, sscanf_padded _ _ htwo hhour,
    sscanf_literal, sscanf_padded _ _ htwo hminute, sscanf_literal,
    sscanf_padded _ _ htwo hsecond]
  rfl

/-- The text is parsed as the time. -/
theorem parsetimetomillis_timeString {zoneOf : Option (List UInt8) → TimeZone}
    (hutc : EmptyIsUtc zoneOf) (ht : ValidTime t) (junk : Tm) (locals : ParseLocals)
    (env : TimeEnv) : (timefnParsetimetomillis zoneOf junk locals (timeString ht) env).1 =
      toInt64 (timegm (tmOf t) * 1000) := by
  have hscan := sscanf_timeText ht
  have hbytes : (timeString ht).bytes = timeText t := rfl
  rw [timefnParsetimetomillis, hbytes, hscan]
  exact getunixmillis_value hutc junk t.year.toNat t.month.toNat t.day.toNat t.hour.toNat
    t.minute.toNat t.second.toNat env

/-! ## The three forms agree -/

/-- **Struct, count and text.**  The count of a valid time is the one that parsing its text
gives; that time is got back from the count, and that text is written for it.  The zone in
use and what the uninitialised locals hold make no difference. -/
theorem time_conversions_agree {zoneOf : Option (List UInt8) → TimeZone}
    (hutc : EmptyIsUtc zoneOf) {t : TimefnTime} (ht : ValidTime t) (junk junk' : Tm)
    (locals : ParseLocals) (env env' : TimeEnv) :
    let millis := (timefnGetunixmillisfromtimestruct zoneOf junk t env).1
    (∃ text : CString, timefnFormattimefromdatetimestructInplace t = text.bytes ++ [0] ∧
      (timefnParsetimetomillis zoneOf junk' locals text env').1 = millis) ∧
    timefnGettimefromunixtimemillis millis = t ∧
    timefnFormattimefrommillis millis = timefnFormattimefromdatetimestructInplace t := by
  intro millis
  have hmillis : millis = timegm (tmOf t) * 1000 := by
    rw [← ht.toInt64_millis]
    exact getunixmillisfromtimestruct_value hutc junk t env
  have hback : timefnGettimefromunixtimemillis millis = t := by
    rw [hmillis]
    exact gettimefromunixtimemillis_millis ht
  constructor
  · use timeString ht
    constructor
    · exact formattimefromdatetimestruct_inplace_whole ht
    · rw [parsetimetomillis_timeString hutc ht, hmillis]
      exact ht.toInt64_millis
  · constructor
    · exact hback
    · rw [timefnFormattimefrommillis, hback]

/-- The zones of a system that is an hour ahead of UTC where `TZ` does not say otherwise. -/
def hourAhead (TZ : Option (List UInt8)) : TimeZone where
  ahead _ := if TZ = some [] then 0 else 3600

/-- The end of a leap day before 1970. -/
def leapDay : TimefnTime := ⟨1600, 2, 29, 23, 59, 59⟩

/-- The last day of February 1600, a second before midnight. -/
theorem time_conversions_agree_leapDay :
    (∃ text : CString, timefnFormattimefromdatetimestructInplace leapDay = text.bytes ++ [0] ∧
      (timefnParsetimetomillis hourAhead (gmtimeR 1) ⟨0, 0, 0, 0, 0, 0⟩ text
        ⟨none, hourAhead none⟩).1 = -11670912001000) ∧
    timefnGettimefromunixtimemillis (-11670912001000) = leapDay ∧
    timefnFormattimefrommillis (-11670912001000) = ascii "1600-02-29T23:59:59" ++ [0] := by
  have hutc : EmptyIsUtc hourAhead := by
    intro tm
    rfl
  have hvalid : ValidTime leapDay := by
    constructor <;> decide
  have hagree := time_conversions_agree hutc hvalid (gmtimeR 0) (gmtimeR 1) ⟨0, 0, 0, 0, 0, 0⟩
    ⟨none, hourAhead none⟩ ⟨none, hourAhead none⟩
  have hmillis : (timefnGetunixmillisfromtimestruct hourAhead (gmtimeR 0) leapDay
      ⟨none, hourAhead none⟩).1 = -11670912001000 := by decide +kernel
  have htext : timefnFormattimefromdatetimestructInplace leapDay =
      ascii "1600-02-29T23:59:59" ++ [0] := by decide +kernel
  simp only [hmillis] at hagree
  rw [← htext]
  exact hagree

end AzureMetadata.Analysis
