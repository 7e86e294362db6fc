import AzureMetadata.Analysis.TimeConversions

/-!
# The time of a count of milliseconds

`timefn_gettimefromunixtimemillis` divides by 1000 as C does, towards 0.  The time it gives
for a count is that of the quotient, so before 1970 it is late by up to a second, and the
thousand counts on either side of the epoch have the same time.  The text of the time
keeps the order of the counts all the same.
-/

set_option autoImplicit false

namespace AzureMetadata.Analysis

open Clib AzureMetadata.Model

variable {ms : ℤ}

/-- The instant is in the years 0000 to 9999. -/
def InYears (ms : ℤ) : Prop :=
  0 ≤ 1900 + (gmtimeR (ms / 1000)).tm_year ∧ 1900 + (gmtimeR (ms / 1000)).tm_year ≤ 9999

/-- The years 0 to 9999 in seconds. -/
theorem year_bounds (seconds : ℤ) :
    (0 ≤ 1900 + (gmtimeR seconds).tm_year ∧ 1900 + (gmtimeR seconds).tm_year ≤ 9999) ↔
      -719528 * 86400 ≤ seconds ∧ seconds < 2932897 * 86400 := by
  have hspec := yearOf_spec (seconds / 86400 + epochDay)
  have hyear : 1900 + (gmtimeR seconds).tm_year = yearOf (seconds / 86400 + epochDay) := by
    simp only [gmtimeR]
    omega
  have hzero : daysBeforeYear 0 = 0 := rfl
  have hmax : daysBeforeYear 10000 = 3652425 := rfl
  rw [hyear]
  unfold epochDay at hspec ⊢
  constructor
  · rintro ⟨hfirst, hlast⟩
    have hle := daysBeforeYear_mono hfirst
    have hge := daysBeforeYear_mono
      (by omega : yearOf (seconds / 86400 + 719528) + 1 ≤ 10000)
    omega
  · rintro ⟨hfirst, hlast⟩
    constructor
    · by_contra hneg
      have hle := daysBeforeYear_mono
        (by omega : yearOf (seconds / 86400 + 719528) + 1 ≤ 0)
      omega
    · by_contra hbig
      have hge := daysBeforeYear_mono
        (by omega : 10000 ≤ yearOf (seconds / 86400 + 719528))
      omega

/-- The quotient is a second of these years too. -/
theorem InYears.quotient (h : InYears ms) :
    -719528 * 86400 ≤ ms.tdiv 1000 ∧ ms.tdiv 1000 < 2932897 * 86400 := by
  have hbounds := (year_bounds (ms / 1000)).mp h
  rw [Int.tdiv_eq_ediv]
  split
  · omega
  · simp only [Int.sign]
    omega

/-- A number of 16 bits fits its field. -/
theorem toNat_ofInt {n : ℤ} (hn : 0 ≤ n ∧ n < 2 ^ 16) : ((UInt16.ofInt n).toNat : ℤ) = n := by
  rw [UInt16.ofInt, UInt16.toNat_ofNat']
  omega

/-- The fields are those that `gmtime_r` gives for the quotient. -/
theorem tmOf_gettime (h : InYears ms) :
    tmOf (timefnGettimefromunixtimemillis ms) = gmtimeR (ms.tdiv 1000) := by
  have hyear := (year_bounds (ms.tdiv 1000)).mpr h.quotient
  obtain ⟨hmon, hmday, hhour, hmin, hsec⟩ := gmtimeR_valid (ms.tdiv 1000)
  have hlength := monthLength_le (isLeap (1900 + (gmtimeR (ms.tdiv 1000)).tm_year))
    (gmtimeR (ms.tdiv 1000)).tm_mon.toNat (by omega)
  have hdst : (gmtimeR (ms.tdiv 1000)).tm_isdst = 0 := rfl
  rw [Tm.ext_iff]
  simp only [tmOf, timefnGettimefromunixtimemillis]
  rw [toNat_ofInt (by omega), toNat_ofInt (by omega), toNat_ofInt (by omega),
    toNat_ofInt (by omega), toNat_ofInt (by omega), toNat_ofInt (by omega)]
  omega

/-- A valid broken-down time of those years is a valid time. -/
theorem validTime_of_valid {t : TimefnTime} (h : (tmOf t).Valid) (hyear : t.year.toNat ≤ 9999) :
    ValidTime t := by
  obtain ⟨hmon, hmday, hhour, hmin, hsec⟩ := h
  have hshift : (1900 : ℤ) + ((t.year.toNat : ℤ) - 1900) = t.year.toNat := by omega
  have hindex : ((t.month.toNat : ℤ) - 1).toNat = t.month.toNat - 1 := by omega
  simp only [tmOf, hshift, hindex] at hmon hmday hhour hmin hsec
  constructor <;> omega

/-- So the time of the milliseconds is one. -/
theorem validTime_gettime (h : InYears ms) :
    ValidTime (timefnGettimefromunixtimemillis ms) := by
  have htm := tmOf_gettime h
  have hyear := (year_bounds (ms.tdiv 1000)).mpr h.quotient
  apply validTime_of_valid
  · rw [htm]
    exact gmtimeR_valid _
  · have hfield : (tmOf (timefnGettimefromunixtimemillis ms)).tm_year = _ := congrArg _ htm
    simp only [tmOf] at hfield
    omega

/-! ## Back to a count -/

/-- Converted back, the time is a thousand times the quotient. -/
theorem getunixmillis_gettime {zoneOf : Option (List UInt8) → TimeZone}
    (hutc : EmptyIsUtc zoneOf) (h : InYears ms) (junk : Tm) (env : TimeEnv) :
    (timefnGetunixmillisfromtimestruct zoneOf junk (timefnGettimefromunixtimemillis ms) env).1 =
      ms.tdiv 1000 * 1000 := by
  rw [getunixmillisfromtimestruct_value hutc, (validTime_gettime h).toInt64_millis,
    tmOf_gettime h, timegm_gmtimeR]

/-- **The second of a count.**  The time is the second that contains the instant exactly when
the count is not negative or is one of whole seconds. -/
theorem gettime_second_iff {zoneOf : Option (List UInt8) → TimeZone} (hutc : EmptyIsUtc zoneOf)
    {ms : ℤ} (hms : InYears ms) (junk : Tm) (env : TimeEnv) :
    let t := (timefnGetunixmillisfromtimestruct zoneOf junk
      (timefnGettimefromunixtimemillis ms) env).1
    (t ≤ ms ∧ ms < t + 1000) ↔ 0 ≤ ms ∨ 1000 ∣ ms := by
  intro t
  have ht : t = ms.tdiv 1000 * 1000 := getunixmillis_gettime hutc hms junk env
  have hsum := Int.mul_tdiv_add_tmod ms 1000
  rw [ht]
  by_cases hneg : 0 ≤ ms
  · have hrem := Int.tmod_nonneg 1000 hneg
    have hlt := Int.tmod_lt_of_pos ms (by omega : (0 : ℤ) < 1000)
    omega
  · -- The remainder has the sign of the count.
    have hrem : -1000 < ms.tmod 1000 ∧ ms.tmod 1000 ≤ 0 := by
      have hlt := Int.tmod_lt_of_pos (-ms) (by omega : (0 : ℤ) < 1000)
      have hpos := Int.tmod_nonneg (a := -ms) 1000 (by omega)
      rw [Int.neg_tmod] at hlt hpos
      omega
    omega

/-- A second and a half before 1970 is not in the second that is computed. -/
theorem gettime_second_iff_1969 :
    let t := (timefnGetunixmillisfromtimestruct hourAhead (gmtimeR 0)
      (timefnGettimefromunixtimemillis (-1500)) ⟨none, hourAhead none⟩).1
    (t ≤ -1500 ∧ -1500 < t + 1000) ↔ 0 ≤ (-1500 : ℤ) ∨ (1000 : ℤ) ∣ -1500 :=
  gettime_second_iff (fun _ => rfl) (by unfold InYears; decide +kernel) (gmtimeR 0)
    ⟨none, hourAhead none⟩

/-- A millisecond before the epoch is given the time of the epoch. -/
theorem gettime_late_before_epoch :
    InYears (-1) ∧ timefnGettimefromunixtimemillis (-1) = ⟨1970, 1, 1, 0, 0, 0⟩ ∧
      ¬ (timefnGetunixmillisfromtimestruct hourAhead (gmtimeR 0)
        (timefnGettimefromunixtimemillis (-1)) ⟨none, hourAhead none⟩).1 ≤ -1 := by
  refine ⟨?_, ?_, ?_⟩
  · unfold InYears
    decide +kernel
  · decide +kernel
  · decide +kernel

/-! ## The order of the texts -/

/-- The texts of two times are ordered as the times. -/
theorem strcmp_timeText {t t' : TimefnTime} (ht : ValidTime t) (ht' : ValidTime t')
    (h : (tmOf t).Before (tmOf t')) :
    strcmp (timeText t ++ [0]) (timeText t' ++ [0]) < 0 := by
  obtain ⟨hyear, hmonth, hday, hhour, hminute, hsecond⟩ := ht.fits
  obtain ⟨hyear', hmonth', hday', hhour', hminute', hsecond'⟩ := ht'.fits
  have hT : ascii "T" = [84] := rfl
  simp only [timeText, hT, List.append_assoc, List.cons_append, List.nil_append]
  simp only [Tm.Before, tmOf] at h
  -- One field after the other, with what is between them.
  apply strcmp_field (by omega) hyear hyear' (by decide)
  apply h.imp (by omega)
  rintro ⟨hsame, h⟩
  refine ⟨by omega, ?_⟩
  apply strcmp_field (by omega) hmonth hmonth' (by decide)
  apply h.imp (by omega)
  rintro ⟨hsame, h⟩
  refine ⟨by omega, ?_⟩
  apply strcmp_field (by omega) hday hday' (by decide)
  apply h.imp (by omega)
  rintro ⟨hsame, h⟩
  refine ⟨by omega, ?_⟩
  apply strcmp_field (by omega) hhour hhour' (by decide)
  apply h.imp (by omega)
  rintro ⟨hsame, h⟩
  refine ⟨by omega, ?_⟩
  apply strcmp_field (by omega) hminute hminute' (by decide)
  apply h.imp (by omega)
  rintro ⟨hsame, h⟩
  refine ⟨by omega, ?_⟩
  exact strcmp_printPadded (by omega) hsecond hsecond' (Or.inl (by omega))

/-- So are the texts of the milliseconds. -/
theorem strcmp_formattimefrommillis {a b : ℤ} (ha : InYears a) (hb : InYears b)
    (hlt : a.tdiv 1000 < b.tdiv 1000) :
    strcmp (timefnFormattimefrommillis a) (timefnFormattimefrommillis b) < 0 := by
  have hbefore := gmtimeR_before hlt
  rw [← tmOf_gettime ha, ← tmOf_gettime hb] at hbefore
  have hvalid := validTime_gettime ha
  have hvalid' := validTime_gettime hb
  rw [timefnFormattimefrommillis, timefnFormattimefrommillis,
    formattimefromdatetimestruct_inplace_whole hvalid,
    formattimefromdatetimestruct_inplace_whole hvalid']
  exact strcmp_timeText hvalid hvalid' hbefore

/-- **Text in the order of time.**  The texts of two counts are in their order, and they are
the same exactly when the quotients are. -/
theorem formattimefrommillis_ordered {a b : ℤ} (ha : InYears a) (hb : InYears b) (hab : a ≤ b) :
    strcmp (timefnFormattimefrommillis a) (timefnFormattimefrommillis b) ≤ 0 ∧
      (timefnFormattimefrommillis a = timefnFormattimefrommillis b ↔
        a.tdiv 1000 = b.tdiv 1000) ∧
      (strcmp (timefnFormattimefrommillis a) (timefnFormattimefrommillis b) = 0 ↔
        a.tdiv 1000 = b.tdiv 1000) := by
  have hle : a.tdiv 1000 ≤ b.tdiv 1000 := Int.tdiv_le_tdiv (by omega) hab
  by_cases hsame : a.tdiv 1000 = b.tdiv 1000
  · have htext : timefnFormattimefrommillis a = timefnFormattimefrommillis b := by
      unfold timefnFormattimefrommillis timefnGettimefromunixtimemillis
      rw [hsame]
    rw [htext, strcmp_self]
    simp [hsame]
  · have hlt := strcmp_formattimefrommillis ha hb (by omega)
    have hne : timefnFormattimefrommillis a ≠ timefnFormattimefrommillis b := by
      intro htext
      rw [htext, strcmp_self] at hlt
      exact absurd hlt (Int.lt_irrefl 0)
    refine ⟨by omega, iff_of_false hne hsame, iff_of_false (by omega) hsame⟩

/-- The last second of 1899 and the first of 1900. -/
theorem formattimefrommillis_ordered_1900 :
    strcmp (timefnFormattimefrommillis (-2208988801000))
        (timefnFormattimefrommillis (-2208988800000)) ≤ 0 ∧
      (timefnFormattimefrommillis (-2208988801000) = timefnFormattimefrommillis (-2208988800000) ↔
        (-2208988801000 : ℤ).tdiv 1000 = (-2208988800000 : ℤ).tdiv 1000) ∧
      (strcmp (timefnFormattimefrommillis (-2208988801000))
          (timefnFormattimefrommillis (-2208988800000)) = 0 ↔
        (-2208988801000 : ℤ).tdiv 1000 = (-2208988800000 : ℤ).tdiv 1000) :=
  formattimefrommillis_ordered (by unfold InYears; decide +kernel)
    (by unfold InYears; decide +kernel) (by decide)

end AzureMetadata.Analysis
