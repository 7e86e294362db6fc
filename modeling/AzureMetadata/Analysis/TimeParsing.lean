import AzureMetadata.Analysis.TimeConversions
import Mathlib.Data.List.GetD

/-!
# What a parsed time depends on

`timefn_parsetimetomillis` does not look at what `sscanf` returns, and neither it nor
`timefn_getunixmillis` assigns all that is passed on: a conversion that is not reached
leaves a local variable as it was, and `tm_isdst` is never assigned.
-/

set_option autoImplicit false

namespace AzureMetadata.Analysis

open Clib AzureMetadata.Model

variable {zoneOf : Option (List UInt8) → TimeZone} {daylight : ℤ → ℤ} {src : CString}

/-- With `TZ` empty `mktime` takes a time for one in UTC, except that it may move it by
less than a day for what `tm_isdst` says. -/
structure UtcButDaylight (zoneOf : Option (List UInt8) → TimeZone) (daylight : ℤ → ℤ) :
    Prop where
  ahead : ∀ tm, (zoneOf (some [])).ahead tm = daylight tm.tm_isdst
  day : ∀ isdst, -86400 < daylight isdst ∧ daylight isdst < 86400

/-- The result is the same whatever the variables hold that are not assigned. -/
def Determined (zoneOf : Option (List UInt8) → TimeZone) (src : CString) : Prop :=
  ∀ junk junk' locals locals' env,
    (timefnParsetimetomillis zoneOf junk locals src env).1 =
      (timefnParsetimetomillis zoneOf junk' locals' src env).1

/-- `sscanf` assigns all seven conversions. -/
def Complete (src : CString) : Prop := (sscanf scanFormat src.bytes).length = 7

/-- The time that is converted. -/
def parsedTm (locals : ParseLocals) (src : CString) : Tm :=
  let values := sscanf scanFormat src.bytes
  { tm_year := values.getD 0 locals.year - 1900
    tm_mon := values.getD 1 locals.month - 1
    tm_mday := values.getD 2 locals.day
    tm_hour := values.getD 4 locals.hour
    tm_min := values.getD 5 locals.min
    tm_sec := values.getD 6 locals.sec
    tm_isdst := 0 }

/-- The milliseconds of the fields that were parsed, less what the daylight flag takes. -/
theorem parsetimetomillis_value (h : UtcButDaylight zoneOf daylight) (junk : Tm)
    (locals : ParseLocals) (src : CString) (env : TimeEnv) :
    (timefnParsetimetomillis zoneOf junk locals src env).1 =
      toInt64 ((timegm (parsedTm locals src) - daylight junk.tm_isdst) * 1000) := by
  have hvalue := myTimegm_ahead zoneOf
    { parsedTm locals src with tm_isdst := junk.tm_isdst } env
  rw [h.ahead] at hvalue
  simp only [timefnParsetimetomillis, timefnGetunixmillis]
  exact congrArg (fun unix_time => toInt64 (unix_time * 1000)) hvalue

/-- To cut a number to 64 bits leaves it modulo `2 ^ 64`. -/
theorem toInt64_emod (n : ℤ) : toInt64 n % 2 ^ 64 = n % 2 ^ 64 := Int.bmod_emod

/-- Counts of seconds with the same milliseconds in an `int64_t`. -/
theorem eq_of_toInt64_eq {x y : ℤ} (hnear : -2 ^ 32 < x - y ∧ x - y < 2 ^ 32)
    (h : toInt64 (x * 1000) = toInt64 (y * 1000)) : x = y := by
  have hbound : (x * 1000 - y * 1000).natAbs < (2 ^ 64 : ℤ).natAbs := by
    have hpow : (2 ^ 64 : ℤ).natAbs = 2 ^ 64 := rfl
    rw [hpow]
    clear hpow
    omega
  have hmod : x * 1000 % 2 ^ 64 = y * 1000 % 2 ^ 64 := by
    rw [← toInt64_emod (x * 1000), h, toInt64_emod]
  have hdvd := Int.dvd_of_emod_eq_zero (Int.emod_eq_emod_iff_emod_sub_eq_zero.mp hmod)
  have hzero := Int.eq_zero_of_dvd_of_natAbs_lt_natAbs hdvd hbound
  exact Int.eq_of_mul_eq_mul_right (by decide) (Int.eq_of_sub_eq_zero hzero)

/-- No more values than conversions. -/
theorem length_sscanf_le (format : List ScanDirective) (text : List UInt8) :
    (sscanf format text).length ≤ (format.filter ScanDirective.assigns).length := by
  induction format generalizing text with
  | nil => simp [sscanf]
  | cons d format ih =>
      cases d with
      | int w =>
          rw [sscanf]
          cases hscan : scanInt w text with
          | none => simp
          | some found =>
              have hrest := ih found.2
              rw [List.filter_cons_of_pos rfl, List.length_cons]
              exact Nat.succ_le_succ hrest
      | char =>
          cases text with
          | nil => simp [sscanf]
          | cons c text =>
              have hrest := ih text
              rw [sscanf, List.filter_cons_of_pos rfl, List.length_cons]
              exact Nat.succ_le_succ hrest
      | literal l =>
          have hmatched : ¬ ScanDirective.assigns (.literal l) = true := Bool.false_ne_true
          rw [List.filter_cons_of_neg hmatched]
          cases text with
          | nil => simp [sscanf]
          | cons c text =>
              rw [sscanf]
              split
              · exact ih text
              · simp

/-! ## What is not assigned -/

/-- Where a conversion is missing, the seconds are those of the local variable. -/
theorem complete_of_determined (h : UtcButDaylight zoneOf daylight)
    (hdet : Determined zoneOf src) : Complete src := by
  by_contra hmissing
  have hle := length_sscanf_le scanFormat src.bytes
  have hseven : (scanFormat.filter ScanDirective.assigns).length = 7 := rfl
  have hsec : ∀ d : ℤ, (sscanf scanFormat src.bytes).getD 6 d = d := by
    intro d
    unfold Complete at hmissing
    exact List.getD_eq_default _ _ (by omega)
  have hsame := hdet (gmtimeR 0) (gmtimeR 0) ⟨0, 0, 0, 0, 0, 0⟩ ⟨0, 0, 0, 0, 0, 1⟩
    ⟨none, zoneOf none⟩
  rw [parsetimetomillis_value h, parsetimetomillis_value h] at hsame
  have hnext : timegm (parsedTm ⟨0, 0, 0, 0, 0, 1⟩ src) =
      timegm (parsedTm ⟨0, 0, 0, 0, 0, 0⟩ src) + 1 := by
    simp only [timegm, parsedTm, hsec]
    omega
  rw [hnext] at hsame
  have hcount := eq_of_toInt64_eq (by omega) hsame
  omega

/-- What `tm_isdst` holds is passed on to `mktime`. -/
theorem daylight_of_determined (h : UtcButDaylight zoneOf daylight)
    (hdet : Determined zoneOf src) (isdst : ℤ) : daylight isdst = daylight 0 := by
  have hsame := hdet { gmtimeR 0 with tm_isdst := isdst } (gmtimeR 0) ⟨0, 0, 0, 0, 0, 0⟩
    ⟨0, 0, 0, 0, 0, 0⟩ ⟨none, zoneOf none⟩
  rw [parsetimetomillis_value h, parsetimetomillis_value h] at hsame
  have hzero : (gmtimeR 0).tm_isdst = 0 := rfl
  dsimp only at hsame
  rw [hzero] at hsame
  have hday := h.day isdst
  have hday' := h.day 0
  have hcount := eq_of_toInt64_eq (by omega) hsame
  omega

/-- When all conversions are assigned, the local variables are not used. -/
theorem parsedTm_complete (hcomplete : Complete src) (locals locals' : ParseLocals) :
    parsedTm locals src = parsedTm locals' src := by
  have hvalue : ∀ i < 7, ∀ d d' : ℤ, (sscanf scanFormat src.bytes).getD i d =
      (sscanf scanFormat src.bytes).getD i d' := by
    intro i hi d d'
    have hin : i < (sscanf scanFormat src.bytes).length := by
      unfold Complete at hcomplete
      omega
    rw [List.getD_eq_getElem _ _ hin, List.getD_eq_getElem _ _ hin]
  unfold parsedTm
  dsimp only
  rw [hvalue 0 (by omega) locals.year locals'.year, hvalue 1 (by omega) locals.month locals'.month,
    hvalue 2 (by omega) locals.day locals'.day, hvalue 4 (by omega) locals.hour locals'.hour,
    hvalue 5 (by omega) locals.min locals'.min, hvalue 6 (by omega) locals.sec locals'.sec]

/-- **What the result depends on.**  It is determined by the string exactly when all seven
conversions are assigned from it and `mktime` makes no difference of `tm_isdst`. -/
theorem parsetimetomillis_determined_iff {zoneOf : Option (List UInt8) → TimeZone}
    {daylight : ℤ → ℤ} (h : UtcButDaylight zoneOf daylight) (src : CString) :
    Determined zoneOf src ↔ Complete src ∧ ∀ isdst, daylight isdst = daylight 0 := by
  constructor
  · intro hdet
    exact ⟨complete_of_determined h hdet, daylight_of_determined h hdet⟩
  · rintro ⟨hcomplete, hdaylight⟩ junk junk' locals locals' env
    rw [parsetimetomillis_value h, parsetimetomillis_value h,
      parsedTm_complete hcomplete locals locals', hdaylight junk.tm_isdst,
      hdaylight junk'.tm_isdst]

/-- A time in the form `timefn_formattimefrommillis` writes, where `tm_isdst` does not
count. -/
theorem parsetimetomillis_determined_iff_2000 :
    ∃ text : CString, text.bytes = ascii "2000-02-29T12:00:00" ∧ Determined hourAhead text := by
  have hutc : UtcButDaylight hourAhead fun _ => 0 := by
    constructor
    · intro tm
      rfl
    · intro isdst
      omega
  refine ⟨⟨ascii "2000-02-29T12:00:00", by decide +kernel, by decide +kernel⟩, rfl, ?_⟩
  apply (parsetimetomillis_determined_iff hutc _).mpr
  constructor
  · unfold Complete
    decide +kernel
  · intro isdst
    rfl

/-- The zones of a system that takes an hour off a time that is said to be in summer. -/
def summerHour (_TZ : Option (List UInt8)) : TimeZone where
  ahead tm := if 0 < tm.tm_isdst then 3600 else 0

/-- The result for an empty string is what the local variables held, and that for a whole
time depends on `tm_isdst`. -/
theorem parsetimetomillis_undetermined :
    (∃ text : CString, text.bytes = [] ∧ ¬ Determined hourAhead text) ∧
      ∃ text : CString, text.bytes = ascii "2000-02-29T12:00:00" ∧
        ¬ Determined summerHour text := by
  constructor
  · refine ⟨⟨[], by decide, by decide +kernel⟩, rfl, ?_⟩
    intro hdet
    have hsame := hdet (gmtimeR 0) (gmtimeR 0) ⟨1970, 1, 1, 0, 0, 0⟩ ⟨1970, 1, 1, 0, 0, 1⟩
      ⟨none, hourAhead none⟩
    revert hsame
    decide +kernel
  · refine ⟨⟨ascii "2000-02-29T12:00:00", by decide +kernel, by decide +kernel⟩, rfl, ?_⟩
    intro hdet
    have hsame := hdet (gmtimeR 0) { gmtimeR 0 with tm_isdst := 1 } ⟨0, 0, 0, 0, 0, 0⟩
      ⟨0, 0, 0, 0, 0, 0⟩ ⟨none, summerHour none⟩
    revert hsame
    decide +kernel

end AzureMetadata.Analysis
