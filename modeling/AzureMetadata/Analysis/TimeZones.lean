import AzureMetadata.Analysis.TimeConversions
import AzureMetadata.Interface.TimeCalls

/-!
# What is left of the time zone

`my_timegm` puts `TZ` back on both its branches, and calls `tzset` after it on one only.
Where `TZ` was set, the zone in use stays the one that `mktime` has loaded for an empty
`TZ`.  `timeCalls_env` says what a sequence of calls leaves.
-/

set_option autoImplicit false

namespace AzureMetadata.Analysis

open Clib AzureMetadata.Model AzureMetadata.Interface

variable {zoneOf : Option (List UInt8) → TimeZone} {env : TimeEnv}

/-- The value of `TZ` whose zone `my_timegm` leaves in use. -/
def loadedTZ (TZ : Option (List UInt8)) : Option (List UInt8) := TZ.map fun _ => []

/-- `my_timegm` restores the variable and leaves its zone loaded. -/
theorem myTimegm_env (tm : Tm) (env : TimeEnv) :
    (myTimegm zoneOf tm env).2 = ⟨env.TZ, zoneOf (loadedTZ env.TZ)⟩ := by
  cases htz : env.TZ with
  | none => simp only [myTimegm, mktime, tzset, htz, loadedTZ, Option.map_none]
  | some tz => simp only [myTimegm, mktime, tzset, htz, loadedTZ, Option.map_some]

/-- So does the function that calls it. -/
theorem getunixmillis_env (junk : Tm) (year month day hour minute second : ℤ) (env : TimeEnv) :
    (timefnGetunixmillis zoneOf junk year month day hour minute second env).2 =
      ⟨env.TZ, zoneOf (loadedTZ env.TZ)⟩ := myTimegm_env _ env

/-- One call: those that convert leave the zone of `loadedTZ`, the others change nothing. -/
theorem timeCall_env (env : TimeEnv) (call : TimeCall) :
    timeCall zoneOf env call =
      if call.converts then ⟨env.TZ, zoneOf (loadedTZ env.TZ)⟩ else env := by
  cases call with
  | getunixmillis junk year month day hour minute second => exact getunixmillis_env ..
  | getunixmillisfromtimestruct junk timestruct => exact getunixmillis_env ..
  | parsetimetomillis junk locals src => exact getunixmillis_env ..
  | gettimefromunixtimemillis unixtimemillis => rfl
  | formattimefrommillis unixtimemillis => rfl
  | formattimefromdatetimestructInplace datetimestruct => rfl

/-- A sequence of calls: one conversion in it is enough. -/
theorem timeCalls_env (calls : List TimeCall) (env : TimeEnv) :
    timeCalls zoneOf calls env =
      if calls.any TimeCall.converts then ⟨env.TZ, zoneOf (loadedTZ env.TZ)⟩ else env := by
  unfold timeCalls
  induction calls using List.reverseRecOn with
  | nil => rfl
  | append_singleton calls call ih =>
      rw [List.foldl_append, ih, List.foldl_cons, List.foldl_nil, timeCall_env, List.any_append]
      cases hcall : call.converts with
      | true =>
          cases hcalls : calls.any TimeCall.converts with
          | true => simp [hcall]
          | false => simp [hcall]
      | false => simp [hcall]

/-- The zone left in use is the one of `TZ` when that was not set, or names the same one as
an empty `TZ`. -/
theorem loadedTZ_zone_iff {TZ : Option (List UInt8)} :
    zoneOf (loadedTZ TZ) = zoneOf TZ ↔ TZ = none ∨ zoneOf TZ = zoneOf (some []) := by
  cases TZ with
  | none => exact iff_of_true rfl (Or.inl rfl)
  | some tz =>
      have hset : some tz ≠ (none : Option (List UInt8)) := Option.some_ne_none tz
      rw [loadedTZ, Option.map_some, or_iff_right hset]
      exact eq_comm

/-- **The time zone after every call.**  From an environment whose zone is the one `TZ`
names, it is so again after each call of a sequence exactly when `TZ` is not set, or names
the zone that an empty `TZ` names, or the sequence converts nothing. -/
theorem zone_restored_iff {zoneOf : Option (List UInt8) → TimeZone} {env : TimeEnv}
    (henv : env.zone = zoneOf env.TZ) (calls : List TimeCall) :
    (∀ before, before <+: calls → Restored zoneOf env (timeCalls zoneOf before env)) ↔
      env.TZ = none ∨ zoneOf env.TZ = zoneOf (some []) ∨
        ∀ call ∈ calls, call.converts = false := by
  constructor
  · intro h
    have hall := h calls (List.prefix_refl calls)
    rw [timeCalls_env] at hall
    cases hany : calls.any TimeCall.converts with
    | false =>
        apply Or.inr
        apply Or.inr
        intro call hcall
        simpa using List.any_eq_false.mp hany call hcall
    | true =>
        rw [hany, if_pos rfl] at hall
        cases loadedTZ_zone_iff.mp hall.2 with
        | inl hunset => exact Or.inl hunset
        | inr hutc => exact Or.inr (Or.inl hutc)
  · intro h before hbefore
    rw [timeCalls_env]
    split
    · next hany =>
      obtain ⟨call, hcall, hconverts⟩ := List.any_eq_true.mp hany
      have hzone : env.TZ = none ∨ zoneOf env.TZ = zoneOf (some []) := by
        apply (or_assoc.mpr h).resolve_right
        intro hnever
        rw [hnever call (hbefore.subset hcall)] at hconverts
        cases hconverts
      exact ⟨rfl, loadedTZ_zone_iff.mpr hzone⟩
    · exact ⟨rfl, henv⟩

/-- Two conversions where `TZ` is not set. -/
theorem zone_restored_iff_unset :
    (∀ before, before <+: [TimeCall.getunixmillisfromtimestruct (gmtimeR 0) leapDay,
        TimeCall.getunixmillis (gmtimeR 0) 2000 1 1 0 0 0] →
      Restored hourAhead ⟨none, hourAhead none⟩
        (timeCalls hourAhead before ⟨none, hourAhead none⟩)) ↔
      (none : Option (List UInt8)) = none ∨ hourAhead none = hourAhead (some []) ∨
        ∀ call ∈ [TimeCall.getunixmillisfromtimestruct (gmtimeR 0) leapDay,
          TimeCall.getunixmillis (gmtimeR 0) 2000 1 1 0 0 0], call.converts = false :=
  zone_restored_iff rfl _

/-- After a conversion with `TZ=CET` local time is that of UTC, no longer an hour ahead. -/
theorem zone_left_at_utc :
    (timeCalls hourAhead [.getunixmillisfromtimestruct (gmtimeR 0) leapDay]
        ⟨some (ascii "CET"), hourAhead (some (ascii "CET"))⟩).TZ = some (ascii "CET") ∧
      (timeCalls hourAhead [.getunixmillisfromtimestruct (gmtimeR 0) leapDay]
        ⟨some (ascii "CET"), hourAhead (some (ascii "CET"))⟩).zone.ahead (gmtimeR 0) = 0 ∧
      (hourAhead (some (ascii "CET"))).ahead (gmtimeR 0) = 3600 ∧
      ¬ Restored hourAhead ⟨some (ascii "CET"), hourAhead (some (ascii "CET"))⟩
        (timeCalls hourAhead [.getunixmillisfromtimestruct (gmtimeR 0) leapDay]
          ⟨some (ascii "CET"), hourAhead (some (ascii "CET"))⟩) := by
  have hcet : (hourAhead (some (ascii "CET"))).ahead (gmtimeR 0) = 3600 := rfl
  refine ⟨rfl, rfl, hcet, ?_⟩
  intro h
  have hzone := congrArg (fun zone => zone.ahead (gmtimeR 0)) h.2
  simp only [hcet] at hzone
  cases hzone

end AzureMetadata.Analysis
