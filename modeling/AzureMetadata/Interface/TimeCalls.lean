import AzureMetadata.Model.Timefn

/-!
# The interface of `timefn.c`, and the time environment

`TimeCall` lists the calls on the functions that convert times, and `timeCall` is what one
does to the time environment.  Between calls a caller relies on `TZ` and on the zone in
use: `Restored` says that both are as they were.
-/

set_option autoImplicit false

namespace AzureMetadata.Interface

open Clib AzureMetadata.Model

/-- A call, with what its uninitialised locals hold. -/
inductive TimeCall
  | getunixmillis (junk : Tm) (year month day hour minute second : ℤ)
  | getunixmillisfromtimestruct (junk : Tm) (timestruct : TimefnTime)
  | parsetimetomillis (junk : Tm) (locals : ParseLocals) (src : CString)
  | gettimefromunixtimemillis (unixtimemillis : ℤ)
  | formattimefrommillis (unixtimemillis : ℤ)
  | formattimefromdatetimestructInplace (datetimestruct : TimefnTime)

/-- The calls that go through `my_timegm`. -/
def TimeCall.converts : TimeCall → Bool
  | .getunixmillis .. => true
  | .getunixmillisfromtimestruct .. => true
  | .parsetimetomillis .. => true
  | _ => false

section Calls

variable (zoneOf : Option (List UInt8) → TimeZone)

/-- The environment after a call. -/
def timeCall (env : TimeEnv) : TimeCall → TimeEnv
  | .getunixmillis junk year month day hour minute second =>
      (timefnGetunixmillis zoneOf junk year month day hour minute second env).2
  | .getunixmillisfromtimestruct junk timestruct =>
      (timefnGetunixmillisfromtimestruct zoneOf junk timestruct env).2
  | .parsetimetomillis junk locals src => (timefnParsetimetomillis zoneOf junk locals src env).2
  | _ => env

/-- The environment after some calls. -/
def timeCalls (calls : List TimeCall) (env : TimeEnv) : TimeEnv := calls.foldl (timeCall zoneOf) env

/-- `TZ` is what it was in `env`, and the zone in use is the one that it names. -/
def Restored (env env' : TimeEnv) : Prop := env'.TZ = env.TZ ∧ env'.zone = zoneOf env.TZ

end Calls

end AzureMetadata.Interface
