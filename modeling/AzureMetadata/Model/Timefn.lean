import AzureMetadata.Clib.Calendar
import AzureMetadata.Clib.Decimal
import Mathlib.Data.UInt

/-!
# Times, as in `src/timefn.c`

A time is a `TimefnTime`, a number of milliseconds since the epoch (an `int64_t`), or a
string.  The functions that use `mktime` take and return the time environment, and `zoneOf`
is the zone that each value of `TZ` names.  What a local variable holds before anything is
assigned to it is an argument: `junk` for the `struct tm`, `ParseLocals` for the variables
of `timefn_parsetimetomillis`.
-/

set_option autoImplicit false

namespace AzureMetadata.Model

open Clib

/-- `timefntime_t` (timefn.h:12-14). -/
structure TimefnTime where
  year : UInt16
  month : UInt16
  day : UInt16
  hour : UInt16
  minute : UInt16
  second : UInt16
deriving DecidableEq

/-- The value an `int64_t` gets. -/
def toInt64 (n : ℤ) : ℤ := Int.bmod n (2 ^ 64)

section Functions

variable (zoneOf : Option (List UInt8) → TimeZone)

/-- `my_timegm` (timefn.c:39-53); only the second branch calls `tzset`. -/
def myTimegm (tm : Tm) (env : TimeEnv) : ℤ × TimeEnv :=
  let tz := env.TZ
  let env := tzset zoneOf { env with TZ := some [] }
  let (ret, env) := mktime zoneOf tm env
  match tz with
  | some tz => (ret, { env with TZ := some tz })
  | none => (ret, tzset zoneOf { env with TZ := none })

/-- `timefn_getunixmillis` (lines 82-94); `tm_isdst` is not assigned. -/
def timefnGetunixmillis (junk : Tm) (year month day hour minute second : ℤ) (env : TimeEnv) :
    ℤ × TimeEnv :=
  let tm := { junk with
    tm_year := year - 1900
    tm_mon := month - 1
    tm_mday := day
    tm_hour := hour
    tm_min := minute
    tm_sec := second }
  let (unix_time, env) := myTimegm zoneOf tm env
  (toInt64 (unix_time * 1000), env)

/-- `timefn_getunixmillisfromtimestruct` (lines 155-157). -/
def timefnGetunixmillisfromtimestruct (junk : Tm) (timestruct : TimefnTime) (env : TimeEnv) :
    ℤ × TimeEnv :=
  timefnGetunixmillis zoneOf junk timestruct.year.toNat timestruct.month.toNat
    timestruct.day.toNat timestruct.hour.toNat timestruct.minute.toNat timestruct.second.toNat env

/-- The variables of `timefn_parsetimetomillis` that `sscanf` is to assign; `sep`, which it
also assigns, is not used. -/
structure ParseLocals where
  year : ℤ
  month : ℤ
  day : ℤ
  hour : ℤ
  min : ℤ
  sec : ℤ

/-- The format of line 216: `%04d-%02d-%02d%c%02d:%02d:%02d`. -/
def scanFormat : List ScanDirective :=
  [.int 4, .literal 45, .int 2, .literal 45, .int 2, .char, .int 2, .literal 58, .int 2,
    .literal 58, .int 2]

/-- `timefn_parsetimetomillis` (lines 206-226). -/
def timefnParsetimetomillis (junk : Tm) (locals : ParseLocals) (src : CString) (env : TimeEnv) :
    ℤ × TimeEnv :=
  let values := sscanf scanFormat src.bytes
  timefnGetunixmillis zoneOf junk (values.getD 0 locals.year) (values.getD 1 locals.month)
    (values.getD 2 locals.day) (values.getD 4 locals.hour) (values.getD 5 locals.min)
    (values.getD 6 locals.sec) env

end Functions

/-- `timefn_gettimefromunixtimemillis` (lines 97-127). -/
def timefnGettimefromunixtimemillis (unixtimemillis : ℤ) : TimefnTime :=
  let tm := gmtimeR (unixtimemillis.tdiv 1000)
  { year := UInt16.ofInt (tm.tm_year + 1900)
    month := UInt16.ofInt (tm.tm_mon + 1)
    day := UInt16.ofInt tm.tm_mday
    hour := UInt16.ofInt tm.tm_hour
    minute := UInt16.ofInt tm.tm_min
    second := UInt16.ofInt tm.tm_sec }

/-- `timefn_getcurrentunixtime` (lines 179-189), where `time` gives `clock`. -/
def timefnGetcurrentunixtime (clock : ℤ) : ℤ :=
  let s := clock
  toInt64 s

/-- The text of line 143, with the conversions `%04d` and `%02d`. -/
def timeText (t : TimefnTime) : List UInt8 :=
  printPadded 4 t.year.toNat ++ [45] ++ printPadded 2 t.month.toNat ++ [45] ++
    printPadded 2 t.day.toNat ++ ascii "T" ++ printPadded 2 t.hour.toNat ++ [58] ++
    printPadded 2 t.minute.toNat ++ [58] ++ printPadded 2 t.second.toNat

/-- `timefn_formattimefromdatetimestruct_inplace` (lines 142-146): the bytes written. -/
def timefnFormattimefromdatetimestructInplace (datetimestruct : TimefnTime) : List UInt8 :=
  snprintf 20 (timeText datetimestruct)

/-- `timefn_formattimefrommillis` (lines 129-133). -/
def timefnFormattimefrommillis (unixtimemillis : ℤ) : List UInt8 :=
  timefnFormattimefromdatetimestructInplace (timefnGettimefromunixtimemillis unixtimemillis)

end AzureMetadata.Model
