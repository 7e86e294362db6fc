import AzureMetadata.Model.Filesystem

/-!
# How old a file is

`filesystem_isfileolderthan` computes the time before which a file is too old in `int`, from
a clock that was cut to `int`.  `isfileolderthan_answers_iff` says when that time is the exact
one.
-/

set_option autoImplicit false

namespace AzureMetadata.Analysis

open Clib AzureMetadata.Model

variable {st_mtime : Path → ℤ} {clock seconds : ℤ}
variable {fs : FileSystem} {path : Path} {node : Node}

/-- A value of type `int`. -/
def InInt (n : ℤ) : Prop := -2 ^ 31 ≤ n ∧ n < 2 ^ 31

/-- A value of type `int64_t` or `time_t`. -/
def InInt64 (n : ℤ) : Prop := -2 ^ 63 ≤ n ∧ n < 2 ^ 63

/-- The clock of a system that is set to a time after 1970. -/
def ClockTime (clock : ℤ) : Prop := 0 ≤ clock ∧ clock < 2 ^ 63

/-- An `int` keeps the values it can hold, and no others. -/
theorem toInt32_eq_iff {n : ℤ} : toInt32 n = n ↔ InInt n := by
  constructor
  · intro h
    have hlow : -(((2 ^ 32 : ℕ) : ℤ) / 2) ≤ toInt32 n := Int.le_bmod (by decide)
    have hhigh : toInt32 n < (((2 ^ 32 : ℕ) : ℤ) + 1) / 2 := Int.bmod_lt (by decide)
    rw [h] at hlow hhigh
    exact ⟨hlow, hhigh⟩
  · intro h
    obtain ⟨hlow, hhigh⟩ := h
    exact Int.bmod_eq_of_le (by omega) (by omega)

/-- The clock as `time` gave it. -/
theorem getcurrentunixtime_eq (h : ClockTime clock) : timefnGetcurrentunixtime clock = clock := by
  obtain ⟨hlow, hhigh⟩ := h
  exact Int.bmod_eq_of_le (by omega) (by omega)

/-- Wrapping the clock before the subtraction does not change what is wrapped after it. -/
theorem toInt32_currentunixtime_sub (h : ClockTime clock) (seconds : ℤ) :
    toInt32 (currentunixtimeAsInt clock - seconds) = toInt32 (clock - seconds) := by
  unfold currentunixtimeAsInt
  rw [getcurrentunixtime_eq h]
  exact Int.bmod_sub_bmod

/-- The answer for a file that exists: its time against the wrapped difference. -/
theorem isfileolderthan_eq (hfile : fs.lstat path = some node) (hclock : ClockTime clock) :
    filesystemIsfileolderthan st_mtime clock path seconds fs =
      if st_mtime path < toInt32 (clock - seconds) then 1 else 0 := by
  unfold filesystemIsfileolderthan
  rw [hfile, ← toInt32_currentunixtime_sub hclock]

/-- The exact answer. -/
def olderAnswer (mtime clock seconds : ℤ) : ℤ := if mtime < clock - seconds then 1 else 0

/-- **The answers.**  They are exact for every modification time exactly when the
difference is an `int`, also where the clock is not. -/
theorem isfileolderthan_answers_iff (hfile : fs.lstat path = some node)
    (hclock : ClockTime clock) (hseconds : InInt seconds) :
    (∀ mtimes : Path → ℤ, InInt64 (mtimes path) →
      filesystemIsfileolderthan mtimes clock path seconds fs =
        olderAnswer (mtimes path) clock seconds) ↔ clock - seconds < 2 ^ 31 := by
  constructor
  · intro h
    by_contra hlarge
    -- The largest `int` is a time before the exact difference, not before the wrapped one.
    have hlast := h (fun _ => 2 ^ 31 - 1) (by constructor <;> decide)
    have hwrapped : toInt32 (clock - seconds) < (((2 ^ 32 : ℕ) : ℤ) + 1) / 2 :=
      Int.bmod_lt (by decide)
    rw [isfileolderthan_eq hfile hclock, olderAnswer, if_neg (by omega), if_pos (by omega)] at hlast
    cases hlast
  · intro h mtimes _
    obtain ⟨hlow, hhigh⟩ := hclock
    have hdifference : InInt (clock - seconds) := ⟨by unfold InInt at hseconds; omega, h⟩
    rw [isfileolderthan_eq hfile ⟨hlow, hhigh⟩, toInt32_eq_iff.mpr hdifference, olderAnswer]

/-- The answer is exact, and so is all that is computed for it. -/
structure ExactAge (st_mtime : Path → ℤ) (clock : ℤ) (path : Path) (seconds : ℤ)
    (fs : FileSystem) : Prop where
  answer : filesystemIsfileolderthan st_mtime clock path seconds fs =
    olderAnswer (st_mtime path) clock seconds
  clock_whole : currentunixtimeAsInt clock = clock
  difference_fits : InInt (currentunixtimeAsInt clock - seconds)

/-- **The age of a file.**  It is computed exactly as long as the clock, and the time that
is `seconds` before it, are before 2^31. -/
theorem isfileolderthan_exact_iff {fs : FileSystem} {path : Path} {node : Node}
    (hfile : fs.lstat path = some node) (st_mtime : Path → ℤ) {clock seconds : ℤ}
    (hclock : ClockTime clock) (hseconds : InInt seconds) :
    ExactAge st_mtime clock path seconds fs ↔ clock < 2 ^ 31 ∧ clock - seconds < 2 ^ 31 := by
  have hwhole : currentunixtimeAsInt clock = clock ↔ InInt clock := by
    rw [currentunixtimeAsInt, getcurrentunixtime_eq hclock, toInt32_eq_iff]
  constructor
  · intro h
    have hdifference := h.difference_fits
    rw [h.clock_whole] at hdifference
    exact ⟨(hwhole.mp h.clock_whole).2, hdifference.2⟩
  · intro h
    obtain ⟨hsmall, hdifference⟩ := h
    have hlow := hclock.1
    have hsame := hwhole.mpr ⟨by omega, hsmall⟩
    have hfits : InInt (clock - seconds) := ⟨by unfold InInt at hseconds; omega, hdifference⟩
    constructor
    · rw [isfileolderthan_eq hfile hclock, toInt32_eq_iff.mpr hfits, olderAnswer]
    · exact hsame
    · rw [hsame]
      exact hfits

/-- A file a day old in 2023, asked for an hour. -/
theorem isfileolderthan_exact_iff_2023 :
    ExactAge (fun _ => 1699913600) 1700000000 (ascii "/a") 3600
        (fun _ => some .directory) ↔
      (1700000000 : ℤ) < 2 ^ 31 ∧ (1700000000 - 3600 : ℤ) < 2 ^ 31 :=
  isfileolderthan_exact_iff rfl _ (by constructor <;> decide)
    (by constructor <;> decide)

/-- From the second 2^31 on, in January 2038, a file of 1970 is not older than 0 seconds. -/
theorem isfileolderthan_2038 :
    filesystemIsfileolderthan (fun _ => 0) (2 ^ 31) (ascii "/a") 0
        (fun _ => some .directory) = 0 ∧
      olderAnswer 0 (2 ^ 31) 0 = 1 ∧
      ¬ ExactAge (fun _ => 0) (2 ^ 31) (ascii "/a") 0 (fun _ => some .directory) := by
  have hanswer : filesystemIsfileolderthan (fun _ => 0) (2 ^ 31) (ascii "/a") 0
      (fun _ => some .directory) = 0 := by decide
  refine ⟨hanswer, rfl, ?_⟩
  intro h
  have hexact := h.answer
  rw [hanswer] at hexact
  cases hexact

end AzureMetadata.Analysis
