import AzureMetadata.Analysis.WalkSteps
import AzureMetadata.Clib.Transition
import AzureMetadata.Interface.DirectoryTree
import Mathlib.Tactic.IntervalCases

/-!
# What the walk does to the path buffer

Three exits of an iteration do not put the NUL after the path of the directory back: the
two `continue`s after `lstat`, and the name that is too long.  `Restores` is the guard
that none of them is taken where it shows, and `Restorable` the invariant of the walks
that keep to it: the buffer begins with the path of every directory that is being listed,
and holds the one that is to be used next.
-/

set_option autoImplicit false

namespace AzureMetadata.Analysis

open Clib AzureMetadata.Model AzureMetadata.Interface StateTransition

variable {υ : Type} {posix : Posix} {fscb : FilesystemCallback υ} {w w' : Walk υ}
  {s top dir : Path} {path : PathBuffer}

/-! ## The invariant -/

/-- The buffer begins with `dir`. -/
structure Keeps (path : PathBuffer) (dir : Path) : Prop where
  noNul : (0 : UInt8) ∉ dir
  length_lt : dir.length < filesystemPathMaxlen
  take_eq : path.bytes.take dir.length = dir

/-- The calls that wait while `dir` is listed: each for a directory inside which the
next is, the first one for `top`. -/
def Nested (top : Path) : Path → List Frame → Prop
  | dir, [] => dir = top
  | dir, frame :: stack => frame.path_pos = frame.level.dir.length ∧
      frame.level.dir <+: dir ∧ Nested top frame.level.dir stack

/-- What the buffer holds, by where the walk is.  At a `loop` it is the path of the
directory, or nothing will be done with it before the return of that call. -/
def Restorable (top : Path) (w : Walk υ) : Prop :=
  match w.control with
  | .call dir => Nested top dir w.stack ∧
      ∃ s, w.path.text = some s ∧ s ≠ [] ∧ trimSlash s = dir
  | .loop level => Nested top level.dir w.stack ∧ Keeps w.path level.dir ∧
      (w.path.text = some level.dir ∨
        w.stack ≠ [] ∧ ∀ entry ∈ level.entries, entry.skipped = true)
  | .ret _ => ∃ dir, Nested top dir w.stack ∧ Keeps w.path dir ∧
      (w.stack = [] → w.path.text = some dir)
  | .fault => False

/-- The paths passed to the callback are those of the entries. -/
def TruePaths (w : Walk υ) : Prop := ∀ c ∈ w.calls, c.path = entryPath c.dir c.name

/-- The next step puts the buffer back, or leaves it to a return: the path of a
sub-directory fits and `lstat` finds a directory there, or nothing follows it in the
listing of a sub-directory; the path of another entry fits, or the listing is that of a
sub-directory. -/
def Restores (posix : Posix) (w : Walk υ) : Prop :=
  ∀ dir entry entries, w.control = .loop ⟨dir, entry :: entries⟩ → entry.skipped = false →
    (entry.d_type = .DT_DIR →
      dir.length + 1 + entry.d_name.length + 1 ≤ filesystemPathMaxlen ∧
      ((∃ status, posix.lstat (entryPath dir entry.d_name) = some status ∧ status ≠ .DT_LNK) ∨
        w.stack ≠ [] ∧ ∀ e ∈ entries, e.skipped = true)) ∧
    (entry.d_type ≠ .DT_DIR → Listing.FitsIn dir entry ∨ w.stack ≠ [])

/-- A buffer keeps its own text. -/
theorem keeps_of_text (ht : path.text = some dir) : Keeps path dir :=
  ⟨CharBuffer.zero_notMem_of_text ht, CharBuffer.length_lt_of_text ht,
    CharBuffer.take_of_text (t := []) (by rw [List.append_nil, ht])⟩

/-- With a path it keeps those above. -/
theorem keeps_of_isPrefix {dir' : Path} (hk : Keeps path dir) (hpre : dir' <+: dir) :
    Keeps path dir' := by
  obtain ⟨rest, rfl⟩ := hpre
  obtain ⟨hnul, hlt, htake⟩ := hk
  rw [List.length_append] at hlt
  refine ⟨fun h0 => hnul (List.mem_append_left _ h0), by omega, ?_⟩
  have hmin : path.bytes.take dir'.length =
      (path.bytes.take (dir' ++ rest).length).take dir'.length := by
    rw [List.take_take, List.length_append, Nat.min_eq_left (by omega)]
  rw [hmin, htake, List.take_left]

/-- The path of an entry is below that of its directory. -/
theorem isPrefix_entryPath (dir name : Path) : dir <+: entryPath dir name := ⟨_, rfl⟩

/-! ## The step -/

/-- To enter a directory keeps all that is to be restored. -/
theorem restorable_call (hI : Restorable top w) (hc : w.control = .call dir) :
    ∃ w', recursedirectoriesStep posix fscb w = some w' ∧ Restorable top w' ∧
      w'.calls = w.calls := by
  simp only [Restorable, hc] at hI
  obtain ⟨hnested, s, ht, hs, htrim⟩ := hI
  obtain ⟨path, htext, hstep⟩ := step_call posix fscb hc ht hs
  refine ⟨_, hstep, ?_, rfl⟩
  rw [htrim] at htext ⊢
  cases posix.opendir dir with
  | none => exact ⟨dir, hnested, keeps_of_text htext, fun _ => htext⟩
  | some entries => exact ⟨hnested, keeps_of_text htext, Or.inl htext⟩

/-- To return from one restores its path. -/
theorem restorable_return {res : ℤ} (hI : Restorable top w) (hc : w.control = .ret res)
    (hst : w.stack ≠ []) :
    ∃ w', recursedirectoriesStep posix fscb w = some w' ∧ Restorable top w' ∧
      w'.calls = w.calls := by
  simp only [Restorable, hc] at hI
  obtain ⟨dir, hnested, hkeeps, -⟩ := hI
  cases hw : w.stack with
  | nil => exact absurd hw hst
  | cons frame stack =>
      rw [hw] at hnested
      obtain ⟨hpos, hpre, hbelow⟩ := hnested
      have hk := keeps_of_isPrefix hkeeps hpre
      obtain ⟨path, hpath, hstep⟩ := step_return posix fscb hc hw
        (by rw [hpos]; exact hk.length_lt)
      -- The NUL goes after the path of the directory that is returned to.
      obtain ⟨path', hpath', htext⟩ := CharBuffer.text_store_nul hk.noNul hk.take_eq hk.length_lt
      rw [← hpos, hpath, Option.some.injEq] at hpath'
      rw [← hpath'] at htext
      refine ⟨_, hstep, ?_, rfl⟩
      by_cases hres : res = 0
      · rw [if_neg (not_not.mpr hres)]
        exact ⟨hbelow, keeps_of_text htext, Or.inl htext⟩
      · rw [if_pos hres]
        exact ⟨frame.level.dir, hbelow, keeps_of_text htext, fun _ => htext⟩

/-- A directory that is found, or behind which there is nothing to visit, keeps it. -/
theorem restorable_directory {entry : Dirent} {entries : List Dirent}
    (hnested : Nested top dir w.stack) (ht : w.path.text = some dir)
    (hc : w.control = .loop ⟨dir, entry :: entries⟩)
    (hdir : entry.d_type = .DT_DIR) (hdot : isDot entry.d_name = false)
    (hfit : dir.length + 1 + entry.d_name.length + 1 ≤ filesystemPathMaxlen)
    (hgo : (∃ status, posix.lstat (entryPath dir entry.d_name) = some status ∧
        status ≠ .DT_LNK) ∨ w.stack ≠ [] ∧ ∀ e ∈ entries, e.skipped = true) :
    ∃ w', recursedirectoriesStep posix fscb w = some w' ∧ Restorable top w' ∧
      w'.calls = w.calls := by
  obtain ⟨path, htext, hstep⟩ :=
    step_directory posix fscb hc hdir hdot ht hfit
  have hk := keeps_of_isPrefix (keeps_of_text htext) (isPrefix_entryPath dir entry.d_name)
  refine ⟨_, hstep, ?_⟩
  cases hl : posix.lstat (entryPath dir entry.d_name) with
  | none =>
      simp only [hl, reduceCtorEq, false_and, exists_false, false_or] at hgo
      exact ⟨⟨hnested, hk, Or.inr hgo⟩, rfl⟩
  | some status =>
      simp only
      split
      · next hlnk =>
          simp only [hl, Option.some.injEq, hlnk, ne_eq, exists_eq_left', not_true_eq_false,
            false_or] at hgo
          exact ⟨⟨hnested, hk, Or.inr hgo⟩, rfl⟩
      · exact ⟨⟨⟨rfl, isPrefix_entryPath _ _, hnested⟩, _, htext, entryPath_ne_nil _ _,
          trimSlash_entryPath _ _⟩, rfl⟩

/-- So does a file, which is visited under its own path. -/
theorem restorable_file (posix : Posix) {entry : Dirent} {entries : List Dirent}
    (hpolite : Polite fscb) (hnested : Nested top dir w.stack) (ht : w.path.text = some dir)
    (hc : w.control = .loop ⟨dir, entry :: entries⟩) (hdir : entry.d_type ≠ .DT_DIR)
    (hgo : Listing.FitsIn dir entry ∨ w.stack ≠ []) (hcalls : TruePaths w) :
    ∃ w', recursedirectoriesStep posix fscb w = some w' ∧ Restorable top w' ∧ TruePaths w' := by
  by_cases hfit : Listing.FitsIn dir entry
  · obtain ⟨path, htext, hstep⟩ := step_file_polite posix hpolite hc hdir ht hfit
    refine ⟨_, hstep, ?_, ?_⟩
    · by_cases hrc : (fscb w.user_data (entryPath dir entry.d_name)).rc = 0
      · rw [if_neg (not_not.mpr hrc)]
        exact ⟨hnested, keeps_of_text htext, Or.inl htext⟩
      · rw [if_pos hrc]
        exact ⟨dir, hnested, keeps_of_text htext, fun _ => htext⟩
    · intro c hmem
      cases List.mem_append.mp hmem with
      | inl hold => exact hcalls c hold
      | inr hnew => rw [List.mem_singleton.mp hnew]
  · have hst : w.stack ≠ [] := hgo.resolve_left hfit
    have hover : filesystemPathMaxlen ≤ dir.length + 1 + entry.d_name.length + 1 :=
      Nat.le_of_not_lt hfit
    obtain ⟨path, hpath, hstep⟩ :=
      step_file_unfit posix fscb hc hdir ht hover
    have hk := keeps_of_text ht
    refine ⟨_, hstep, ⟨dir, hnested, ⟨hk.noNul, hk.length_lt, ?_⟩, fun hnil => absurd hnil hst⟩,
      hcalls⟩
    show path.bytes.take dir.length = dir
    rw [CharBuffer.take_store hpath le_rfl, hk.take_eq]

/-- So does every step that keeps to the guard. -/
theorem restorable_step (hpolite : Polite fscb) (hI : Restorable top w) (hcalls : TruePaths w)
    (hG : Restores posix w) (hstep : recursedirectoriesStep posix fscb w = some w') :
    Restorable top w' ∧ TruePaths w' := by
  have hdone : (∃ w'', recursedirectoriesStep posix fscb w = some w'' ∧ Restorable top w'' ∧
      w''.calls = w.calls) → Restorable top w' ∧ TruePaths w' := by
    rintro ⟨w'', he, hI', hsame⟩
    rw [hstep, Option.some.injEq] at he
    refine ⟨he ▸ hI', ?_⟩
    rw [TruePaths, he, hsame]
    exact hcalls
  cases hc : w.control with
  | call dir => exact hdone (restorable_call hI hc)
  | ret res =>
      apply hdone
      apply restorable_return hI hc
      intro hnil
      rw [step_halt posix fscb hc hnil] at hstep
      cases hstep
  | fault => simp [Restorable, hc] at hI
  | loop level =>
      obtain ⟨dir, entries⟩ := level
      have hI' := hI
      simp only [Restorable, hc] at hI'
      obtain ⟨hnested, hkeeps, htext⟩ := hI'
      cases entries with
      | nil =>
          refine hdone ⟨_, step_end posix fscb hc, ⟨dir, hnested, hkeeps, fun hnil => ?_⟩, rfl⟩
          exact htext.resolve_right fun hr => hr.1 hnil
      | cons entry entries =>
          cases hskip : entry.skipped with
          | true =>
              refine hdone ⟨_, step_skipped posix fscb hc hskip, ⟨hnested, hkeeps, ?_⟩, rfl⟩
              apply htext.imp_right
              intro hr
              exact ⟨hr.1, fun e he => hr.2 e (List.mem_cons_of_mem _ he)⟩
          | false =>
              have ht : w.path.text = some dir := by
                apply htext.resolve_right
                intro hr
                rw [hr.2 entry List.mem_cons_self] at hskip
                cases hskip
              obtain ⟨hdirs, hfiles⟩ := hG dir entry entries hc hskip
              by_cases hdir : entry.d_type = .DT_DIR
              · have hdot : isDot entry.d_name = false := by
                  simpa [Dirent.skipped, hdir] using hskip
                obtain ⟨hfit, hgo⟩ := hdirs hdir
                exact hdone (restorable_directory hnested ht hc hdir hdot hfit hgo)
              · obtain ⟨w'', he, hI'', hcalls''⟩ :=
                  restorable_file posix hpolite hnested ht hc hdir (hfiles hdir) hcalls
                rw [hstep, Option.some.injEq] at he
                rw [he]
                exact ⟨hI'', hcalls''⟩

/-! ## Runs -/

/-- What a walk that was given the path `top` owes its caller. -/
structure Faithful (top : Path) (w : Walk υ) : Prop where
  truePaths : TruePaths w
  inBounds : w.control ≠ .fault
  restored : ∀ res, w.control = .ret res → w.stack = [] → w.path.text = some top

/-- What is restorable all along is restored at the end. -/
theorem faithful_of_restorable (hI : Restorable top w) (hcalls : TruePaths w) :
    Faithful top w := by
  refine ⟨hcalls, ?_, ?_⟩
  · intro hc
    simp [Restorable, hc] at hI
  · intro res hc hst
    simp only [Restorable, hc, hst] at hI
    obtain ⟨dir, rfl, -, htext⟩ := hI
    exact htext trivial

/-- **The path buffer is put back.**  In every walk whose steps keep to the guard, with a
callback that leaves the buffer alone, the callback gets the path of the entry, no access
leaves the buffer, and at the return it holds the caller's path less a trailing `/`. -/
theorem recursedirectories_faithful (hpolite : Polite fscb) (ht : path.text = some s)
    (hs : s ≠ []) {user_data : υ}
    (hrun : Guarded (recursedirectoriesStep posix fscb) (Restores posix)
      (recursedirectoriesStart path user_data) w) : Faithful (trimSlash s) w := by
  have hstart : Restorable (trimSlash s) (recursedirectoriesStart path user_data) := by
    refine ⟨?_, s, ht, hs, ?_⟩
    · simp [recursedirectoriesStart, Nested, ht]
    · rw [ht, Option.getD_some]
  have hcalls : TruePaths (recursedirectoriesStart path user_data) := nofun
  have hboth := Guarded.invariant (I := fun w => Restorable (trimSlash s) w ∧ TruePaths w)
    (fun a b hI hG hstep => restorable_step hpolite hI.1 hI.2 hG hstep) ⟨hstart, hcalls⟩ hrun
  exact faithful_of_restorable hboth.1 hboth.2

/-- The directory `d` with a sub-directory `s`, in which there is a file `a`, and a file `r`. -/
def deepPosix : Posix where
  opendir path :=
    if path = [100] then some [.of [115] .DT_DIR rfl, .of [114] .DT_REG rfl]
    else if path = [100, 47, 115] then some [.of [97] .DT_REG rfl]
    else none
  lstat path := if path = [100, 47, 115] then some .DT_DIR else none

/-- The callback that counts its calls. -/
def countCalls : FilesystemCallback ℕ := fun n _ => ⟨0, n + 1, id⟩

/-- Where the walk of `d/` ends. -/
def deepEnd : Walk ℕ :=
  runFor (recursedirectoriesStep deepPosix countCalls) 8
    (recursedirectoriesStart (.ofText [100, 47] (by decide)) 0)

/-- A state in which no entry is to be visited keeps to the guard. -/
theorem restores_of_control (hc : ∀ dir entry entries, w.control ≠ .loop ⟨dir, entry :: entries⟩) :
    Restores posix w := fun dir entry entries h => absurd h (hc dir entry entries)

/-- So does one in which a file is to be visited whose path fits. -/
theorem restores_file {entry : Dirent} {entries : List Dirent}
    (hc : w.control = .loop ⟨dir, entry :: entries⟩) (hfile : entry.d_type ≠ .DT_DIR)
    (hfit : Listing.FitsIn dir entry) : Restores posix w := by
  intro dir' entry' entries' hc'
  rw [hc] at hc'
  cases hc'
  exact fun _ => ⟨fun hdir => absurd hdir hfile, fun _ => .inl hfit⟩

/-- And one in which a sub-directory is to be visited that is found. -/
theorem restores_directory {entry : Dirent} {entries : List Dirent}
    (hc : w.control = .loop ⟨dir, entry :: entries⟩) (hdir : entry.d_type = .DT_DIR)
    (hfit : dir.length + 1 + entry.d_name.length + 1 ≤ filesystemPathMaxlen)
    (hfound : posix.lstat (entryPath dir entry.d_name) = some .DT_DIR) : Restores posix w := by
  intro dir' entry' entries' hc'
  rw [hc] at hc'
  cases hc'
  exact fun _ => ⟨fun _ => ⟨hfit, .inl ⟨_, hfound, by decide⟩⟩, fun hno => absurd hdir hno⟩

/-- The walk goes into the sub-directory, back to `d` and on to its file, and returns with the
buffer as it was, less the `/`. -/
theorem recursedirectories_faithful_deep :
    Faithful [100] deepEnd ∧ deepEnd.control = .ret 0 ∧ deepEnd.stack = [] ∧
      deepEnd.calls.map Call.path = [[100, 47, 115, 47, 97], [100, 47, 114]] ∧
      deepEnd.path.text = some [100] := by
  have hguard : ∀ k < 8, Restores deepPosix (runFor (recursedirectoriesStep deepPosix countCalls) k
      (recursedirectoriesStart (.ofText [100, 47] (by decide)) 0)) := by
    intro k hk
    interval_cases k
    · exact restores_of_control nofun
    · exact restores_directory rfl rfl (by decide) rfl
    · exact restores_of_control nofun
    · exact restores_file rfl (by decide) (by decide)
    · exact restores_of_control nofun
    · exact restores_of_control nofun
    · exact restores_file rfl (by decide) (by decide)
    · exact restores_of_control nofun
  have hfaithful : Faithful [100] deepEnd :=
    recursedirectories_faithful (fun _ _ => rfl) (CharBuffer.text_ofText (by decide)) (by decide)
      (guarded_runFor hguard)
  exact ⟨hfaithful, rfl, rfl, rfl, hfaithful.restored 0 rfl rfl⟩

/-- The directory `d` with a sub-directory `s`, which `lstat` does not find, and a file
`r`. -/
def brokenPosix : Posix where
  opendir path :=
    if path = [100] then
      some [.of [115] .DT_DIR rfl, .of [114] .DT_REG rfl]
    else none
  lstat _ := none

/-- Where the walk of `d` ends. -/
def brokenEnd : Walk ℕ :=
  runFor (recursedirectoriesStep brokenPosix countCalls) 4
    (recursedirectoriesStart (.ofText [100] (by decide)) 0)

/-- The callback gets `d/s/r` for `d/r`, and the buffer is left with `d/s`. -/
theorem recursedirectories_unrestored :
    brokenEnd ∈ eval (recursedirectoriesStep brokenPosix countCalls)
      (recursedirectoriesStart (.ofText [100] (by decide)) 0) ∧
    brokenEnd.calls = [⟨[100], [114], [100, 47, 115, 47, 114]⟩] ∧
    brokenEnd.path.text = some [100, 47, 115] ∧ ¬ Faithful [100] brokenEnd := by
  have hcontrol : brokenEnd.control = .ret 0 := rfl
  have hstack : brokenEnd.stack = [] := rfl
  have htext : brokenEnd.path.text = some [100, 47, 115] := rfl
  refine ⟨mem_eval.mpr ⟨reaches_runFor 4 _, step_halt _ _ hcontrol hstack⟩, rfl, htext, ?_⟩
  rintro ⟨-, -, hrestored⟩
  have hkept := hrestored 0 hcontrol hstack
  rw [htext] at hkept
  exact absurd hkept (by decide)

end AzureMetadata.Analysis
