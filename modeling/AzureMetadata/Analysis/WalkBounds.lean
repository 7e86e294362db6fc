import AzureMetadata.Analysis.WalkSteps
import AzureMetadata.Clib.Transition
import AzureMetadata.Interface.DirectoryTree

/-!
# The bounds of the path buffer

Whatever the callback does, the buffer holds a string where the walk reads one, because
a NUL is put at an index of the buffer after each call.  So the one access that can
leave the buffer, once the walk has started, is the copy of a sub-directory's name, and a
walk is safe iff that name fits wherever it meets one.
-/

set_option autoImplicit false

namespace AzureMetadata.Analysis

open Clib AzureMetadata.Model AzureMetadata.Interface StateTransition

variable {υ : Type} (posix : Posix) (fscb : FilesystemCallback υ) {w w' : Walk υ}
  {s dir : Path} {path : PathBuffer}

/-- The buffer holds a string where the walk will read one, not an empty one at a call,
and the positions to which the waiting calls put a NUL are in it. -/
def InBounds (w : Walk υ) : Prop :=
  (∀ frame ∈ w.stack, frame.path_pos < filesystemPathMaxlen) ∧
  match w.control with
  | .call _ => ∃ s, w.path.text = some s ∧ s ≠ []
  | .loop _ => ∃ s, w.path.text = some s
  | .ret _ => True
  | .fault => False

/-- If the next entry is a sub-directory, its name fits after the string in the buffer. -/
def DirectoryFits (w : Walk υ) : Prop :=
  ∀ dir entry entries s, w.control = .loop ⟨dir, entry :: entries⟩ →
    entry.d_type = .DT_DIR → isDot entry.d_name = false → w.path.text = some s →
    s.length + 1 + entry.d_name.length + 1 ≤ filesystemPathMaxlen

/-- The next entry is no directory, and its name does not fit. -/
def UnfitFile (w : Walk υ) : Prop :=
  ∃ dir entry entries s, w.control = .loop ⟨dir, entry :: entries⟩ ∧
    entry.d_type ≠ .DT_DIR ∧ w.path.text = some s ∧ ¬ Listing.FitsIn s entry

/-! ## The step -/

/-- A directory whose path fits is entered inside the buffer. -/
theorem inBounds_directory {entry : Dirent} {entries : List Dirent} (hI : InBounds w)
    (hc : w.control = .loop ⟨dir, entry :: entries⟩) (hdir : entry.d_type = .DT_DIR)
    (hdot : isDot entry.d_name = false) (ht : w.path.text = some s)
    (hfit : s.length + 1 + entry.d_name.length + 1 ≤ filesystemPathMaxlen) :
    ∃ w', recursedirectoriesStep posix fscb w = some w' ∧ InBounds w' := by
  obtain ⟨path, htext, hstep⟩ := step_directory posix fscb hc hdir hdot ht hfit
  refine ⟨_, hstep, ?_⟩
  cases posix.lstat (entryPath s entry.d_name) with
  | none => exact ⟨hI.1, _, htext⟩
  | some status =>
      simp only
      split
      · exact ⟨hI.1, _, htext⟩
      · refine ⟨?_, _, htext, entryPath_ne_nil _ _⟩
        intro frame hmem
        rcases List.mem_cons.mp hmem with rfl | hold
        · exact CharBuffer.length_lt_of_text ht
        · exact hI.1 frame hold

/-- A file is visited inside the buffer, or not at all. -/
theorem inBounds_file {entry : Dirent} {entries : List Dirent} (hI : InBounds w)
    (hc : w.control = .loop ⟨dir, entry :: entries⟩) (hdir : entry.d_type ≠ .DT_DIR)
    (ht : w.path.text = some s) :
    ∃ w', recursedirectoriesStep posix fscb w = some w' ∧ InBounds w' := by
  by_cases hfit : Listing.FitsIn s entry
  · obtain ⟨path, path', -, hst, hstep⟩ := step_file posix fscb hc hdir ht hfit
    -- The callback may have written anything; the NUL after `s` ends what it left.
    obtain ⟨t, htext, -⟩ := CharBuffer.text_store_nul_any hst
    refine ⟨_, hstep, hI.1, ?_⟩
    by_cases hrc : (fscb w.user_data (entryPath s entry.d_name)).rc = 0
    · rw [if_neg (not_not.mpr hrc)]
      exact ⟨t, htext⟩
    · rw [if_pos hrc]
      trivial
  · obtain ⟨path, -, hstep⟩ := step_file_unfit posix fscb hc hdir ht (Nat.le_of_not_lt hfit)
    exact ⟨_, hstep, hI.1, trivial⟩

/-- So a step keeps inside it, if the directory fits. -/
theorem inBounds_step (hI : InBounds w) (hG : DirectoryFits w)
    (hstep : recursedirectoriesStep posix fscb w = some w') : InBounds w' := by
  have hdone : (∃ w'', recursedirectoriesStep posix fscb w = some w'' ∧ InBounds w'') →
      InBounds w' := by
    rintro ⟨w'', he, hI'⟩
    rw [hstep, Option.some.injEq] at he
    exact he ▸ hI'
  have hI' := hI
  cases hc : w.control with
  | call dir =>
      simp only [InBounds, hc] at hI'
      obtain ⟨hstack, s, ht, hs⟩ := hI'
      obtain ⟨path, htext, he⟩ := step_call posix fscb hc ht hs
      refine hdone ⟨_, he, hstack, ?_⟩
      cases posix.opendir (trimSlash s) with
      | none => trivial
      | some entries => exact ⟨_, htext⟩
  | ret res =>
      cases hst : w.stack with
      | nil =>
          rw [step_halt posix fscb hc hst] at hstep
          cases hstep
      | cons frame stack =>
          have hlt : frame.path_pos < filesystemPathMaxlen :=
            hI.1 frame (by rw [hst]; exact List.mem_cons_self)
          obtain ⟨path, hpath, he⟩ := step_return posix fscb hc hst hlt
          obtain ⟨t, htext, -⟩ := CharBuffer.text_store_nul_any hpath
          have hrest : ∀ f ∈ stack, f.path_pos < filesystemPathMaxlen :=
            fun f hf => hI.1 f (by rw [hst]; exact List.mem_cons_of_mem _ hf)
          refine hdone ⟨_, he, hrest, ?_⟩
          by_cases hres : res = 0
          · rw [if_neg (not_not.mpr hres)]
            exact ⟨t, htext⟩
          · rw [if_pos hres]
            trivial
  | fault => simp [InBounds, hc] at hI'
  | loop level =>
      obtain ⟨dir, entries⟩ := level
      simp only [InBounds, hc] at hI'
      obtain ⟨hstack, s, ht⟩ := hI'
      cases entries with
      | nil => exact hdone ⟨_, step_end posix fscb hc, hstack, trivial⟩
      | cons entry entries =>
          by_cases hdir : entry.d_type = .DT_DIR
          · cases hdot : isDot entry.d_name with
            | true =>
                have hskip : entry.skipped = true := by simp [Dirent.skipped, hdir, hdot]
                exact hdone ⟨_, step_skipped posix fscb hc hskip, hstack, s, ht⟩
            | false =>
                have hfit := hG dir entry entries s hc hdir hdot ht
                exact hdone (inBounds_directory posix fscb hI hc hdir hdot ht hfit)
          · exact hdone (inBounds_file posix fscb hI hc hdir ht)

/-- If it does not fit, the step goes beyond the buffer. -/
theorem fault_of_not_fits (hG : ¬ DirectoryFits w) :
    ∃ w', recursedirectoriesStep posix fscb w = some w' ∧ w'.control = .fault := by
  simp only [DirectoryFits, not_forall, Nat.not_le] at hG
  obtain ⟨dir, entry, entries, s, hc, hdir, hdot, ht, hover⟩ := hG
  exact ⟨_, step_directory_overflow posix fscb hc hdir hdot ht hover, rfl⟩

/-! ## Runs -/

/-- A result other than 0 comes out of every level unchanged. -/
theorem returns_error {res : ℤ} (hres : res ≠ 0) (stack : List Frame) {w : Walk υ}
    (hst : w.stack = stack) (hc : w.control = .ret res)
    (hI : ∀ frame ∈ stack, frame.path_pos < filesystemPathMaxlen) :
    ∃ w' ∈ eval (recursedirectoriesStep posix fscb) w, w'.control = .ret res ∧ w'.stack = [] := by
  induction stack generalizing w with
  | nil => exact ⟨w, mem_eval.mpr ⟨.refl, step_halt posix fscb hc hst⟩, hc, hst⟩
  | cons frame stack ih =>
      obtain ⟨path, -, hstep⟩ := step_return posix fscb hc hst (hI frame List.mem_cons_self)
      rw [if_pos hres] at hstep
      rw [reaches_eval (reaches_step hstep)]
      apply ih rfl rfl
      intro f hf
      exact hI f (List.mem_cons_of_mem _ hf)

/-- A name that does not fit makes the walk return -1. -/
theorem returns_unfit (hI : InBounds w) (hunfit : UnfitFile w) :
    ∃ w' ∈ eval (recursedirectoriesStep posix fscb) w, w'.control = .ret (-1) ∧ w'.stack = [] := by
  obtain ⟨dir, entry, entries, s, hc, hdir, ht, hfit⟩ := hunfit
  obtain ⟨path, -, hstep⟩ := step_file_unfit posix fscb hc hdir ht (Nat.le_of_not_lt hfit)
  rw [reaches_eval (reaches_step hstep)]
  exact returns_error posix fscb (by decide) w.stack rfl rfl hI.1

/-- The walk makes no access outside the buffer, and returns -1 when it meets an entry
other than a directory whose path does not fit. -/
structure StaysInBuffer (start : Walk υ) : Prop where
  safe : ∀ w, Reaches (recursedirectoriesStep posix fscb) start w → w.control ≠ .fault
  unfit : ∀ w, Reaches (recursedirectoriesStep posix fscb) start w → UnfitFile w →
    ∃ w' ∈ eval (recursedirectoriesStep posix fscb) w, w'.control = .ret (-1) ∧ w'.stack = []

/-- **The bounds of the path buffer.**  For every tree, every callback and every string
in the caller's buffer, the walk stays in the buffer iff the string is not empty and
every sub-directory it meets has a name that fits. -/
theorem recursedirectories_in_bounds_iff (ht : path.text = some s) (user_data : υ) :
    StaysInBuffer posix fscb (recursedirectoriesStart path user_data) ↔
      s ≠ [] ∧ ∀ w, Reaches (recursedirectoriesStep posix fscb)
        (recursedirectoriesStart path user_data) w → DirectoryFits w := by
  by_cases hs : s = []
  · apply iff_of_false _ fun h => h.1 hs
    rintro ⟨hsafe, -⟩
    have hstep := step_call_empty posix fscb (w := recursedirectoriesStart path user_data) rfl
      (by rw [← hs]; exact ht)
    exact hsafe _ (reaches_step hstep) rfl
  · have hstart : InBounds (recursedirectoriesStart path user_data) := ⟨nofun, s, ht, hs⟩
    have hgood : ∀ w : Walk υ, InBounds w → ¬ w.control = .fault := by
      intro w hI hc
      simp [InBounds, hc] at hI
    have hkeep : ∀ w w' : Walk υ, InBounds w → DirectoryFits w →
        w' ∈ recursedirectoriesStep posix fscb w → InBounds w' :=
      fun w w' hI hG hstep => inBounds_step posix fscb hI hG hstep
    have hiff := safe_iff_guard hstart hgood hkeep fun w _ hG => fault_of_not_fits posix fscb hG
    constructor
    · rintro ⟨hsafe, -⟩
      exact ⟨hs, hiff.mp hsafe⟩
    · rintro ⟨-, hfits⟩
      refine ⟨hiff.mpr hfits, fun w hrun hunfit => ?_⟩
      have hI : InBounds w := Guarded.invariant hkeep hstart (guarded_of_reaches hfits hrun)
      exact returns_unfit posix fscb hI hunfit

/-- The directory `dir` with one sub-directory. -/
def loneDirectory (dir : Path) (entry : Dirent) : Posix where
  opendir path := if path = dir then some [entry] else none
  lstat _ := some .DT_DIR

/-- A sub-directory with a name that is too long is a fault at the second step. -/
theorem fault_of_loneDirectory (fscb : FilesystemCallback υ) {entry : Dirent} (user_data : υ)
    (ht : path.text = some s) (hs : s ≠ []) (hdir : entry.d_type = .DT_DIR)
    (hdot : isDot entry.d_name = false)
    (hover : filesystemPathMaxlen < (trimSlash s).length + 1 + entry.d_name.length + 1) :
    ∃ w, Reaches (recursedirectoriesStep (loneDirectory (trimSlash s) entry) fscb)
      (recursedirectoriesStart path user_data) w ∧ w.control = .fault := by
  obtain ⟨path', htext, hstep₁⟩ := step_call (loneDirectory (trimSlash s) entry) fscb
    (w := recursedirectoriesStart path user_data) rfl ht hs
  have hopen : (loneDirectory (trimSlash s) entry).opendir (trimSlash s) = some [entry] :=
    if_pos rfl
  simp only [hopen] at hstep₁
  have hstep₂ := step_directory_overflow (loneDirectory (trimSlash s) entry) fscb
    (w := { recursedirectoriesStart path user_data with
      path := path'
      opened := [] ++ [trimSlash s]
      control := .loop ⟨trimSlash (path.text.getD []), [entry]⟩ }) rfl hdir hdot htext hover
  exact ⟨_, (reaches_step hstep₁).trans (reaches_step hstep₂), rfl⟩

/-- A path of 800 bytes, in four components. -/
def longPath : Path := (List.replicate 4 (slash :: List.replicate 199 97)).flatten

/-- The path has 800 characters. -/
theorem length_longPath : longPath.length = 800 := by decide +kernel

/-- None of them is NUL. -/
theorem zero_notMem_longPath : (0 : UInt8) ∉ longPath := by decide +kernel

def longBuffer : PathBuffer :=
  .ofText longPath (by rw [length_longPath]; decide)

/-- A sub-directory with a name of 255 bytes. -/
def longEntry : Dirent :=
  .of (List.replicate 255 98) .DT_DIR (by decide +kernel)

/-- The callback that does nothing. -/
def ignore : FilesystemCallback Unit := fun _ _ => ⟨0, (), id⟩

/-- A path of 800 characters and an entry of a directory under it. -/
theorem recursedirectories_in_bounds_long :
    StaysInBuffer (loneDirectory longPath longEntry) ignore
        (recursedirectoriesStart longBuffer ()) ↔
      longPath ≠ [] ∧ ∀ w,
        Reaches (recursedirectoriesStep (loneDirectory longPath longEntry) ignore)
          (recursedirectoriesStart longBuffer ()) w → DirectoryFits w :=
  recursedirectories_in_bounds_iff (loneDirectory longPath longEntry) ignore
    (CharBuffer.text_ofText zero_notMem_longPath) ()

/-- An empty path is read at index -1, and under the long path the name of the
sub-directory is copied past the end of the buffer. -/
theorem recursedirectories_out_of_bounds :
    (∃ w, Reaches (recursedirectoriesStep (loneDirectory longPath longEntry) ignore)
      (recursedirectoriesStart (.ofText [] (by decide)) ()) w ∧ w.control = .fault) ∧
    (∃ w, Reaches (recursedirectoriesStep (loneDirectory longPath longEntry) ignore)
      (recursedirectoriesStart longBuffer ()) w ∧ w.control = .fault) := by
  constructor
  · have hempty : (CharBuffer.ofText [] (by decide) : PathBuffer).text = some [] :=
      CharBuffer.text_ofText (by decide)
    have hstep := step_call_empty (loneDirectory longPath longEntry) ignore
      (w := recursedirectoriesStart (.ofText [] (by decide)) ()) rfl hempty
    exact ⟨_, reaches_step hstep, rfl⟩
  · have ht : longBuffer.text = some longPath := CharBuffer.text_ofText zero_notMem_longPath
    have hne : longPath ≠ [] := List.ne_nil_of_length_pos (by rw [length_longPath]; decide)
    have htrim : trimSlash longPath = longPath := if_neg (by decide +kernel)
    have hname : longEntry.d_name.length = 255 := by decide +kernel
    have hfault := fault_of_loneDirectory ignore () ht hne (show longEntry.d_type = _ from rfl)
      (by decide +kernel) (by rw [htrim, length_longPath, hname]; decide)
    rw [htrim] at hfault
    exact hfault

end AzureMetadata.Analysis
