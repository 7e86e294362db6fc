import AzureMetadata.Analysis.WalkSteps
import AzureMetadata.Clib.Transition
import AzureMetadata.Interface.DirectoryTree

/-!
# The walk of a tree that fits

`walk_listing` is the induction over the tree: a walk that stands before the entries of a
listing, with the path of their directory in the buffer, comes to the return of that call
with the same path in the buffer, having handed the paths of the tree to the callback as
`deliver` does.
-/

set_option autoImplicit false

namespace AzureMetadata.Analysis

open Clib AzureMetadata.Model AzureMetadata.Interface StateTransition

variable {υ : Type} {posix : Posix} {fscb : FilesystemCallback υ} {w w' w'' : Walk υ}
  {dir : Path} {t : Listing}

/-- The walk has gone from the loop over the tree `t` to the return of that call. -/
structure Delivers (posix : Posix) (fscb : FilesystemCallback υ) (dir : Path) (t : Listing)
    (w w' : Walk υ) : Prop where
  reaches : Reaches (recursedirectoriesStep posix fscb) w w'
  control : w'.control = .ret (deliver fscb w.user_data (t.paths dir)).rc
  stack : w'.stack = w.stack
  text : w'.path.text = some dir
  user_data : w'.user_data = (deliver fscb w.user_data (t.paths dir)).user_data
  calls : w'.calls.map Call.path =
    w.calls.map Call.path ++ (deliver fscb w.user_data (t.paths dir)).paths
  opened : ∀ p ∈ w'.opened, p ∈ w.opened ∨ p ∈ t.directories dir

/-- The walk goes into a sub-directory and comes back: to the rest of the listing, or to
the return if the callback stopped it. -/
theorem walk_subdirectory {entry : Dirent} {entries : List Dirent} {children : Listing}
    (hc : w.control = .loop ⟨dir, entry :: entries⟩) (hdir : entry.d_type = .DT_DIR)
    (hdot : isDot entry.d_name = false) (ht : w.path.text = some dir)
    (hfit : Listing.FitsIn dir entry)
    (hlstat : posix.lstat (entryPath dir entry.d_name) = some .DT_DIR)
    (hopen : posix.opendir (entryPath dir entry.d_name) = some children.dirents)
    (hchildren : ∀ {w : Walk υ},
      w.control = .loop ⟨entryPath dir entry.d_name, children.dirents⟩ →
      w.path.text = some (entryPath dir entry.d_name) →
      ∃ w', Delivers posix fscb (entryPath dir entry.d_name) children w w') :
    let d := deliver fscb w.user_data (children.paths (entryPath dir entry.d_name))
    ∃ w', Reaches (recursedirectoriesStep posix fscb) w w' ∧
      w'.control = (if d.rc ≠ 0 then .ret d.rc else .loop ⟨dir, entries⟩) ∧
      w'.stack = w.stack ∧ w'.path.text = some dir ∧ w'.user_data = d.user_data ∧
      w'.calls.map Call.path = w.calls.map Call.path ++ d.paths ∧
      ∀ p ∈ w'.opened, p ∈ w.opened ∨ p = entryPath dir entry.d_name ∨
        p ∈ children.directories (entryPath dir entry.d_name) := by
  intro d
  obtain ⟨path₁, htext₁, hstep₁⟩ :=
    step_directory posix fscb hc hdir hdot ht (le_of_lt hfit)
  simp only [hlstat, reduceCtorEq, if_false] at hstep₁
  obtain ⟨path₂, htext₂, hstep₂⟩ := step_call posix fscb (w := { w with
    path := path₁
    stack := ⟨⟨dir, entries⟩, dir.length⟩ :: w.stack
    control := .call (entryPath dir entry.d_name) }) rfl htext₁ (entryPath_ne_nil _ _)
  rw [trimSlash_entryPath] at htext₂ hstep₂
  simp only [hopen] at hstep₂
  obtain ⟨w₃, hd⟩ := hchildren (w := { w with
    path := path₂
    stack := ⟨⟨dir, entries⟩, dir.length⟩ :: w.stack
    opened := w.opened ++ [entryPath dir entry.d_name]
    control := .loop ⟨entryPath dir entry.d_name, children.dirents⟩ }) rfl htext₂
  have hlt := CharBuffer.length_lt_of_text ht
  obtain ⟨path₄, hst₄, hstep₄⟩ :=
    step_return posix fscb hd.control hd.stack hlt
  -- The path of the sub-directory is cut back to the path of the directory.
  obtain ⟨path₅, hst₅, htext₅⟩ := CharBuffer.text_store_nul (CharBuffer.zero_notMem_of_text ht)
    (CharBuffer.take_of_text hd.text) hlt
  have hsame : path₅ = path₄ := Option.some.inj (hst₅.symm.trans hst₄)
  have hrun := (reaches_step hstep₁).trans
    ((reaches_step hstep₂).trans (hd.reaches.trans (reaches_step hstep₄)))
  refine ⟨_, hrun, rfl, rfl, by rw [← hsame]; exact htext₅, hd.user_data, hd.calls, ?_⟩
  intro p hp
  cases hd.opened p hp with
  | inl hold =>
      cases List.mem_append.mp hold with
      | inl hold => exact Or.inl hold
      | inr hself => exact Or.inr (Or.inl (List.mem_singleton.mp hself))
  | inr hnew => exact Or.inr (Or.inr hnew)

/-- The walk of a listing, for every tree and from any stack of waiting calls. -/
theorem walk_listing (posix : Posix) (hpolite : Polite fscb) (t : Listing) {dir : Path} {w : Walk υ}
    (hc : w.control = .loop ⟨dir, t.dirents⟩) (ht : w.path.text = some dir)
    (hagree : t.Agrees posix dir) (hfit : t.Fits dir) : ∃ w', Delivers posix fscb dir t w w' := by
  induction t generalizing dir w with
  | nil =>
      have hstep := step_end posix fscb hc
      exact ⟨_, reaches_step hstep, rfl, rfl, ht, rfl, by simp [Listing.paths, deliver],
        fun p hp => Or.inl hp⟩
  | skipped entry hskip rest ih =>
      have hstep := step_skipped posix fscb hc hskip
      obtain ⟨w', hd⟩ :=
        ih (w := { w with control := .loop ⟨dir, rest.dirents⟩ }) rfl ht hagree hfit
      exact ⟨w', (reaches_step hstep).trans hd.reaches, hd.control, hd.stack, hd.text,
        hd.user_data, hd.calls, hd.opened⟩
  | file entry hdir rest ih =>
      obtain ⟨path, htext, hstep⟩ := step_file_polite posix hpolite hc hdir ht hfit.1
      by_cases hrc : (fscb w.user_data (entryPath dir entry.d_name)).rc = 0
      · rw [if_neg (not_not.mpr hrc)] at hstep
        obtain ⟨w', hd⟩ := ih (w := { w with
          path
          user_data := (fscb w.user_data (entryPath dir entry.d_name)).user_data
          calls := w.calls ++ [⟨dir, entry.d_name, entryPath dir entry.d_name⟩]
          control := .loop ⟨dir, rest.dirents⟩ }) rfl htext hagree hfit.2
        refine ⟨w', (reaches_step hstep).trans hd.reaches, ?_, hd.stack, hd.text, ?_, ?_, hd.opened⟩
        · simpa [Listing.paths, deliver, hrc] using hd.control
        · simpa [Listing.paths, deliver, hrc] using hd.user_data
        · simpa [Listing.paths, deliver, hrc] using hd.calls
      · rw [if_pos hrc] at hstep
        refine ⟨_, reaches_step hstep, ?_, rfl, htext, ?_, ?_, fun p hp => Or.inl hp⟩
        · simp [Listing.paths, deliver, hrc]
        · simp [Listing.paths, deliver, hrc]
        · simp [Listing.paths, deliver, hrc]
  | directory entry hdir hdot children rest ihc ihr =>
      obtain ⟨hlstat, hopen, hac, har⟩ := hagree
      obtain ⟨hf, hfc, hfr⟩ := hfit
      obtain ⟨w₁, hrun, hcontrol, hstack, htext, huser, hcalls, hopened⟩ :=
        walk_subdirectory hc hdir hdot ht hf hlstat hopen fun h₁ h₂ => ihc h₁ h₂ hac hfc
      have hpaths : (Listing.directory entry hdir hdot children rest).paths dir =
          children.paths (entryPath dir entry.d_name) ++ rest.paths dir := rfl
      have hlisted : ∀ p, p = entryPath dir entry.d_name ∨
          p ∈ children.directories (entryPath dir entry.d_name) →
          p ∈ (Listing.directory entry hdir hdot children rest).directories dir := by
        rintro p (hself | hbelow)
        · simp [Listing.directories, hself]
        · simp [Listing.directories, hbelow]
      have happend := deliver_append fscb w.user_data
        (children.paths (entryPath dir entry.d_name)) (rest.paths dir)
      by_cases hrc : (deliver fscb w.user_data (children.paths (entryPath dir entry.d_name))).rc = 0
      · rw [if_neg (not_not.mpr hrc)] at hcontrol happend
        obtain ⟨w', hd⟩ := ihr hcontrol htext har hfr
        refine ⟨w', hrun.trans hd.reaches, ?_, hd.stack.trans hstack, hd.text, ?_, ?_, ?_⟩
        · rw [hpaths, happend, hd.control, huser]
        · rw [hpaths, happend, hd.user_data, huser]
        · rw [hpaths, happend, hd.calls, hcalls, huser, List.append_assoc]
        · intro p hp
          cases hd.opened p hp with
          | inl hold => exact (hopened p hold).imp_right (hlisted p)
          | inr hnew => exact Or.inr (by simp [Listing.directories, hnew])
      · rw [if_pos hrc] at hcontrol happend
        refine ⟨w₁, hrun, ?_, hstack, htext, ?_, ?_, ?_⟩
        · rw [hpaths, happend, hcontrol]
        · rw [hpaths, happend, huser]
        · rw [hpaths, happend, hcalls]
        · intro p hp
          exact (hopened p hp).imp_right (hlisted p)

/-- **The walk of a tree.**  From any non-empty path, with a callback that leaves the
path buffer alone, the walk of a tree that can be listed and fits in the buffer ends.  It
has called the callback with the paths of the entries that are not directories, in order
and up to the first result that is not 0, and returns that result or 0; it has listed
no path but the given one and its sub-directories, so it has followed no link. -/
theorem recursedirectories_delivers (posix : Posix) (hpolite : Polite fscb) {path : PathBuffer}
    {s : Path} (ht : path.text = some s) (hs : s ≠ []) (t : Listing)
    (hopen : posix.opendir (trimSlash s) = some t.dirents) (hagree : t.Agrees posix (trimSlash s))
    (hfit : t.Fits (trimSlash s)) (user_data : υ) :
    let d := deliver fscb user_data (t.paths (trimSlash s))
    ∃ w ∈ eval (recursedirectoriesStep posix fscb) (recursedirectoriesStart path user_data),
      w.control = .ret d.rc ∧ w.stack = [] ∧ w.calls.map Call.path = d.paths ∧
      w.user_data = d.user_data ∧ w.path.text = some (trimSlash s) ∧
      ∀ p ∈ w.opened, p = trimSlash s ∨ p ∈ t.directories (trimSlash s) := by
  intro d
  have hstart : (recursedirectoriesStart path user_data).control = .call (trimSlash s) := by
    rw [recursedirectoriesStart, ht, Option.getD_some]
  obtain ⟨path₁, htext₁, hstep⟩ := step_call posix fscb hstart ht hs
  simp only [hopen] at hstep
  obtain ⟨w, hd⟩ := walk_listing posix hpolite t (w := {
    recursedirectoriesStart path user_data with
    path := path₁
    opened := [] ++ [trimSlash s]
    control := .loop ⟨trimSlash s, t.dirents⟩ }) rfl htext₁ hagree hfit
  have hhalt := step_halt posix fscb hd.control hd.stack
  refine ⟨w, mem_eval.mpr ⟨(reaches_step hstep).trans hd.reaches, hhalt⟩, hd.control, hd.stack,
    hd.calls, hd.user_data, hd.text, ?_⟩
  intro p hp
  cases hd.opened p hp with
  | inl hself => exact Or.inl (by simpa using hself)
  | inr hbelow => exact Or.inr hbelow

/-- The directory `d` with the sub-directory `d/x`, in which there are a file `f` and a
symbolic link `l`, and a file `g`. -/
def smallTree : Listing :=
  .skipped (.of [46] .DT_DIR rfl) rfl
    (.directory (.of [120] .DT_DIR rfl) rfl rfl
      (.file (.of [102] .DT_REG rfl) (by decide)
        (.file (.of [108] .DT_LNK rfl) (by decide) .nil))
      (.file (.of [103] .DT_REG rfl) (by decide) .nil))

def smallPosix : Posix where
  opendir path :=
    if path = [100] then some smallTree.dirents
    else if path = [100, 47, 120] then
      some [.of [102] .DT_REG rfl, .of [108] .DT_LNK rfl]
    else none
  lstat path := if path = [100, 47, 120] then some .DT_DIR else none

/-- The callback that stops at its second call. -/
def stopSecond : FilesystemCallback ℕ := fun n _ => ⟨if n = 1 then 5 else 0, n + 1, id⟩

/-- The theorem for the path `d/`: the walk stops at the link, with the callback's 5. -/
theorem recursedirectories_small :
    ∃ w ∈ eval (recursedirectoriesStep smallPosix stopSecond)
        (recursedirectoriesStart (.ofText [100, 47] (by decide)) 0),
      w.control = .ret 5 ∧ w.stack = [] ∧
      w.calls.map Call.path = [[100, 47, 120, 47, 102], [100, 47, 120, 47, 108]] ∧
      w.user_data = 2 ∧ w.path.text = some [100] ∧
      ∀ p ∈ w.opened, p = [100] ∨ p ∈ smallTree.directories [100] :=
  recursedirectories_delivers smallPosix (fun _ _ => rfl) (CharBuffer.text_ofText (by decide))
    (by decide) smallTree rfl ⟨rfl, rfl, trivial, trivial⟩
    ⟨by decide, ⟨by decide, by decide, trivial⟩, by decide, trivial⟩ 0

end AzureMetadata.Analysis
