import AzureMetadata.Model.Recursedirectories

/-!
# The steps of the directory walk

One lemma for each thing a step of `recursedirectoriesStep` can do, in terms of the
string `s` the path buffer holds before it.  The proofs about whole walks use these and
never unfold the step.
-/

set_option autoImplicit false

namespace AzureMetadata.Analysis

open Clib AzureMetadata.Model

variable {υ : Type} (posix : Posix) (fscb : FilesystemCallback υ) {w : Walk υ}
  {s dir : Path} {entry : Dirent} {entries : List Dirent}

/-- The callback leaves the path buffer alone. -/
def Polite (fscb : FilesystemCallback υ) : Prop :=
  ∀ user_data path, (fscb user_data path).scribble = id

/-! ## Paths -/

/-- The slash is not NUL. -/
theorem slash_ne_zero : slash ≠ 0 := by decide

/-- The path of an entry is not empty. -/
theorem entryPath_ne_nil (dir name : Path) : entryPath dir name ≠ [] := by
  simp [entryPath]

/-- The path of an entry does not end in `/`: a name has no `/` and is not empty. -/
theorem trimSlash_entryPath (dir : Path) (entry : Dirent) :
    trimSlash (entryPath dir entry.d_name) = entryPath dir entry.d_name := by
  apply if_neg
  intro hlast
  apply entry.noSlash
  have hne := entry.nonempty
  have hsplit : entryPath dir entry.d_name = dir ++ [slash] ++ entry.d_name := by
    simp [entryPath]
  rw [hsplit, List.getLast?_append_of_ne_nil _ hne] at hlast
  exact List.mem_of_getLast? hlast

/-! ## The call and the return -/

/-- A NUL over the last character cuts it off. -/
theorem text_store_last {path : PathBuffer} {s : Path} (ht : path.text = some s) (hs : s ≠ []) :
    ∃ path', path.store ((s.length : ℤ) - 1) [0] = some path' ∧
      path'.text = some s.dropLast := by
  have happend : s = s.dropLast ++ [s.getLast hs] := (List.dropLast_append_getLast hs).symm
  have htake : path.bytes.take s.dropLast.length = s.dropLast :=
    CharBuffer.take_of_text (t := [s.getLast hs]) (by rw [← happend, ht])
  have hzero : (0 : UInt8) ∉ s.dropLast := fun h0 =>
    CharBuffer.zero_notMem_of_text ht (List.dropLast_subset s h0)
  have hpos := List.length_pos_of_ne_nil hs
  have hlen := CharBuffer.length_lt_of_text ht
  have hidx : (s.length : ℤ) - 1 = (s.dropLast.length : ℕ) := by
    rw [List.length_dropLast]
    omega
  rw [hidx]
  exact CharBuffer.text_store_nul hzero htake (by rw [List.length_dropLast]; omega)

/-- So a slash at the end is cut off. -/
theorem cutSlash_last {path : PathBuffer} {s : Path} (ht : path.text = some s) (hs : s ≠ []) :
    ∃ path', cutSlash path ((s.length : ℤ) - 1) = some path' ∧
      path'.text = some (trimSlash s) := by
  have hget := CharBuffer.get_last ht hs
  by_cases hlast : s.getLast hs = slash
  · obtain ⟨path', hst, htext⟩ := text_store_last ht hs
    refine ⟨path', by simp [cutSlash, hget, hlast, hst], ?_⟩
    rw [htext, trimSlash, List.getLast?_eq_some_getLast hs, if_pos (by rw [hlast])]
  · refine ⟨path, by simp [cutSlash, hget, hlast], ?_⟩
    rw [ht, trimSlash, List.getLast?_eq_some_getLast hs, if_neg (by simpa using hlast)]

/-- Entry to a call: a trailing `/` is cut off, and the directory is listed. -/
theorem step_call (hc : w.control = .call dir) (ht : w.path.text = some s) (hs : s ≠ []) :
    ∃ path, path.text = some (trimSlash s) ∧ recursedirectoriesStep posix fscb w = some { w with
      path
      opened := w.opened ++ [trimSlash s]
      control := match posix.opendir (trimSlash s) with
        | none => .ret (-1)
        | some entries => .loop ⟨dir, entries⟩ } := by
  obtain ⟨path, hcut, htext⟩ := cutSlash_last ht hs
  refine ⟨path, htext, ?_⟩
  cases ho : posix.opendir (trimSlash s) <;>
    simp [recursedirectoriesStep, hc, enter, ht, hcut, htext, ho, orFault]

/-- The empty path is read before its start. -/
theorem step_call_empty (hc : w.control = .call dir) (ht : w.path.text = some []) :
    recursedirectoriesStep posix fscb w = some { w with control := .fault } := by
  have hget : w.path.get (-1) = none := CharBuffer.get_negative (by decide)
  simp [recursedirectoriesStep, hc, enter, cutSlash, ht, hget, orFault]

/-- A return cuts the path back, and goes on unless it stops the walk. -/
theorem step_return {res : ℤ} {frame : Frame} {stack : List Frame} (hc : w.control = .ret res)
    (hst : w.stack = frame :: stack) (hpos : frame.path_pos < filesystemPathMaxlen) :
    ∃ path, w.path.store frame.path_pos [0] = some path ∧
      recursedirectoriesStep posix fscb w = some { w with
        path
        stack
        control := if res ≠ 0 then .ret res else .loop frame.level } := by
  obtain ⟨path, hpath, -⟩ := CharBuffer.store_eq_some w.path frame.path_pos [0] hpos
  refine ⟨path, hpath, ?_⟩
  by_cases hres : res = 0 <;>
    simp [recursedirectoriesStep, hc, hst, resume, hpath, hres, orFault]

/-- The outermost return ends the walk. -/
theorem step_halt {res : ℤ} (hc : w.control = .ret res) (hst : w.stack = []) :
    recursedirectoriesStep posix fscb w = none := by
  simp [recursedirectoriesStep, hc, hst]

/-- The end of a listing (line 171). -/
theorem step_end (hc : w.control = .loop ⟨dir, []⟩) :
    recursedirectoriesStep posix fscb w = some { w with control := .ret 0 } := by
  simp [recursedirectoriesStep, hc]

/-! ## Directory entries -/

/-- The entries `.` and `..` are skipped. -/
theorem step_skipped (hc : w.control = .loop ⟨dir, entry :: entries⟩)
    (hskip : entry.skipped = true) :
    recursedirectoriesStep posix fscb w = some { w with control := .loop ⟨dir, entries⟩ } := by
  simp only [Dirent.skipped, decide_eq_true_eq] at hskip
  simp [recursedirectoriesStep, hc, hskip.1, hskip.2, visitDirectory, orFault]

/-- A sub-directory whose path fits in the buffer. -/
theorem step_directory (hc : w.control = .loop ⟨dir, entry :: entries⟩)
    (hdir : entry.d_type = .DT_DIR) (hdot : isDot entry.d_name = false)
    (ht : w.path.text = some s)
    (hfit : s.length + 1 + entry.d_name.length + 1 ≤ filesystemPathMaxlen) :
    ∃ path, path.text = some (entryPath s entry.d_name) ∧
      recursedirectoriesStep posix fscb w = some (match posix.lstat (entryPath s entry.d_name) with
        | none => { w with path, control := .loop ⟨dir, entries⟩ }
        | some status =>
          if status = .DT_LNK then { w with path, control := .loop ⟨dir, entries⟩ }
          else { w with
            path
            stack := ⟨⟨dir, entries⟩, s.length⟩ :: w.stack
            control := .call (entryPath dir entry.d_name) }) := by
  obtain ⟨path₁, path₂, hst₁, hst₂, htext⟩ :=
    CharBuffer.text_store_append ht slash_ne_zero entry.noNul hfit
  refine ⟨path₂, htext, ?_⟩
  rw [← entryPath] at htext
  cases hl : posix.lstat (entryPath s entry.d_name) with
  | none =>
      simp [recursedirectoriesStep, hc, hdir, visitDirectory, hdot, ht, hst₁, hst₂, htext, hl,
        orFault]
  | some status =>
      by_cases hlnk : status = .DT_LNK <;>
        simp [recursedirectoriesStep, hc, hdir, visitDirectory, hdot, ht, hst₁, hst₂, htext, hl,
          hlnk, orFault]

/-- A sub-directory whose path does not fit is copied past the end of the buffer. -/
theorem step_directory_overflow (hc : w.control = .loop ⟨dir, entry :: entries⟩)
    (hdir : entry.d_type = .DT_DIR) (hdot : isDot entry.d_name = false)
    (ht : w.path.text = some s)
    (hover : filesystemPathMaxlen < s.length + 1 + entry.d_name.length + 1) :
    recursedirectoriesStep posix fscb w = some { w with control := .fault } := by
  obtain ⟨path, hst, -⟩ := CharBuffer.store_eq_some w.path s.length [slash]
    (CharBuffer.length_lt_of_text ht)
  have hnone : path.store ((s.length : ℤ) + 1) (entry.d_name ++ [0]) = none := by
    apply CharBuffer.store_eq_none (i := s.length + 1)
    rw [List.length_append, List.length_singleton]
    omega
  simp [recursedirectoriesStep, hc, hdir, visitDirectory, hdot, ht, hst, hnone, orFault]

/-! ## Other entries -/

/-- A name that does not fit (lines 157-160). -/
theorem step_file_unfit (hc : w.control = .loop ⟨dir, entry :: entries⟩)
    (hdir : entry.d_type ≠ .DT_DIR) (ht : w.path.text = some s)
    (hover : filesystemPathMaxlen ≤ s.length + 1 + entry.d_name.length + 1) :
    ∃ path, w.path.store s.length [slash] = some path ∧
      recursedirectoriesStep posix fscb w = some { w with path, control := .ret (-1) } := by
  obtain ⟨path, hst, -⟩ := CharBuffer.store_eq_some w.path s.length [slash]
    (CharBuffer.length_lt_of_text ht)
  refine ⟨path, hst, ?_⟩
  simp [recursedirectoriesStep, hc, hdir, visitFile, ht, hst, hover, orFault]

/-- An entry whose path fits is passed to the callback, and the NUL after the path of
the directory is put back. -/
theorem step_file (hc : w.control = .loop ⟨dir, entry :: entries⟩)
    (hdir : entry.d_type ≠ .DT_DIR) (ht : w.path.text = some s)
    (hfit : s.length + 1 + entry.d_name.length + 1 < filesystemPathMaxlen) :
    ∃ path path', path.text = some (entryPath s entry.d_name) ∧
      ((fscb w.user_data (entryPath s entry.d_name)).scribble path).store s.length [0] =
        some path' ∧
      recursedirectoriesStep posix fscb w = some { w with
        path := path'
        user_data := (fscb w.user_data (entryPath s entry.d_name)).user_data
        calls := w.calls ++ [⟨dir, entry.d_name, entryPath s entry.d_name⟩]
        control :=
          if (fscb w.user_data (entryPath s entry.d_name)).rc ≠ 0 then
            .ret (fscb w.user_data (entryPath s entry.d_name)).rc
          else .loop ⟨dir, entries⟩ } := by
  obtain ⟨path₁, path₂, hst₁, hst₂, htext⟩ :=
    CharBuffer.text_store_append ht slash_ne_zero entry.noNul hfit.le
  rw [← entryPath] at htext
  set reply := fscb w.user_data (entryPath s entry.d_name) with hreply
  obtain ⟨path₃, hst₃, -⟩ := CharBuffer.store_eq_some (reply.scribble path₂) s.length [0]
    (CharBuffer.length_lt_of_text ht)
  refine ⟨path₂, path₃, htext, hst₃, ?_⟩
  have hno : ¬ filesystemPathMaxlen ≤ s.length + 1 + entry.d_name.length + 1 := by omega
  by_cases hrc : reply.rc = 0 <;>
    simp [recursedirectoriesStep, hc, hdir, visitFile, ht, hst₁, hst₂, htext, hno, ← hreply,
      hst₃, hrc, orFault]

/-- With a callback that leaves the buffer alone, the string is back. -/
theorem step_file_polite {fscb : FilesystemCallback υ} (hpolite : Polite fscb)
    (hc : w.control = .loop ⟨dir, entry :: entries⟩)
    (hdir : entry.d_type ≠ .DT_DIR) (ht : w.path.text = some s)
    (hfit : s.length + 1 + entry.d_name.length + 1 < filesystemPathMaxlen) :
    ∃ path, path.text = some s ∧ recursedirectoriesStep posix fscb w = some { w with
      path
      user_data := (fscb w.user_data (entryPath s entry.d_name)).user_data
      calls := w.calls ++ [⟨dir, entry.d_name, entryPath s entry.d_name⟩]
      control :=
        if (fscb w.user_data (entryPath s entry.d_name)).rc ≠ 0 then
          .ret (fscb w.user_data (entryPath s entry.d_name)).rc
        else .loop ⟨dir, entries⟩ } := by
  obtain ⟨path, path', htext, hst, hstep⟩ := step_file posix fscb hc hdir ht hfit
  rw [hpolite] at hst
  obtain ⟨path'', hst', htext'⟩ := CharBuffer.text_store_nul (CharBuffer.zero_notMem_of_text ht)
    (CharBuffer.take_of_text htext) (CharBuffer.length_lt_of_text ht)
  have hsame : path'' = path' := Option.some.inj (hst'.symm.trans hst)
  exact ⟨path', by rw [← hsame, htext'], hstep⟩

end AzureMetadata.Analysis
