import AzureMetadata.Clib.CharBuffer
import AzureMetadata.Clib.Files

/-!
# The directory walk of `src/filesystem.c`

`filesystem_recursedirectories` calls itself for each sub-directory with one path buffer
for all levels, so it is modelled as a machine: `Walk` is its state, with a stack of the
calls that wait for the one they made, and `recursedirectoriesStep` goes from one
`readdir` or `return` to the next.  An access outside the path buffer is the control
state `fault`.

What the operating system has is a `Posix`: the entries of each directory in the order
`readdir` returns them, and the type of what `lstat` describes.  `opened` and `calls`
record what was asked of it and of the callback; the `dir` of a level is the path of the
directory it lists, whatever the buffer holds.
-/

set_option autoImplicit false

namespace AzureMetadata.Model

open Clib

/-- `FILESYSTEM_PATH_MAXLEN` (filesystem.h:4). -/
def filesystemPathMaxlen : ℕ := 1024

abbrev PathBuffer := CharBuffer filesystemPathMaxlen

/-- The character `/`. -/
def slash : UInt8 := 47

/-- The path of an entry of a directory. -/
def entryPath (dir name : Path) : Path := dir ++ slash :: name

/-- The types of a directory entry. -/
inductive DType
  | DT_UNKNOWN
  | DT_FIFO
  | DT_CHR
  | DT_DIR
  | DT_BLK
  | DT_REG
  | DT_LNK
  | DT_SOCK
deriving DecidableEq

/-- `struct dirent`, with what holds of every file name. -/
structure Dirent where
  d_name : List UInt8
  d_type : DType
  nonempty : d_name ≠ []
  noNul : 0 ∉ d_name
  noSlash : slash ∉ d_name
  length_le : d_name.length ≤ 255

/-- Whether a file can have that name. -/
def validName (name : List UInt8) : Bool :=
  name ≠ [] ∧ 0 ∉ name ∧ slash ∉ name ∧ name.length ≤ 255

/-- An entry with a name that has been checked. -/
def Dirent.of (d_name : List UInt8) (d_type : DType) (h : validName d_name = true) : Dirent :=
  have hname := of_decide_eq_true h
  ⟨d_name, d_type, hname.1, hname.2.1, hname.2.2.1, hname.2.2.2⟩

/-- What `opendir` followed by `readdir`, and `lstat`, find at a path. -/
structure Posix where
  opendir : Path → Option (List Dirent)
  lstat : Path → Option DType

/-- What a callback leaves: its result, its own data, and the path buffer, in which it
may have written. -/
structure Reply (υ : Type) where
  rc : ℤ
  user_data : υ
  scribble : PathBuffer → PathBuffer

/-- `filesystem_callback` (filesystem.h:32). -/
abbrev FilesystemCallback (υ : Type) := υ → Path → Reply υ

/-- A call of the callback: the directory listed and the entry in it, and the path that
was passed. -/
structure Call where
  dir : Path
  name : List UInt8
  path : Path
deriving DecidableEq

/-- The `while` loop of one call: the directory it lists and the entries still to come. -/
structure Level where
  dir : Path
  entries : List Dirent

/-- A call that waits for the one it made on line 145. -/
structure Frame where
  level : Level
  path_pos : ℕ

inductive Control
  | call (dir : Path)
  | loop (level : Level)
  | ret (res : ℤ)
  | fault

structure Walk (υ : Type) where
  control : Control
  stack : List Frame
  path : PathBuffer
  user_data : υ
  opened : List Path
  calls : List Call

/-- `.` and `..` (line 130). -/
def isDot (name : List UInt8) : Bool := name = [46] ∨ name = [46, 46]

/-- An entry that lines 130-132 skip. -/
def Dirent.skipped (entry : Dirent) : Bool := entry.d_type = .DT_DIR ∧ isDot entry.d_name

section

variable {υ : Type} (posix : Posix) (fscb : FilesystemCallback υ)

/-- Lines 120-122. -/
def cutSlash (path : PathBuffer) (path_end : ℤ) : Option PathBuffer := do
  let c ← path.get path_end
  if c = slash then path.store path_end [0] else some path

/-- Lines 118-125, on entry to a call; `path_len - 1` is -1 for an empty path. -/
def enter (w : Walk υ) (dir : Path) : Option (Walk υ) := do
  let path_len := (← w.path.text).length
  let path ← cutSlash w.path ((path_len : ℤ) - 1)
  let name ← path.text
  let w := { w with path, opened := w.opened ++ [name] }
  match posix.opendir name with
  | none => some { w with control := .ret (-1) }
  | some entries => some { w with control := .loop ⟨dir, entries⟩ }

/-- Lines 130-145: the bounds of the path buffer are not checked, and neither `continue`
after `lstat` restores it. -/
def visitDirectory (w : Walk υ) (level : Level) (entry : Dirent) : Option (Walk υ) := do
  if isDot entry.d_name then
    some { w with control := .loop level }
  else
    let path_len := (← w.path.text).length
    let path ← w.path.store path_len [slash]
    let path ← path.store ((path_len : ℤ) + 1) (entry.d_name ++ [0])
    let name ← path.text
    match posix.lstat name with
    | none => some { w with path, control := .loop level }
    | some status =>
      if status = .DT_LNK then
        some { w with path, control := .loop level }
      else
        some { w with
          path
          stack := ⟨level, path_len⟩ :: w.stack
          control := .call (entryPath level.dir entry.d_name) }

/-- Lines 152-168. -/
def visitFile (w : Walk υ) (level : Level) (entry : Dirent) : Option (Walk υ) := do
  let path_len := (← w.path.text).length
  let filename_len := entry.d_name.length
  let path ← w.path.store path_len [slash]
  if path_len + 1 + filename_len + 1 ≥ filesystemPathMaxlen then
    some { w with path, control := .ret (-1) }
  else
    let path ← path.store ((path_len : ℤ) + 1) (entry.d_name ++ [0])
    let name ← path.text
    let reply := fscb w.user_data name
    let path ← (reply.scribble path).store path_len [0]
    let w := { w with
      path
      user_data := reply.user_data
      calls := w.calls ++ [Call.mk level.dir entry.d_name name] }
    if reply.rc ≠ 0 then
      some { w with control := .ret reply.rc }
    else
      some { w with control := .loop level }

/-- Lines 146-150, when the call made on line 145 has returned `rc`. -/
def resume (w : Walk υ) (frame : Frame) (stack : List Frame) (rc : ℤ) : Option (Walk υ) := do
  let path ← w.path.store frame.path_pos [0]
  let w := { w with path, stack }
  if rc ≠ 0 then
    some { w with control := .ret rc }
  else
    some { w with control := .loop frame.level }

/-- The walk goes on if the step made no access outside the path buffer. -/
def orFault (w : Walk υ) (next : Option (Walk υ)) : Option (Walk υ) :=
  some (next.getD { w with control := .fault })

/-- `filesystem_recursedirectories` (lines 110-175), one step. -/
def recursedirectoriesStep (w : Walk υ) : Option (Walk υ) :=
  match w.control with
  | .call dir => orFault w (enter posix w dir)
  | .loop ⟨_, []⟩ => some { w with control := .ret 0 }
  | .loop ⟨dir, entry :: entries⟩ =>
    if entry.d_type = .DT_DIR then orFault w (visitDirectory posix w ⟨dir, entries⟩ entry)
    else orFault w (visitFile fscb w ⟨dir, entries⟩ entry)
  | .ret res =>
    match w.stack with
    | [] => none
    | frame :: stack => orFault w (resume w frame stack res)
  | .fault => none

/-- A path less the one trailing `/`. -/
def trimSlash (path : Path) : Path :=
  if path.getLast? = some slash then path.dropLast else path

/-- The call of the walk by its user. -/
def recursedirectoriesStart (path : PathBuffer) (user_data : υ) : Walk υ where
  control := .call (trimSlash (path.text.getD []))
  stack := []
  path := path
  user_data := user_data
  opened := []
  calls := []

end

end AzureMetadata.Model
