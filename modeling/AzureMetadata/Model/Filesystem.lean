import AzureMetadata.Clib.Files
import AzureMetadata.Model.Dynstring
import AzureMetadata.Model.Timefn

/-!
# The age of a file, and saving and loading it, as in `src/filesystem.c`

The three functions over the calls of `Clib.Files` and the heap of `Clib.Heap`.  The
directory walk of the same file is in `Model.Recursedirectories`.
-/

set_option autoImplicit false

namespace AzureMetadata.Model

open Clib

/-- The value an `int` gets. -/
def toInt32 (n : ℤ) : ℤ := Int.bmod n (2 ^ 32)

/-- The call of `timefn_getcurrentunixtime` in filesystem.c.  No declaration of it is in
sight (line 8 is commented out), so what it returns is taken for an `int`. -/
def currentunixtimeAsInt (clock : ℤ) : ℤ := toInt32 (timefnGetcurrentunixtime clock)

/-- `filesystem_isfileolderthan` (lines 23-34), where `time` gives `clock`. -/
def filesystemIsfileolderthan (st_mtime : Path → ℤ) (clock : ℤ) (path : Path) (seconds : ℤ)
    (fs : FileSystem) : ℤ :=
  match fs.lstat path with
  | none => -1
  | some _ =>
    if st_mtime path < toInt32 (currentunixtimeAsInt clock - seconds) then 1
    else 0

/-- `filesystem_saveramtofile` (filesystem.c:36-50).  The file is not truncated. -/
def filesystemSaveramtofile (a : CallAnswers) (path : Path) (data : CBytes) (fs : FileSystem) :
    ℤ × FileSystem :=
  match fs.openWrite a path with
  | none => (-1, fs)
  | some (fd, fs) =>
    let (wrsz, fs) := fs.write a fd data
    if wrsz ≠ some data.bytes.length then (-1, fs.unlink a path)
    else (0, fs)

/-- What `filesystem_loadintoram` leaves: its return value, what its two pointer
arguments point to, and the heap. -/
structure Loaded where
  rc : ℤ
  data_ptr : Ptr
  data_sz_ptr : ℕ
  heap : Heap UInt8

/-- `filesystem_loadintoram` (lines 52-87).  The size is that of the link if `path` is
one, and `read` is called once. -/
def filesystemLoadintoram (A : Allocator UInt8) (a : CallAnswers) (path : Path)
    (data_ptr : Ptr) (data_sz_ptr : ℕ) (fs : FileSystem) (h : Heap UInt8) :
    Except Fault Loaded := do
  match fs.lstat path with
  | none | some .directory => return ⟨-1, data_ptr, data_sz_ptr, h⟩
  | some file_stat =>
    let (data, h) := h.malloc A (sizeAdd file_stat.size 1)
    if data = none then
      return ⟨-1, data_ptr, data_sz_ptr, h⟩
    match fs.openRead a path with
    | none => return ⟨-1, data_ptr, data_sz_ptr, ← h.free data⟩
    | some fd =>
      match fs.read a fd file_stat.size with
      | none => return ⟨-1, data_ptr, data_sz_ptr, ← h.free data⟩
      | some bytes =>
        let h ← h.write data 0 bytes
        let h ← h.write data bytes.length [0]
        return ⟨0, data, bytes.length, h⟩

/-- `strdup`, of the C library. -/
def strdup (A : Allocator UInt8) (str : CString) (h : Heap UInt8) :
    Except Fault (Ptr × Heap UInt8) := do
  let (copy, h) := h.malloc A (str.bytes.length + 1)
  if copy = none then return (none, h)
  return (copy, ← h.write copy 0 (str.bytes ++ [0]))

/-- `filesystem_sanitisedir` (lines 89-108). -/
def filesystemSanitisedir (A : Allocator UInt8) (path : CString) (h : Heap UInt8) :
    Except Fault (Ptr × Heap UInt8) := do
  let path_len := path.bytes.length
  if path_len = 0 then strdup A path h
  else if path.bytes[path_len - 1]? = some 47 then strdup A path h
  else
    let (sane_path, h) := h.malloc A (sizeAdd path_len 2)
    if sane_path = none then return (none, h)
    let h ← h.write sane_path 0 path.bytes
    let h ← h.write sane_path path_len [47]
    return (sane_path, ← h.write sane_path (path_len + 1) [0])

end AzureMetadata.Model
