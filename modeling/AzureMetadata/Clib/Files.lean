import AzureMetadata.Clib.Blocks
import Mathlib.Logic.Function.Basic

/-!
# Files, links and the calls on them

A file system says what each path names: a regular file, a directory or a symbolic
link.  `open` follows links, `lstat` does not, and a `write` at offset 0 replaces the
beginning of a file and leaves what is after it.  A descriptor is the path it was
resolved to, since nothing is renamed while one is open.

How a call ends is fixed in advance by `CallAnswers`: whether a file that may be opened
is, and how many bytes a transfer moves.
-/

set_option autoImplicit false

namespace Clib

/-- A path, as the string that names it. -/
abbrev Path := List UInt8

/-- The size no file exceeds, the largest `off_t`. -/
def offMax : ℕ := 2 ^ 63 - 1

structure RegularFile where
  content : List UInt8
  readable : Bool
  writable : Bool
  length_le : content.length ≤ offMax

/-- A file that has just been created. -/
def RegularFile.empty : RegularFile := ⟨[], true, true, Nat.zero_le _⟩

/-- The file after `src` was written at offset 0. -/
def RegularFile.store (file : RegularFile) (src : List UInt8) (h : src.length ≤ offMax) :
    RegularFile :=
  { file with
    content := overwrite file.content 0 src
    length_le := by
      rw [length_overwrite_zero]
      exact max_le h file.length_le }

/-- What a path names.  A link has its text, whose length is its size, and the path that
the text resolves to. -/
inductive Node
  | regular (file : RegularFile)
  | directory
  | symlink (text : List UInt8) (target : Path) (length_le : text.length ≤ offMax)

abbrev FileSystem := Path → Option Node

/-- How a transfer of a number of bytes ends. -/
inductive Transfer
  | full
  | short (k : ℕ)
  | error

/-- The bytes moved when `n` can be; `none` for the result -1. -/
def Transfer.count (n : ℕ) : Transfer → Option ℕ
  | full => some n
  | short k => some (min k n)
  | error => none

/-- How the calls of one function end where the file system leaves it open. -/
structure CallAnswers where
  opens : Bool
  transfer : Transfer
  unlinks : Bool

/-- The answers when no call fails or falls short. -/
def CallAnswers.standard : CallAnswers := ⟨true, .full, true⟩

/-- `st_size` of what `lstat` describes. -/
def Node.size : Node → ℕ
  | regular file => file.content.length
  | directory => 0
  | symlink text .. => text.length

/-- A size is a non-negative `off_t`. -/
theorem Node.size_le (node : Node) : node.size ≤ offMax := by
  cases node with
  | regular file => exact file.length_le
  | directory => exact Nat.zero_le _
  | symlink text target hlen => exact hlen

namespace FileSystem

/-- The most links the resolution of a path goes through. -/
def maxLinks : ℕ := 40

/-- The path at the end of a chain of at most so many links. -/
def follow (fs : FileSystem) : ℕ → Path → Option Path
  | 0, path =>
    match fs path with
    | some (.symlink ..) => none
    | _ => some path
  | links + 1, path =>
    match fs path with
    | some (.symlink _ target _) => follow fs links target
    | _ => some path

/-- `lstat(path)`. -/
def lstat (fs : FileSystem) (path : Path) : Option Node := fs path

/-- `open(path, O_RDONLY)`; a directory can be opened, and not read. -/
def openRead (a : CallAnswers) (path : Path) (fs : FileSystem) : Option Path :=
  (fs.follow maxLinks path).bind fun fd =>
    match fs fd with
    | some (.regular file) => if a.opens ∧ file.readable then some fd else none
    | some .directory => if a.opens then some fd else none
    | _ => none

/-- `open(path, O_WRONLY | O_CREAT)`: an existing file keeps its content. -/
def openWrite (a : CallAnswers) (path : Path) (fs : FileSystem) : Option (Path × FileSystem) :=
  (fs.follow maxLinks path).bind fun fd =>
    match fs fd with
    | none =>
        if a.opens then some (fd, Function.update fs fd (some (.regular .empty)))
        else none
    | some (.regular file) => if a.opens ∧ file.writable then some (fd, fs) else none
    | _ => none

/-- The first `read(fd, _, n)`: the bytes it delivers. -/
def read (a : CallAnswers) (fd : Path) (n : ℕ) (fs : FileSystem) : Option (List UInt8) :=
  match fs fd with
  | some (.regular file) =>
      (a.transfer.count (min n file.content.length)).map fun k => file.content.take k
  | _ => none

/-- The first `write(fd, data, _)`: its result, and the file system with the bytes that
were moved at the beginning of the file. -/
def write (a : CallAnswers) (fd : Path) (data : CBytes) (fs : FileSystem) :
    Option ℕ × FileSystem :=
  match fs fd, a.transfer.count data.bytes.length with
  | some (.regular file), some k =>
      (some k, Function.update fs fd (some (.regular (file.store (data.bytes.take k)
        ((List.length_take_le' _ _).trans data.length_le)))))
  | _, _ => (none, fs)

/-- `unlink(path)`: it removes a link and not what the link points to. -/
def unlink (a : CallAnswers) (path : Path) (fs : FileSystem) : FileSystem :=
  match fs path with
  | some (.regular _) | some (.symlink ..) =>
      if a.unlinks then Function.update fs path none else fs
  | _ => fs

/-- The file that opening `path` for writing finds or creates. -/
def fileAt (fs : FileSystem) (path : Path) : RegularFile :=
  match fs path with
  | some (.regular file) => file
  | _ => .empty

/-- `path` is absent or a regular file that may be written. -/
def Writable (fs : FileSystem) (path : Path) : Prop :=
  fs path = none ∨ ∃ file, fs path = some (.regular file) ∧ file.writable = true

/-! ## The rules of the calls on a regular file -/

section Rules

variable {a : CallAnswers} {fs : FileSystem} {path : Path} {file : RegularFile}

/-- A path that is no link leads to itself. -/
theorem follow_of_not_symlink (hfs : ∀ text target hlen, fs path ≠ some (.symlink text target hlen))
    (links : ℕ) : fs.follow links path = some path := by
  cases links with
  | zero =>
      unfold follow
      split
      · next text target hlen he => exact absurd he (hfs text target hlen)
      · rfl
  | succ links =>
      unfold follow
      split
      · next text target hlen he => exact absurd he (hfs text target hlen)
      · rfl

/-- The file is there after a granted open for writing, with the content it had. -/
theorem openWrite_writable (hpath : fs.Writable path) (ha : a.opens = true) :
    ∃ fs', fs.openWrite a path = some (path, fs') ∧
      fs' path = some (.regular (fs.fileAt path)) := by
  rcases hpath with hnone | ⟨file, hfile, hw⟩
  · have hlink : ∀ text target hlen, fs path ≠ some (.symlink text target hlen) := by simp [hnone]
    have hfollow := follow_of_not_symlink hlink maxLinks
    refine ⟨Function.update fs path (some (.regular .empty)), ?_, ?_⟩
    · simp [openWrite, hfollow, hnone, ha]
    · simp [fileAt, hnone]
  · have hlink : ∀ text target hlen, fs path ≠ some (.symlink text target hlen) := by simp [hfile]
    have hfollow := follow_of_not_symlink hlink maxLinks
    refine ⟨fs, ?_, ?_⟩
    · simp [openWrite, hfollow, hfile, ha, hw]
    · simp [fileAt, hfile]

/-- An `open` that fails gives no file. -/
theorem openWrite_refused (ha : a.opens = false) : fs.openWrite a path = none := by
  rw [openWrite, Option.bind_eq_none_iff]
  intro fd _
  split <;> simp [ha]

/-- A write returns the number of bytes transferred. -/
theorem write_result (data : CBytes) (hfs : fs path = some (.regular file)) :
    (fs.write a path data).1 = a.transfer.count data.bytes.length := by
  rw [write, hfs]
  split
  · next hcount => rw [hcount]
  · next hno =>
      cases hcount : a.transfer.count data.bytes.length with
      | none => rfl
      | some k => exact absurd hcount (hno file k rfl)

/-- A write of all its bytes leaves them in the file. -/
theorem write_all {data : CBytes} (hfs : fs path = some (.regular file))
    (ha : a.transfer.count data.bytes.length = some data.bytes.length) :
    ∃ fs', fs.write a path data = (some data.bytes.length, fs') ∧
      fs' path = some (.regular (file.store data.bytes data.length_le)) := by
  refine ⟨_, by simp only [write, hfs, ha]; rfl, ?_⟩
  rw [Function.update_self]
  simp

/-- A file is opened for reading if the process may read it. -/
theorem openRead_regular (hfs : fs path = some (.regular file)) :
    fs.openRead a path = if a.opens ∧ file.readable then some path else none := by
  have hlink : ∀ text target hlen, fs path ≠ some (.symlink text target hlen) := by simp [hfs]
  have hfollow := follow_of_not_symlink hlink maxLinks
  rw [openRead, hfollow, Option.bind_some, hfs]

/-- A full read of at least the length of a file delivers its content. -/
theorem read_full {n : ℕ} (hfs : fs path = some (.regular file)) (ha : a.transfer = .full)
    (hn : file.content.length ≤ n) : fs.read a path n = some file.content := by
  simp [read, hfs, ha, Transfer.count, Nat.min_eq_right hn]

end Rules

end FileSystem

end Clib
