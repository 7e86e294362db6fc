import AzureMetadata.Model.Recursedirectories

/-!
# Directory trees, and what a walk of one is to do

A `Listing` is the content of a directory in `readdir` order, with the content of each
sub-directory inside it.  `paths` are the paths of the entries that are not directories,
depth first, and `deliver` hands paths to a callback one by one until it returns
something other than 0: together they say what `filesystem_recursedirectories` is for,
without a buffer or a stack.
-/

set_option autoImplicit false

namespace AzureMetadata.Interface

open Clib AzureMetadata.Model

/-- The content of a directory.  A symbolic link is a `file`, whatever it points to. -/
inductive Listing
  | nil
  | skipped (entry : Dirent) (h : entry.skipped = true) (rest : Listing)
  | file (entry : Dirent) (h : entry.d_type ≠ .DT_DIR) (rest : Listing)
  | directory (entry : Dirent) (h : entry.d_type = .DT_DIR) (hdot : isDot entry.d_name = false)
      (children rest : Listing)

namespace Listing

/-- The entries `readdir` returns. -/
def dirents : Listing → List Dirent
  | nil => []
  | skipped entry _ rest => entry :: rest.dirents
  | file entry _ rest => entry :: rest.dirents
  | directory entry _ _ _ rest => entry :: rest.dirents

/-- The paths of the entries of the tree that are not directories. -/
def paths : Path → Listing → List Path
  | _, nil => []
  | dir, skipped _ _ rest => rest.paths dir
  | dir, file entry _ rest => entryPath dir entry.d_name :: rest.paths dir
  | dir, directory entry _ _ children rest =>
      children.paths (entryPath dir entry.d_name) ++ rest.paths dir

/-- The paths of the sub-directories of the tree. -/
def directories : Path → Listing → List Path
  | _, nil => []
  | dir, skipped _ _ rest => rest.directories dir
  | dir, file _ _ rest => rest.directories dir
  | dir, directory entry _ _ children rest =>
      entryPath dir entry.d_name ::
        (children.directories (entryPath dir entry.d_name) ++ rest.directories dir)

/-- Every sub-directory of the tree can be examined and listed, and is what it should be. -/
def Agrees (posix : Posix) : Path → Listing → Prop
  | _, nil => True
  | dir, skipped _ _ rest => rest.Agrees posix dir
  | dir, file _ _ rest => rest.Agrees posix dir
  | dir, directory entry _ _ children rest =>
      posix.lstat (entryPath dir entry.d_name) = some .DT_DIR ∧
      posix.opendir (entryPath dir entry.d_name) = some children.dirents ∧
      children.Agrees posix (entryPath dir entry.d_name) ∧ rest.Agrees posix dir

/-- The name of an entry of `dir` fits in the path buffer after the path of `dir`. -/
def FitsIn (dir : Path) (entry : Dirent) : Prop :=
  dir.length + 1 + entry.d_name.length + 1 < filesystemPathMaxlen

instance (dir : Path) (entry : Dirent) : Decidable (FitsIn dir entry) :=
  inferInstanceAs (Decidable (_ < _))

/-- Every path of the tree fits. -/
def Fits : Path → Listing → Prop
  | _, nil => True
  | dir, skipped _ _ rest => rest.Fits dir
  | dir, file entry _ rest => FitsIn dir entry ∧ rest.Fits dir
  | dir, directory entry _ _ children rest =>
      FitsIn dir entry ∧ children.Fits (entryPath dir entry.d_name) ∧ rest.Fits dir

end Listing

/-- What is left when paths have been handed to a callback: the last result, the
callback's data, and the paths it was called with. -/
structure Delivery (υ : Type) where
  rc : ℤ
  user_data : υ
  paths : List Path

section Deliver

variable {υ : Type} (fscb : FilesystemCallback υ)

/-- Hand the paths over until the callback returns something other than 0. -/
def deliver (user_data : υ) : List Path → Delivery υ
  | [] => ⟨0, user_data, []⟩
  | path :: paths =>
    let reply := fscb user_data path
    if reply.rc ≠ 0 then ⟨reply.rc, reply.user_data, [path]⟩
    else
      let d := deliver reply.user_data paths
      ⟨d.rc, d.user_data, path :: d.paths⟩

/-- The first paths are handed over before the others, which are not if it stopped. -/
theorem deliver_append (user_data : υ) (paths paths' : List Path) :
    deliver fscb user_data (paths ++ paths') =
      if (deliver fscb user_data paths).rc ≠ 0 then deliver fscb user_data paths
      else
        let d := deliver fscb (deliver fscb user_data paths).user_data paths'
        ⟨d.rc, d.user_data, (deliver fscb user_data paths).paths ++ d.paths⟩ := by
  induction paths generalizing user_data with
  | nil => simp [deliver]
  | cons path paths ih =>
      by_cases hrc : (fscb user_data path).rc = 0
      · have hih := ih (fscb user_data path).user_data
        by_cases hstop : (deliver fscb (fscb user_data path).user_data paths).rc = 0
        · simp [deliver, hrc, hih, hstop]
        · simp [deliver, hrc, hih, hstop]
      · simp [deliver, hrc]

end Deliver

end AzureMetadata.Interface
