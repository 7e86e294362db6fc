import AzureMetadata.Analysis.DynstringOperations
import AzureMetadata.Model.Filesystem

/-!
# Saving a file and loading it again

`saveramtofile_accepted` says what a save leaves in the file and `loadintoram_loads`
what a load delivers, each for one regular file.  The file is not truncated by the
save, so the two meet only when the file was not longer than the data before.
-/

set_option autoImplicit false

namespace AzureMetadata.Analysis

open Clib AzureMetadata.Model

variable {A : Allocator UInt8} {a : CallAnswers} {path : Path} {data : CBytes}
  {fs : FileSystem} {file : RegularFile} {h : Heap UInt8}

/-! ## The save -/

/-- The open is granted and the write moves all of the data. -/
def Accepted (a : CallAnswers) (data : CBytes) : Prop :=
  a.opens = true ∧ a.transfer.count data.bytes.length = some data.bytes.length

/-- The file a save leaves: the data over the beginning of what was there. -/
def savedFile (fs : FileSystem) (path : Path) (data : CBytes) : RegularFile :=
  (fs.fileAt path).store data.bytes data.length_le

/-- A save that is accepted (filesystem.c:39-49). -/
theorem saveramtofile_accepted (hpath : fs.Writable path) (ha : Accepted a data) :
    ∃ fs', filesystemSaveramtofile a path data fs = (0, fs') ∧
      fs' path = some (.regular (savedFile fs path data)) := by
  obtain ⟨hopen, hcount⟩ := ha
  obtain ⟨fs₁, he₁, hfile₁⟩ := FileSystem.openWrite_writable hpath hopen
  obtain ⟨fs₂, he₂, hfile₂⟩ := FileSystem.write_all hfile₁ hcount
  exact ⟨fs₂, by simp [filesystemSaveramtofile, he₁, he₂], hfile₂⟩

/-- Data that is not accepted is not saved. -/
theorem saveramtofile_rejected (hpath : fs.Writable path) (ha : ¬ Accepted a data) :
    ∃ fs', filesystemSaveramtofile a path data fs = (-1, fs') := by
  cases hopen : a.opens with
  | false => exact ⟨fs, by simp [filesystemSaveramtofile, FileSystem.openWrite_refused hopen]⟩
  | true =>
      have hcount : a.transfer.count data.bytes.length ≠ some data.bytes.length :=
        fun hc => ha ⟨hopen, hc⟩
      obtain ⟨fs₁, he₁, hfile₁⟩ := FileSystem.openWrite_writable hpath hopen
      have hwrite := FileSystem.write_result (a := a) data hfile₁
      refine ⟨(fs₁.write a path data).2.unlink a path, ?_⟩
      rw [filesystemSaveramtofile, he₁]
      simp only [hwrite]
      rw [if_pos hcount]

/-! ## The load -/

/-- Content written over a block and a NUL after it, in a block with just that room. -/
theorem overwrite_terminated {cells content : List UInt8}
    (hlen : cells.length = content.length + 1) :
    overwrite (overwrite cells 0 content) content.length [0] = content ++ [0] := by
  have hdrop : (overwrite cells 0 content).drop (content.length + 1) = [] := by
    rw [List.drop_eq_nil_iff, length_overwrite_zero]
    omega
  rw [overwrite, List.length_singleton, hdrop, overwrite_zero, List.take_left, List.append_nil]

/-- A load of a file that may be read, its request granted (lines 57-78). -/
theorem loadintoram_loads (hfs : fs path = some (.regular file)) (hread : file.readable = true)
    (hg : h.grants A (file.content.length + 1) = true) (data_ptr : Ptr) (data_sz_ptr : ℕ) :
    ∃ b h', filesystemLoadintoram A .standard path data_ptr data_sz_ptr fs h =
        .ok ⟨0, some b, file.content.length, h'⟩ ∧ h'.Holds (some b) (file.content ++ [0]) := by
  have hsize : sizeAdd file.content.length 1 = file.content.length + 1 := by
    have hmax := Heap.le_ptrdiffMax_of_grants hg
    exact sizeAdd_eq (by omega) (by omega)
  obtain ⟨b, cells, h₁, hm, hh, hlen, -⟩ := Heap.malloc_granted hg
  have hopen : fs.openRead .standard path = some path := by
    rw [FileSystem.openRead_regular hfs, if_pos ⟨rfl, hread⟩]
  have hget : fs.read .standard path file.content.length = some file.content :=
    FileSystem.read_full hfs rfl le_rfl
  obtain ⟨h₂, hw₂, hh₂, -⟩ := Heap.write_ok 0 file.content hh (by omega)
  obtain ⟨h₃, hw₃, hh₃, -⟩ := Heap.write_ok file.content.length [0] hh₂
    (by rw [length_overwrite_zero, List.length_singleton]; omega)
  rw [overwrite_terminated hlen] at hh₃
  refine ⟨b, h₃, ?_, hh₃⟩
  simp [filesystemLoadintoram, FileSystem.lstat, hfs, Node.size, hsize, hm, hopen, hget, hw₂, hw₃]

/-- A load that cannot have its block or may not open the file. -/
theorem loadintoram_fails (hfs : fs path = some (.regular file))
    (hno : ¬ (file.readable = true ∧ h.grants A (file.content.length + 1) = true))
    (data_ptr : Ptr) (data_sz_ptr : ℕ) :
    ∃ h', filesystemLoadintoram A .standard path data_ptr data_sz_ptr fs h =
      .ok ⟨-1, data_ptr, data_sz_ptr, h'⟩ := by
  have hsize : sizeAdd file.content.length 1 = file.content.length + 1 := by
    have hmax := file.length_le
    unfold offMax at hmax
    exact sizeAdd_eq hmax (by omega)
  cases hg : h.grants A (file.content.length + 1) with
  | false =>
      refine ⟨h.refuse, ?_⟩
      simp [filesystemLoadintoram, FileSystem.lstat, hfs, Node.size, hsize,
        Heap.malloc_refused hg]
  | true =>
      have hread : file.readable = false := by simpa [hg] using hno
      obtain ⟨b, cells, h₁, hm, hh, -⟩ := Heap.malloc_granted hg
      obtain ⟨h₂, hf, -⟩ := Heap.free_ok hh
      have hopen : fs.openRead .standard path = none := by
        rw [FileSystem.openRead_regular hfs, if_neg (by simp [hread])]
      refine ⟨h₂, ?_⟩
      simp [filesystemLoadintoram, FileSystem.lstat, hfs, Node.size, hsize, hm, hopen, hf]

/-! ## One after the other -/

/-- If the save returns 0, the load that follows returns 0, the length of the data, and
a block with the data and a NUL. -/
def RoundTrips (A : Allocator UInt8) (a : CallAnswers) (path : Path) (data : CBytes)
    (fs : FileSystem) (h : Heap UInt8) : Prop :=
  ∀ fs', filesystemSaveramtofile a path data fs = (0, fs') → ∀ data_ptr data_sz_ptr,
    ∃ b h', filesystemLoadintoram A .standard path data_ptr data_sz_ptr fs' h =
        .ok ⟨0, some b, data.bytes.length, h'⟩ ∧ h'.Holds (some b) (data.bytes ++ [0])

/-- **Save and load.**  They round trip iff the save does not get through, or the file
that was there is not longer than the data, may be read, and the load gets its block. -/
theorem save_load_iff (hpath : fs.Writable path) :
    RoundTrips A a path data fs h ↔
      (Accepted a data → (fs.fileAt path).content.length ≤ data.bytes.length ∧
        (fs.fileAt path).readable = true ∧ h.grants A (data.bytes.length + 1) = true) := by
  by_cases ha : Accepted a data
  · obtain ⟨fs₁, he, hfile⟩ := saveramtofile_accepted hpath ha
    have hlen : (savedFile fs path data).content.length =
        max data.bytes.length (fs.fileAt path).content.length := length_overwrite_zero _ _
    rw [forall_prop_of_true ha]
    constructor
    · intro hround
      obtain ⟨b, h', hload, hh⟩ := hround fs₁ he none 0
      by_cases hok : (savedFile fs path data).readable = true ∧
          h.grants A ((savedFile fs path data).content.length + 1) = true
      · obtain ⟨b', h'', hload', -⟩ := loadintoram_loads hfile hok.1 hok.2 none 0
        rw [hload'] at hload
        simp only [Except.ok.injEq, Loaded.mk.injEq] at hload
        have hsame := hload.2.2.1
        refine ⟨by omega, hok.1, ?_⟩
        rw [← hsame]
        exact hok.2
      · obtain ⟨h'', hload'⟩ := loadintoram_fails hfile hok none 0
        rw [hload'] at hload
        simp at hload
    · rintro ⟨hle, hread, hg⟩ fs' he' data_ptr data_sz_ptr
      rw [he] at he'
      cases he'
      have hcontent : (savedFile fs path data).content = data.bytes := by
        show overwrite (fs.fileAt path).content 0 data.bytes = data.bytes
        rw [overwrite_zero, List.drop_eq_nil_of_le hle, List.append_nil]
      have hsame : (savedFile fs path data).content.length = data.bytes.length := by
        rw [hcontent]
      have hload := loadintoram_loads hfile hread (by rw [hsame]; exact hg) data_ptr data_sz_ptr
      rw [hcontent] at hload
      exact hload
  · apply iff_of_true _ fun h => absurd h ha
    intro fs' he
    obtain ⟨fs₁, he₁⟩ := saveramtofile_rejected hpath ha
    rw [he₁] at he
    cases he

/-- A file of those bytes, that may be read and written. -/
def fileOf (content : List UInt8) (hlen : content.length ≤ offMax) : RegularFile :=
  ⟨content, true, true, hlen⟩

/-- The file system with one file, `f`, of 6 bytes. -/
def sixBytes : FileSystem := fun path =>
  if path = [102] then some (.regular (fileOf [97, 98, 99, 100, 101, 102] (by decide))) else none

def twoBytes : CBytes := ⟨[120, 121], by decide⟩

/-- Two bytes are read back from a path without a file. -/
theorem save_load_absent :
    RoundTrips (generous true 7) .standard [103] twoBytes sixBytes Heap.empty ↔
      (Accepted .standard twoBytes →
        (sixBytes.fileAt [103]).content.length ≤ twoBytes.bytes.length ∧
        (sixBytes.fileAt [103]).readable = true ∧
        (Heap.empty : Heap UInt8).grants (generous true 7) (twoBytes.bytes.length + 1) = true) :=
  save_load_iff (Or.inl (by decide))

/-- Saving `xy` over `abcdef` and loading it gives the six bytes `xycdef`. -/
theorem save_over_longer_loads_old_tail :
    ∃ fs' b h', filesystemSaveramtofile .standard [102] twoBytes sixBytes = (0, fs') ∧
      filesystemLoadintoram (generous true 7) .standard [102] none 0 fs' Heap.empty =
        .ok ⟨0, some b, 6, h'⟩ ∧
      h'.Holds (some b) [120, 121, 99, 100, 101, 102, 0] ∧
      ¬ RoundTrips (generous true 7) .standard [102] twoBytes sixBytes Heap.empty := by
  have hpath : sixBytes.Writable [102] := Or.inr ⟨_, rfl, rfl⟩
  obtain ⟨fs', hsave, hfile⟩ := saveramtofile_accepted hpath
    (show Accepted .standard twoBytes from ⟨rfl, rfl⟩)
  obtain ⟨b, h', hload, hh⟩ := loadintoram_loads (A := generous true 7) (h := Heap.empty) hfile
    rfl rfl none 0
  refine ⟨fs', b, h', hsave, hload, hh, ?_⟩
  intro hround
  obtain ⟨b', h'', hload', -⟩ := hround fs' hsave none 0
  rw [hload] at hload'
  simp only [Except.ok.injEq, Loaded.mk.injEq] at hload'
  exact absurd hload'.2.2.1 (by decide)

end AzureMetadata.Analysis
