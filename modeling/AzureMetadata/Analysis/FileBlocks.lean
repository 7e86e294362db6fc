import AzureMetadata.Clib.Ownership
import AzureMetadata.Model.Filesystem

/-!
# What the file functions allocate

`filesystem_loadintoram` and `filesystem_sanitisedir` each leave their caller one block,
with a string in it, or none.  Whatever the system and the allocator answer, they stay
inside the block, and nothing else of the heap changes.
-/

set_option autoImplicit false

namespace AzureMetadata.Analysis

open Clib Clib.Heap AzureMetadata.Model

variable {A : Allocator UInt8} {h : Heap UInt8}

/-! ## Steps on a block of one's own -/

/-- A write inside the own block conserves the others. -/
theorem write_own {b : ℕ} {cells : List UInt8} {h₀ : Heap UInt8} (i : ℕ) (src : List UInt8)
    (hh : h.Holds (some b) cells) (hc : Conserves [] [some b] h₀ h)
    (hroom : i + src.length ≤ cells.length) :
    ∃ h', h.write (some b) i src = .ok h' ∧ h'.Holds (some b) (overwrite cells i src) ∧
      Conserves [] [some b] h₀ h' := by
  obtain ⟨h', hw, hh', -⟩ := Heap.write_ok i src hh hroom
  exact ⟨h', hw, hh', hc.trans (conserves_write.of_ok hw)⟩

/-- A granted block is the own one. -/
theorem malloc_own {n : ℕ} (hg : h.grants A n = true) :
    ∃ b cells h', h.malloc A n = (some b, h') ∧ h'.Holds (some b) cells ∧
      cells.length = n ∧ Conserves [] [some b] h h' := by
  obtain ⟨b, cells, h', hm, hh, hlen, -⟩ := Heap.malloc_granted hg
  exact ⟨b, cells, h', hm, hh, hlen, conserves_malloc hm⟩

/-- A refusal makes no block. -/
theorem conserves_nothing : Conserves [] [none] h h.refuse :=
  (conserves_refuse []).congr (fun _ => Iff.rfl) (by simp)

/-! ## `filesystem_loadintoram` -/

/-- A path that a name can be put behind. -/
def asDirectory (path : List UInt8) : List UInt8 :=
  if path = [] ∨ path.getLast? = some 47 then path else path ++ [47]

/-- A block with a string of one's own in it, or `NULL`. -/
def LeavesString (granted : Prop) (str : List UInt8) (h : Heap UInt8) (r : Ptr × Heap UInt8) :
    Prop :=
  Conserves [] [r.1] h r.2 ∧ (r.1 ≠ none ↔ granted) ∧
    (r.1 ≠ none → r.2.Holds r.1 (str ++ [0]))

/-- `strdup` leaves a block with the string if its request is granted. -/
theorem strdup_leaves (A : Allocator UInt8) (str : CString) (h : Heap UInt8) :
    ∃ r, strdup A str h = .ok r ∧
      LeavesString (h.grants A (str.bytes.length + 1) = true) str.bytes h r := by
  cases hg : h.grants A (str.bytes.length + 1) with
  | false =>
      refine ⟨(none, h.refuse), by simp [strdup, Heap.malloc_refused hg], conserves_nothing, ?_⟩
      simp
  | true =>
      obtain ⟨b, cells, h₁, hm, hh, hlen, hown⟩ := malloc_own hg
      have hlen' : (str.bytes ++ [0]).length = cells.length := by
        rw [List.length_append, List.length_singleton, hlen]
      have hroom : 0 + (str.bytes ++ [0]).length ≤ cells.length := by
        rw [hlen', Nat.zero_add]
      obtain ⟨h₂, hw, hh₂, hown₂⟩ := write_own 0 _ hh hown hroom
      rw [overwrite_zero, List.drop_eq_nil_of_le (by omega), List.append_nil] at hh₂
      exact ⟨(some b, h₂), by simp [strdup, hm, hw], hown₂, by simp, fun _ => hh₂⟩

/-- The three writes into the block of `filesystem_sanitisedir` fill it. -/
theorem overwrite_three {cells path : List UInt8} (hlen : cells.length = path.length + 2) :
    overwrite (overwrite (overwrite cells 0 path) path.length [47]) (path.length + 1) [0] =
      path ++ [47] ++ [0] := by
  have h₁ : (overwrite cells 0 path).length = path.length + 2 := by
    rw [length_overwrite_zero]
    omega
  have htake : (overwrite cells 0 path).take path.length = path := by
    rw [overwrite_zero, List.take_left]
  have h₂ : (overwrite (overwrite cells 0 path) path.length [47]).length = path.length + 2 := by
    rw [length_overwrite (by simp [h₁]), h₁]
  have htake₂ : (overwrite (overwrite cells 0 path) path.length [47]).take (path.length + 1) =
      path ++ [47] := by
    refine (take_overwrite_end [47] (by omega)).trans ?_
    rw [htake]
  rw [overwrite, htake₂, List.drop_eq_nil_of_le (by simp [h₂]), List.append_nil]

/-- **A directory path ends in a slash**: the result is `NULL` iff its one request is
refused, and otherwise a new string that is the path as a directory. -/
theorem sanitisedir_leaves (A : Allocator UInt8) (path : CString) (h : Heap UInt8) :
    ∃ r, filesystemSanitisedir A path h = .ok r ∧
      LeavesString (h.grants A ((asDirectory path.bytes).length + 1) = true)
        (asDirectory path.bytes) h r := by
  by_cases hdone : path.bytes = [] ∨ path.bytes.getLast? = some 47
  · obtain ⟨r, hr, hleaves⟩ := strdup_leaves A path h
    refine ⟨r, ?_, by rwa [asDirectory, if_pos hdone]⟩
    unfold filesystemSanitisedir
    dsimp only
    by_cases hempty : path.bytes.length = 0
    · rw [if_pos hempty, hr]
    · have hlast : path.bytes[path.bytes.length - 1]? = some 47 := by
        rw [← List.getLast?_eq_getElem?]
        exact hdone.resolve_left fun he => hempty (List.length_eq_zero_iff.mpr he)
      rw [if_neg hempty, if_pos hlast, hr]
  · have hempty : path.bytes.length ≠ 0 := fun he =>
      hdone (Or.inl (List.length_eq_zero_iff.mp he))
    have hlast : ¬ path.bytes[path.bytes.length - 1]? = some 47 := by
      rw [← List.getLast?_eq_getElem?]
      exact fun he => hdone (Or.inr he)
    have hsize : sizeAdd path.bytes.length 2 = path.bytes.length + 2 :=
      sizeAdd_eq path.length_lt.le (by unfold ptrdiffMax; omega)
    rw [asDirectory, if_neg hdone]
    unfold filesystemSanitisedir
    dsimp only
    rw [if_neg hempty, if_neg hlast, hsize, List.length_append, List.length_singleton]
    cases hg : h.grants A (path.bytes.length + 1 + 1) with
    | false =>
        refine ⟨(none, h.refuse), by simp [Heap.malloc_refused hg], conserves_nothing, ?_⟩
        simp
    | true =>
        obtain ⟨b, cells, h₁, hm, hh₁, hlen, hown₁⟩ := malloc_own hg
        have hlen₂ : (overwrite cells 0 path.bytes).length = cells.length := by
          rw [length_overwrite_zero]
          omega
        obtain ⟨h₂, hw₂, hh₂, hown₂⟩ := write_own 0 path.bytes hh₁ hown₁ (by omega)
        obtain ⟨h₃, hw₃, hh₃, hown₃⟩ := write_own path.bytes.length [47] hh₂ hown₂
          (by rw [List.length_singleton]; omega)
        have hlen₃ : (overwrite (overwrite cells 0 path.bytes) path.bytes.length [47]).length =
            cells.length := by
          rw [length_overwrite (by rw [List.length_singleton]; omega), hlen₂]
        obtain ⟨h₄, hw₄, hh₄, hown₄⟩ := write_own (path.bytes.length + 1) [0] hh₃ hown₃
          (by rw [List.length_singleton]; omega)
        rw [overwrite_three (by omega)] at hh₄
        exact ⟨(some b, h₄), by simp [hm, hw₂, hw₃, hw₄], hown₄, by simp, fun _ => hh₄⟩

end AzureMetadata.Analysis
