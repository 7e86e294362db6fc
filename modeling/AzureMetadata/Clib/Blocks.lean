import AzureMetadata.Clib.Sizes
import Mathlib.Data.List.Basic
import Mathlib.Data.List.TakeWhile

/-!
# Memory blocks as lists

A block of memory is the list of its cells.  `overwrite` is what `memcpy` does to
one, `resize` what `realloc` does, and `cString` reads the NUL-terminated string a
block begins with.  The lemmas say what a prefix of the block is afterwards, which
is all that a growable buffer over it needs.

Arguments that C promises something about carry the promise: a `CBytes` is the
contents of an object, at most `PTRDIFF_MAX` bytes, and a `CString` a string without
NUL that fits in an object together with its terminator.
-/

set_option autoImplicit false

namespace Clib

variable {α : Type}

/-! ## Objects -/

/-- The bytes of a C object. -/
structure CBytes where
  bytes : List UInt8
  length_le : bytes.length ≤ ptrdiffMax

/-- The characters of a NUL-terminated C string. -/
structure CString where
  bytes : List UInt8
  noNul : 0 ∉ bytes
  length_lt : bytes.length < ptrdiffMax

/-- The bytes of an ASCII literal. -/
def ascii (s : String) : List UInt8 := s.toList.map fun c => UInt8.ofNat c.toNat

/-! ## Writing into a block -/

/-- The block after `src` has been copied over its cells from `i` on. -/
def overwrite (block : List α) (i : ℕ) (src : List α) : List α :=
  block.take i ++ src ++ block.drop (i + src.length)

/-- A store inside a block leaves its length. -/
theorem length_overwrite {block src : List α} {i : ℕ} (h : i + src.length ≤ block.length) :
    (overwrite block i src).length = block.length := by
  simp only [overwrite, List.length_append, List.length_take, List.length_drop]
  omega

/-- Up to the end of the copy, the block is its old beginning and then the source. -/
theorem take_overwrite_end {block : List α} (src : List α) {i : ℕ} (h : i ≤ block.length) :
    (overwrite block i src).take (i + src.length) = block.take i ++ src := by
  have hlen : (block.take i ++ src).length = i + src.length := by
    simp only [List.length_append, List.length_take]
    omega
  rw [overwrite, ← hlen, List.take_left]

/-- The same with a source of which only the beginning matters. -/
theorem take_overwrite_append {block : List α} (src extra : List α) {i : ℕ}
    (h : i ≤ block.length) :
    (overwrite block i (src ++ extra)).take (i + src.length) = block.take i ++ src := by
  have hmin : min (i + src.length) (i + (src ++ extra).length) = i + src.length := by
    rw [List.length_append]
    omega
  have hlen : (block.take i ++ src).length = i + src.length := by
    simp only [List.length_append, List.length_take]
    omega
  rw [← hmin, ← List.take_take, take_overwrite_end _ h, ← List.append_assoc, ← hlen,
    List.take_left]

/-- A copy leaves the cells below its start alone. -/
theorem take_overwrite_below {block : List α} (src : List α) {i j : ℕ} (hj : j ≤ i)
    (hi : i ≤ block.length) : (overwrite block i src).take j = block.take j := by
  have hlen : j ≤ (block.take i).length := by
    rw [List.length_take]
    omega
  rw [overwrite, List.append_assoc, List.take_append_of_le_length hlen, List.take_take,
    Nat.min_eq_left hj]

/-- A store at the start leaves what lies behind the source. -/
theorem overwrite_zero (block src : List α) :
    overwrite block 0 src = src ++ block.drop src.length := by
  simp [overwrite]

/-- The block grows where the source is the longer one. -/
theorem length_overwrite_zero (block src : List α) :
    (overwrite block 0 src).length = max src.length block.length := by
  rw [overwrite_zero, List.length_append, List.length_drop]
  omega

/-! ## Resizing a block -/

/-- The block `realloc` returns for `n` cells: the old cells as far as they go, and
for the others whatever the allocator left there. -/
def resize (fill : ℕ → α) (old : List α) (n : ℕ) : List α :=
  old.take n ++ (List.range (n - old.length)).map fun i => fill (old.length + i)

/-- A block that is resized has the length asked for. -/
@[simp] theorem length_resize (fill : ℕ → α) (old : List α) (n : ℕ) :
    (resize fill old n).length = n := by
  simp only [resize, List.length_append, List.length_take, List.length_map, List.length_range]
  omega

/-- Resizing keeps every prefix that both lengths can hold. -/
theorem take_resize (fill : ℕ → α) {old : List α} {n k : ℕ} (hk : k ≤ old.length) (hn : k ≤ n) :
    (resize fill old n).take k = old.take k := by
  have hlen : k ≤ (old.take n).length := by
    rw [List.length_take]
    omega
  rw [resize, List.take_append_of_le_length hlen, List.take_take, Nat.min_eq_left hn]

/-! ## NUL-terminated strings -/

section CString

variable [Zero α] [DecidableEq α]

/-- The bytes of `s` before its first NUL, all of them if there is none. -/
def beforeNul (s : List α) : List α := s.takeWhile (· ≠ 0)

/-- The string a block begins with; `none` if no cell of the block ends it. -/
def cString (block : List α) : Option (List α) :=
  if 0 ∈ block then some (beforeNul block) else none

/-- Without a NUL the whole text is before the first one. -/
theorem beforeNul_eq_self {s : List α} (h : (0 : α) ∉ s) : beforeNul s = s := by
  apply List.takeWhile_eq_self_iff.mpr
  intro x hx
  have hne : x ≠ 0 := fun h0 => h (h0 ▸ hx)
  simpa using hne

/-- What follows the first NUL is not part of the string. -/
theorem beforeNul_append_zero (s rest : List α) :
    beforeNul (s ++ 0 :: rest) = beforeNul s := by
  induction s with
  | nil => simp [beforeNul]
  | cons x s ih =>
      by_cases hx : x = 0
      · simp [beforeNul, hx]
      · simpa [beforeNul, hx] using ih

/-- A block that holds `s` and then a NUL holds the string `s` up to its first NUL. -/
theorem cString_append_zero (s rest : List α) :
    cString (s ++ 0 :: rest) = some (beforeNul s) := by
  rw [cString, if_pos (by simp), beforeNul_append_zero]

/-- A block holds the string `s` iff it begins with `s`, which has no NUL, and a NUL. -/
theorem cString_eq_some_iff {block s : List α} :
    cString block = some s ↔ (0 : α) ∉ s ∧ ∃ rest, block = s ++ 0 :: rest := by
  constructor
  · intro h
    have hmem : (0 : α) ∈ block := by
      by_contra hno
      simp [cString, hno] at h
    have hs : beforeNul block = s := by simpa [cString, hmem] using h
    obtain ⟨a, rest, rfl, ha⟩ := List.eq_append_cons_of_mem hmem
    rw [beforeNul_append_zero, beforeNul_eq_self ha] at hs
    subst hs
    exact ⟨ha, rest, rfl⟩
  · rintro ⟨hs, rest, rfl⟩
    rw [cString_append_zero, beforeNul_eq_self hs]

end CString

/-- `strcmp` of the strings that two blocks begin with: the difference of the first bytes
that are not the same, 0 if there are none before the NUL. -/
def strcmp : List UInt8 → List UInt8 → ℤ
  | c :: s, d :: s' => if c = d ∧ c ≠ 0 then strcmp s s' else (c.toNat : ℤ) - d.toNat
  | _, _ => 0

/-- A common beginning does not bear on the comparison. -/
theorem strcmp_append {pre : List UInt8} (hpre : 0 ∉ pre) (s s' : List UInt8) :
    strcmp (pre ++ s) (pre ++ s') = strcmp s s' := by
  induction pre with
  | nil => rfl
  | cons c pre ih =>
      simp only [List.mem_cons, not_or] at hpre
      rw [List.cons_append, List.cons_append, strcmp, if_pos ⟨rfl, Ne.symm hpre.1⟩]
      exact ih hpre.2

/-- The first characters that differ decide it. -/
theorem strcmp_cons_lt {c d : UInt8} (hlt : c.toNat < d.toNat) (s s' : List UInt8) :
    strcmp (c :: s) (d :: s') < 0 := by
  have hne : ¬ (c = d ∧ c ≠ 0) := by
    rintro ⟨hsame, -⟩
    rw [hsame] at hlt
    exact Nat.lt_irrefl _ hlt
  rw [strcmp, if_neg hne]
  omega

/-- A string is equal to itself. -/
theorem strcmp_self (s : List UInt8) : strcmp s s = 0 := by
  induction s with
  | nil => rfl
  | cons c s ih =>
      rw [strcmp]
      split
      · exact ih
      · exact Int.sub_self _

end Clib
