import AzureMetadata.Clib.Blocks
import Mathlib.Data.Int.Basic

/-!
# A character array of fixed size

`CharBuffer n` is a `char[n]` that holds a string and is edited in place.  Indices are
integers, so that an index below the array is one; `get` and `store` are `none` when
they leave the array.  The rules relate `store` to `text`, the string in the array:
`text_store_append` for a copy to the end of the string and `text_store_nul` for a NUL
that cuts it.
-/

set_option autoImplicit false

namespace Clib

/-- A `char[n]`. -/
structure CharBuffer (n : ℕ) where
  bytes : List UInt8
  length_eq : bytes.length = n

namespace CharBuffer

variable {n : ℕ}

/-- The string in the array; `none` if nothing ends it. -/
def text (buf : CharBuffer n) : Option (List UInt8) := cString buf.bytes

/-- Load the character at an index. -/
def get (buf : CharBuffer n) (i : ℤ) : Option UInt8 :=
  if 0 ≤ i then buf.bytes[i.toNat]? else none

/-- Store characters from an index on. -/
def store (buf : CharBuffer n) (i : ℤ) (src : List UInt8) : Option (CharBuffer n) :=
  if h : 0 ≤ i ∧ i + src.length ≤ n then
    some {
      bytes := overwrite buf.bytes i.toNat src
      length_eq := by
        rw [length_overwrite (by rw [buf.length_eq]; omega), buf.length_eq] }
  else none

/-- The array that holds `s`, and NULs after it. -/
def ofText (s : List UInt8) (h : s.length < n) : CharBuffer n where
  bytes := s ++ List.replicate (n - s.length) 0
  length_eq := by
    rw [List.length_append, List.length_replicate]
    omega

variable {buf buf' : CharBuffer n} {s t : List UInt8}

/-! ## The string in the array -/

/-- The text of a buffer is what stands before its first NUL. -/
theorem text_eq_some_iff :
    buf.text = some s ↔ (0 : UInt8) ∉ s ∧ ∃ rest, buf.bytes = s ++ 0 :: rest :=
  cString_eq_some_iff

/-- A buffer that is made from a text has that text. -/
theorem text_ofText {h : s.length < n} (hs : (0 : UInt8) ∉ s) : (ofText s h).text = some s := by
  refine text_eq_some_iff.mpr ⟨hs, List.replicate (n - s.length - 1) 0, ?_⟩
  have hsucc : n - s.length = n - s.length - 1 + 1 := by omega
  show s ++ List.replicate (n - s.length) 0 = _
  rw [hsucc, List.replicate_succ]
  rfl

/-- A text leaves room for its NUL. -/
theorem length_lt_of_text (ht : buf.text = some s) : s.length < n := by
  obtain ⟨-, rest, hb⟩ := text_eq_some_iff.mp ht
  have hlen := buf.length_eq
  rw [hb, List.length_append, List.length_cons] at hlen
  omega

/-- The buffer starts with the beginning of its text. -/
theorem take_of_text (ht : buf.text = some (s ++ t)) : buf.bytes.take s.length = s := by
  obtain ⟨-, rest, hb⟩ := text_eq_some_iff.mp ht
  rw [hb, List.append_assoc, List.take_left]

/-- There is no NUL in the text itself. -/
theorem zero_notMem_of_text (ht : buf.text = some s) : (0 : UInt8) ∉ s :=
  (text_eq_some_iff.mp ht).1

/-- The character before the NUL is the last of the text. -/
theorem get_last (ht : buf.text = some s) (hs : s ≠ []) :
    buf.get ((s.length : ℤ) - 1) = some (s.getLast hs) := by
  obtain ⟨-, rest, hb⟩ := text_eq_some_iff.mp ht
  have hpos := List.length_pos_of_ne_nil hs
  have hidx : ((s.length : ℤ) - 1).toNat = s.length - 1 := by omega
  rw [get, if_pos (by omega), hidx, hb, List.getElem?_append_left (by omega),
    List.getElem?_eq_getElem (by omega), List.getLast_eq_getElem]

/-- Below the buffer there is nothing to read. -/
theorem get_negative {i : ℤ} (hi : i < 0) : buf.get i = none := if_neg (by omega)

/-! ## Stores -/

/-- A store that fits overwrites the bytes and nothing else. -/
theorem store_eq_some (buf : CharBuffer n) (i : ℕ) (src : List UInt8)
    (hi : i + src.length ≤ n) :
    ∃ buf', buf.store i src = some buf' ∧ buf'.bytes = overwrite buf.bytes i src := by
  refine ⟨_, dif_pos ⟨by omega, by omega⟩, ?_⟩
  simp

/-- A store that goes beyond the end is none. -/
theorem store_eq_none {i : ℕ} {src : List UInt8} (hi : n < i + src.length) :
    buf.store i src = none := dif_neg (by omega)

/-- A store at or after the end of a beginning keeps that beginning. -/
theorem take_store {i k : ℕ} {src : List UInt8} (hst : buf.store i src = some buf')
    (hk : k ≤ i) : buf'.bytes.take k = buf.bytes.take k := by
  have hi : i + src.length ≤ n := by
    by_contra hover
    rw [store_eq_none (by omega)] at hst
    cases hst
  obtain ⟨buf'', he, hb⟩ := store_eq_some buf i src hi
  rw [hst, Option.some.injEq] at he
  rw [he, hb]
  exact take_overwrite_below src hk (by rw [buf.length_eq]; omega)

/-- A NUL stored after a beginning of the array makes that its string. -/
theorem text_store_nul (hs : (0 : UInt8) ∉ s) (htake : buf.bytes.take s.length = s)
    (hlen : s.length < n) :
    ∃ buf', buf.store s.length [0] = some buf' ∧ buf'.text = some s := by
  obtain ⟨buf', hst, hb⟩ := store_eq_some buf s.length [0] (Nat.succ_le_of_lt hlen)
  refine ⟨buf', hst, text_eq_some_iff.mpr ⟨hs, buf.bytes.drop (s.length + 1), ?_⟩⟩
  rw [hb, overwrite, htake, List.append_assoc]
  rfl

/-- Wherever a NUL is stored, there is a string that ends there or before. -/
theorem text_store_nul_any {i : ℕ} (hst : buf.store i [0] = some buf') :
    ∃ s, buf'.text = some s ∧ s.length ≤ i := by
  have hi : i + 1 ≤ n := by
    by_contra hover
    rw [store_eq_none (by simp only [List.length_singleton]; omega)] at hst
    cases hst
  obtain ⟨buf'', he, hb⟩ := store_eq_some buf i [0] hi
  rw [hst, Option.some.injEq] at he
  have hbytes : buf'.bytes = buf.bytes.take i ++ 0 :: buf.bytes.drop (i + 1) := by
    rw [he, hb, overwrite, List.append_assoc]
    rfl
  refine ⟨beforeNul (buf.bytes.take i), ?_, ?_⟩
  · rw [text, hbytes, cString_append_zero]
  · exact (List.takeWhile_sublist _).length_le.trans (List.length_take_le _ _)

/-- A character put over the NUL of a string and a string copied after it. -/
theorem text_store_append {c : UInt8} {name : List UInt8} (ht : buf.text = some s)
    (hc : c ≠ 0) (hname : (0 : UInt8) ∉ name) (hlen : s.length + 1 + name.length + 1 ≤ n) :
    ∃ buf₁ buf₂, buf.store s.length [c] = some buf₁ ∧
      buf₁.store ((s.length : ℤ) + 1) (name ++ [0]) = some buf₂ ∧
      buf₂.text = some (s ++ c :: name) := by
  have hzero : (0 : UInt8) ∉ s ++ c :: name := by
    simp only [List.mem_append, List.mem_cons, not_or]
    exact ⟨zero_notMem_of_text ht, hc.symm, hname⟩
  have htake : buf.bytes.take s.length = s :=
    take_of_text (t := []) (by rw [List.append_nil]; exact ht)
  obtain ⟨buf₁, hst₁, hb₁⟩ := store_eq_some buf s.length [c]
    (by simp only [List.length_singleton]; omega)
  obtain ⟨buf₂, hst₂, hb₂⟩ := store_eq_some buf₁ (s.length + 1) (name ++ [0])
    (by simp only [List.length_append, List.length_singleton]; omega)
  have htake₁ : buf₁.bytes.take (s.length + 1) = s ++ [c] := by
    have hle : s.length ≤ buf.bytes.length := by
      rw [buf.length_eq]
      omega
    have hend := take_overwrite_end [c] hle
    rw [hb₁, ← htake]
    rw [htake] at hend ⊢
    exact hend
  refine ⟨buf₁, buf₂, hst₁, by simpa using hst₂, text_eq_some_iff.mpr ⟨hzero, ?_⟩⟩
  refine ⟨buf₁.bytes.drop (s.length + 1 + (name ++ [0]).length), ?_⟩
  rw [hb₂, overwrite, htake₁]
  simp

end CharBuffer

end Clib
