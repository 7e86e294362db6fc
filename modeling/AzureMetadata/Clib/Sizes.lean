import Mathlib.Data.UInt

/-!
# Arithmetic on `size_t`

Sums, products and decrements modulo `2 ^ 64`, with the conditions under which they are
those of natural numbers; and masks of low bits, which are remainders.
-/

set_option autoImplicit false

namespace Clib

/-- `SIZE_MAX + 1`: `size_t` arithmetic is modulo this number. -/
def sizeMod : ℕ := 2 ^ 64

/-- `PTRDIFF_MAX`, the size no object exceeds. -/
def ptrdiffMax : ℕ := 2 ^ 63 - 1

def sizeAdd (a b : ℕ) : ℕ := (a + b) % sizeMod

def sizeMul (a b : ℕ) : ℕ := a * b % sizeMod

/-- A difference; below 0 it wraps. -/
def sizeSub (a b : ℕ) : ℕ := (a + (sizeMod - b % sizeMod)) % sizeMod

/-- A decrement; of 0 it is `SIZE_MAX`. -/
def sizePred (a : ℕ) : ℕ := (a + (sizeMod - 1)) % sizeMod

/-- The sum of two sizes of objects does not wrap. -/
theorem sizeAdd_eq {a b : ℕ} (ha : a ≤ ptrdiffMax) (hb : b ≤ ptrdiffMax + 1) :
    sizeAdd a b = a + b := by
  unfold sizeAdd sizeMod
  unfold ptrdiffMax at ha hb
  omega

/-- A difference that is not negative does not wrap. -/
theorem sizeSub_eq {a b : ℕ} (ha : a < sizeMod) (hb : b ≤ a) : sizeSub a b = a - b := by
  unfold sizeMod at ha
  unfold sizeSub sizeMod
  omega

/-- One less than one more is the size itself. -/
theorem sizePred_succ {a : ℕ} (ha : a ≤ ptrdiffMax) : sizePred (a + 1) = a := by
  unfold sizePred sizeMod
  unfold ptrdiffMax at ha
  omega

/-! ## Masks -/

/-- The low two bits. -/
theorem and_3 (x : ℕ) : x &&& 3 = x % 4 := Nat.and_two_pow_sub_one_eq_mod x 2

/-- The low three bits, those of the lead byte of four. -/
theorem and_7 (x : ℕ) : x &&& 7 = x % 8 := Nat.and_two_pow_sub_one_eq_mod x 3

/-- The low four bits, those of the lead byte of three and of a hexadecimal digit. -/
theorem and_15 (x : ℕ) : x &&& 15 = x % 16 := Nat.and_two_pow_sub_one_eq_mod x 4

/-- The low five bits, those of the lead byte of two. -/
theorem and_31 (x : ℕ) : x &&& 31 = x % 32 := Nat.and_two_pow_sub_one_eq_mod x 5

/-- The low six bits, a sextet or those of a byte that continues. -/
theorem and_63 (x : ℕ) : x &&& 63 = x % 64 := Nat.and_two_pow_sub_one_eq_mod x 6

/-- The low ten bits, those of half a pair of surrogates. -/
theorem and_1023 (x : ℕ) : x &&& 1023 = x % 1024 := Nat.and_two_pow_sub_one_eq_mod x 10

end Clib
