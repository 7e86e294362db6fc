import Mathlib.Data.List.Basic
import Mathlib.Data.UInt

/-!
# The bytes of UTF-8

Unicode scalar values are the values of Lean's `Char`, and the encoding of one is
`String.utf8EncodeChar`.  `Utf8Form n w` is the table of the encoding read the other way:
which bytes `w` encode the value `n`, without overlong forms, surrogates and values past
`0x10FFFF`.  The two agree (`utf8Form_encode`, `Utf8Form.exists_char`), so that a program
which looks at bytes can be compared with characters by cases on the form.
-/

set_option autoImplicit false

namespace Clib

/-- A byte `80`..`BF`, which continues an encoding. -/
def Tail (b : UInt8) : Prop := 0x80 ≤ b.toNat ∧ b.toNat ≤ 0xBF

instance : DecidablePred Tail := fun _ => inferInstanceAs (Decidable (_ ∧ _))

/-- The bytes that encode a scalar value. -/
inductive Utf8Form (n : ℕ) : List UInt8 → Prop
  | one {a : UInt8} (ha : a.toNat ≤ 0x7F) (hn : n = a.toNat) : Utf8Form n [a]
  | two {a b : UInt8} (ha : 0xC2 ≤ a.toNat) (ha' : a.toNat ≤ 0xDF) (hb : Tail b)
      (hn : n = (a.toNat - 0xC0) * 64 + (b.toNat - 0x80)) : Utf8Form n [a, b]
  | three {a b c : UInt8} (ha : 0xE0 ≤ a.toNat) (ha' : a.toNat ≤ 0xEF) (hb : Tail b)
      (hc : Tail c) (hlong : a.toNat = 0xE0 → 0xA0 ≤ b.toNat)
      (hsurr : a.toNat = 0xED → b.toNat ≤ 0x9F)
      (hn : n = (a.toNat - 0xE0) * 4096 + (b.toNat - 0x80) * 64 + (c.toNat - 0x80)) :
      Utf8Form n [a, b, c]
  | four {a b c d : UInt8} (ha : 0xF0 ≤ a.toNat) (ha' : a.toNat ≤ 0xF4) (hb : Tail b)
      (hc : Tail c) (hd : Tail d) (hlong : a.toNat = 0xF0 → 0x90 ≤ b.toNat)
      (hmax : a.toNat = 0xF4 → b.toNat ≤ 0x8F)
      (hn : n = (a.toNat - 0xF0) * 262144 + (b.toNat - 0x80) * 4096 + (c.toNat - 0x80) * 64 +
        (d.toNat - 0x80)) : Utf8Form n [a, b, c, d]

/-- A property of all bytes is checked on the numbers below 256. -/
theorem forall_uint8 {P : UInt8 → Prop} (h : ∀ n < 256, P (UInt8.ofNat n)) (b : UInt8) : P b := by
  have hb := h b.toNat b.toNat_lt
  rwa [UInt8.ofNat_toNat] at hb

/-- The test a program makes for a continuation byte. -/
theorem and_mask_eq_iff : ∀ b : UInt8, b &&& 0xC0 = 0x80 ↔ Tail b :=
  forall_uint8 (by unfold Tail; decide +kernel)

variable {n : ℕ} {w w' : List UInt8} {c : Char}

/-- A number below 256 is the byte of that value. -/
theorem toNat_ofNat_lt {x : ℕ} (h : x < 256) : (UInt8.ofNat x).toNat = x := by
  rw [UInt8.toNat_ofNat']
  exact Nat.mod_eq_of_lt h

/-- A character is no surrogate and below `0x110000`. -/
theorem char_range (c : Char) : c.toNat < 0xD800 ∨ 0xDFFF < c.toNat ∧ c.toNat < 0x110000 :=
  c.valid

/-- The character with a value in range. -/
theorem exists_char_toNat (h : n < 0xD800 ∨ 0xDFFF < n ∧ n < 0x110000) :
    ∃ c : Char, c.toNat = n :=
  ⟨Char.ofNatAux n h, rfl⟩

/-- The four forms, by the size of the character. -/
theorem utf8EncodeChar_eq (c : Char) : String.utf8EncodeChar c =
    if c.toNat ≤ 0x7F then [UInt8.ofNat c.toNat]
    else if c.toNat ≤ 0x7FF then
      [UInt8.ofNat (c.toNat / 64 % 32 + 0xC0), UInt8.ofNat (c.toNat % 64 + 0x80)]
    else if c.toNat ≤ 0xFFFF then
      [UInt8.ofNat (c.toNat / 4096 % 16 + 0xE0), UInt8.ofNat (c.toNat / 64 % 64 + 0x80),
        UInt8.ofNat (c.toNat % 64 + 0x80)]
    else
      [UInt8.ofNat (c.toNat / 262144 % 8 + 0xF0), UInt8.ofNat (c.toNat / 4096 % 64 + 0x80),
        UInt8.ofNat (c.toNat / 64 % 64 + 0x80), UInt8.ofNat (c.toNat % 64 + 0x80)] := rfl

/-- The encoding of a character has the form of its value. -/
theorem utf8Form_encode (c : Char) : Utf8Form c.toNat (String.utf8EncodeChar c) := by
  have hrange := char_range c
  rw [utf8EncodeChar_eq]
  generalize c.toNat = n at hrange
  have hlast := toNat_ofNat_lt (x := n % 64 + 0x80) (by omega)
  have hthird := toNat_ofNat_lt (x := n / 64 % 64 + 0x80) (by omega)
  have hsecond := toNat_ofNat_lt (x := n / 4096 % 64 + 0x80) (by omega)
  split
  · have hfirst := toNat_ofNat_lt (x := n) (by omega)
    exact .one (by omega) hfirst.symm
  split
  · have hfirst := toNat_ofNat_lt (x := n / 64 % 32 + 0xC0) (by omega)
    exact .two (by omega) (by omega) (by unfold Tail; omega) (by omega)
  split
  · have hfirst := toNat_ofNat_lt (x := n / 4096 % 16 + 0xE0) (by omega)
    exact .three (by omega) (by omega) (by unfold Tail; omega) (by unfold Tail; omega) (by omega)
      (by omega) (by omega)
  · have hfirst := toNat_ofNat_lt (x := n / 262144 % 8 + 0xF0) (by omega)
    exact .four (by omega) (by omega) (by unfold Tail; omega) (by unfold Tail; omega)
      (by unfold Tail; omega) (by omega) (by omega) (by omega)

/-- How many bytes a value takes. -/
theorem Utf8Form.length_eq (h : Utf8Form n w) :
    w.length = if n ≤ 0x7F then 1 else if n ≤ 0x7FF then 2 else if n ≤ 0xFFFF then 3 else 4 := by
  cases h with
  | one ha hn => rw [if_pos (by omega)]; rfl
  | two ha ha' hb hn =>
      unfold Tail at hb
      rw [if_neg (by omega), if_pos (by omega)]
      rfl
  | three ha ha' hb hc hlong hsurr hn =>
      unfold Tail at hb hc
      rw [if_neg (by omega), if_neg (by omega), if_pos (by omega)]
      rfl
  | four ha ha' hb hc hd hlong hmax hn =>
      unfold Tail at hb hc hd
      rw [if_neg (by omega), if_neg (by omega), if_neg (by omega)]
      rfl

/-- A form stands for a character. -/
theorem Utf8Form.range (h : Utf8Form n w) : n < 0xD800 ∨ 0xDFFF < n ∧ n < 0x110000 := by
  cases h with
  | one ha hn => omega
  | two ha ha' hb hn =>
      unfold Tail at hb
      omega
  | three ha ha' hb hc hlong hsurr hn =>
      unfold Tail at hb hc
      omega
  | four ha ha' hb hc hd hlong hmax hn =>
      unfold Tail at hb hc hd
      omega

/-- A value determines the bytes of its form. -/
theorem Utf8Form.unique (h : Utf8Form n w) (h' : Utf8Form n w') : w = w' := by
  have hlen : w.length = w'.length := h.length_eq.trans h'.length_eq.symm
  cases h with
  | @one a ha hn =>
      cases h' with
      | @one x hx hn' =>
          have h0 : a = x := UInt8.toNat_inj.mp (hn.symm.trans hn')
          rw [h0]
      | two | three | four => cases hlen
  | @two a b ha ha' hb hn =>
      cases h' with
      | @two x y hx hx' hy hn' =>
          unfold Tail at hb hy
          have h0 : a = x := UInt8.toNat_inj.mp (by omega)
          have h1 : b = y := UInt8.toNat_inj.mp (by omega)
          rw [h0, h1]
      | one | three | four => cases hlen
  | @three a b c ha ha' hb hc hlong hsurr hn =>
      cases h' with
      | @three x y z hx hx' hy hz hlong' hsurr' hn' =>
          unfold Tail at hb hc hy hz
          have h0 : a = x := UInt8.toNat_inj.mp (by omega)
          have h1 : b = y := UInt8.toNat_inj.mp (by omega)
          have h2 : c = z := UInt8.toNat_inj.mp (by omega)
          rw [h0, h1, h2]
      | one | two | four => cases hlen
  | @four a b c d ha ha' hb hc hd hlong hmax hn =>
      cases h' with
      | @four x y z u hx hx' hy hz hu hlong' hmax' hn' =>
          unfold Tail at hb hc hd hy hz hu
          have h0 : a = x := UInt8.toNat_inj.mp (by omega)
          have h1 : b = y := UInt8.toNat_inj.mp (by omega)
          have h2 : c = z := UInt8.toNat_inj.mp (by omega)
          have h3 : d = u := UInt8.toNat_inj.mp (by omega)
          rw [h0, h1, h2, h3]
      | one | two | three => cases hlen

/-- Every form is that of a scalar value, and is its encoding. -/
theorem Utf8Form.exists_char (h : Utf8Form n w) :
    ∃ c : Char, c.toNat = n ∧ String.utf8EncodeChar c = w := by
  obtain ⟨c, hc⟩ := exists_char_toNat h.range
  exact ⟨c, hc, (hc ▸ utf8Form_encode c).unique h⟩

/-! ## Texts -/

/-- The encoding of a text. -/
def utf8 (cs : List Char) : List UInt8 := cs.flatMap String.utf8EncodeChar

/-- No character has no bytes. -/
@[simp] theorem utf8_nil : utf8 [] = [] := rfl

/-- The bytes of the characters follow one another. -/
@[simp] theorem utf8_cons (c : Char) (cs : List Char) :
    utf8 (c :: cs) = String.utf8EncodeChar c ++ utf8 cs := List.flatMap_cons

/-- No form is empty. -/
theorem Utf8Form.length_pos (h : Utf8Form n w) : 0 < w.length := by
  cases h <;> exact Nat.succ_pos _

/-- A byte below `80` occurs only as the encoding of its own character. -/
theorem Utf8Form.eq_of_mem_low (h : Utf8Form n w) {b : UInt8} (hb : b.toNat < 0x80) (hmem : b ∈ w) :
    n = b.toNat ∧ w = [b] := by
  cases h with
  | one ha hn =>
      rw [List.mem_singleton] at hmem
      subst hmem
      exact ⟨hn, rfl⟩
  | two ha ha' hb' hn =>
      unfold Tail at hb'
      simp only [List.mem_cons, List.not_mem_nil, or_false] at hmem
      rcases hmem with rfl | rfl <;> omega
  | three ha ha' hb' hc hlong hsurr hn =>
      unfold Tail at hb' hc
      simp only [List.mem_cons, List.not_mem_nil, or_false] at hmem
      rcases hmem with rfl | rfl | rfl <;> omega
  | four ha ha' hb' hc hd hlong hmax hn =>
      unfold Tail at hb' hc hd
      simp only [List.mem_cons, List.not_mem_nil, or_false] at hmem
      rcases hmem with rfl | rfl | rfl | rfl <;> omega

/-- Only the character NUL has a byte 0. -/
theorem zero_notMem_encode (hc : c ≠ '\x00') : 0 ∉ String.utf8EncodeChar c := by
  intro hmem
  have hz := ((utf8Form_encode c).eq_of_mem_low (by decide) hmem).1
  exact hc (Char.toNat_inj.mp hz)

/-- No character has more than four bytes. -/
theorem length_encode_le (c : Char) : (String.utf8EncodeChar c).length ≤ 4 := by
  rw [(utf8Form_encode c).length_eq]
  split_ifs <;> omega

/-! ## Bits -/

/-- Two numbers that share no bit because the lower ends where the upper begins. -/
theorem or_eq_add (k : ℕ) {x y : ℕ} (hx : x % 2 ^ k = 0) (hy : y < 2 ^ k) : x ||| y = x + y := by
  obtain ⟨a, rfl⟩ := Nat.dvd_of_mod_eq_zero hx
  rw [Nat.mul_comm, ← Nat.shiftLeft_eq, Nat.shiftLeft_add_eq_or_of_lt hy]

end Clib
