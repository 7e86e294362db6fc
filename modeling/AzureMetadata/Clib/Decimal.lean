import AzureMetadata.Clib.Blocks
import Mathlib.Data.Nat.Log

/-!
# Decimal numbers in text

What `printf` writes for `%0wd` and a number that is not negative, and what `sscanf` reads
with `%wd`, `%c` and ordinary characters, in the C locale.  `scanInt_padded` says that a
number of at most `w` digits is read back.
-/

set_option autoImplicit false

namespace Clib

/-! ## Digits -/

def digitChar (d : ℕ) : UInt8 := UInt8.ofNat (48 + d)

def isDigit (c : UInt8) : Bool := 48 ≤ c.toNat ∧ c.toNat ≤ 57

/-- The value of a string of digits. -/
def digitsValue (digits : List UInt8) : ℕ := digits.foldl (fun v c => 10 * v + (c.toNat - 48)) 0

/-- The last `w` decimal digits of `n`. -/
def paddedDigits : ℕ → ℕ → List UInt8
  | 0, _ => []
  | w + 1, n => paddedDigits w (n / 10) ++ [digitChar (n % 10)]

/-- The digits `n` has. -/
def numDigits (n : ℕ) : ℕ := Nat.log 10 n + 1

/-- `%0wd`: all digits, and zeros before them up to the width. -/
def printPadded (w n : ℕ) : List UInt8 := paddedDigits (max w (numDigits n)) n

/-- What `snprintf` leaves of a text in a buffer of `size` bytes, and the NUL. -/
def snprintf (size : ℕ) (text : List UInt8) : List UInt8 := text.take (size - 1) ++ [0]

/-- The digits follow `0` in the character set. -/
theorem toNat_digitChar {d : ℕ} (hd : d < 10) : (digitChar d).toNat = 48 + d := by
  rw [digitChar, UInt8.toNat_ofNat']
  omega

/-- There are as many digits as asked for. -/
theorem length_paddedDigits (w n : ℕ) : (paddedDigits w n).length = w := by
  induction w generalizing n with
  | zero => rfl
  | succ w ih => rw [paddedDigits, List.length_append, ih, List.length_singleton]

/-- Each of them is a digit. -/
theorem isDigit_of_mem {w n : ℕ} {c : UInt8} (hc : c ∈ paddedDigits w n) : isDigit c = true := by
  induction w generalizing n with
  | zero => cases hc
  | succ w ih =>
      rw [paddedDigits, List.mem_append, List.mem_singleton] at hc
      cases hc with
      | inl hc => exact ih hc
      | inr hc =>
          have hlt := Nat.mod_lt n (by decide : 0 < 10)
          have hval := toNat_digitChar hlt
          rw [hc, isDigit, hval]
          simp
          omega

/-- Their value is the number, less what does not fit. -/
theorem digitsValue_paddedDigits (w n : ℕ) : digitsValue (paddedDigits w n) = n % 10 ^ w := by
  induction w generalizing n with
  | zero => simp [paddedDigits, digitsValue, Nat.mod_one]
  | succ w ih =>
      have hlast := toNat_digitChar (Nat.mod_lt n (by decide : 0 < 10))
      have hsplit : n % 10 ^ (w + 1) = 10 * (n / 10 % 10 ^ w) + n % 10 := by
        rw [pow_succ', Nat.mod_mul, Nat.add_comm]
      have hfirst := ih (n / 10)
      unfold digitsValue at hfirst ⊢
      rw [paddedDigits, List.foldl_append, hfirst, List.foldl_cons, List.foldl_nil, hlast, hsplit]
      omega

/-- A number that fits has the width. -/
theorem printPadded_eq {w n : ℕ} (hw : 0 < w) (hn : n < 10 ^ w) :
    printPadded w n = paddedDigits w n := by
  have hdigits : numDigits n ≤ w := by
    unfold numDigits
    by_cases hzero : n = 0
    · rw [hzero, Nat.log_zero_right]
      omega
    · exact Nat.log_lt_of_lt_pow hzero hn
  rw [printPadded, Nat.max_eq_left hdigits]

/-- A number that fits its width is printed in that width. -/
theorem length_printPadded {w n : ℕ} (hw : 0 < w) (hn : n < 10 ^ w) :
    (printPadded w n).length = w := by
  rw [printPadded_eq hw hn, length_paddedDigits]

/-- A digit is not a NUL. -/
theorem zero_notMem_paddedDigits (w n : ℕ) : 0 ∉ paddedDigits w n := by
  intro hmem
  have hdigit := isDigit_of_mem hmem
  simp [isDigit] at hdigit

/-- What is printed has no NUL. -/
theorem zero_notMem_printPadded (w n : ℕ) : 0 ∉ printPadded w n :=
  zero_notMem_paddedDigits _ n

/-- A text that fits is written whole. -/
theorem snprintf_whole {size : ℕ} {text : List UInt8} (h : text.length < size) :
    snprintf size text = text ++ [0] := by
  rw [snprintf, List.take_of_length_le (by omega)]

/-! ## The order of texts -/

/-- Among numbers of one width the texts are in the order of the numbers. -/
theorem strcmp_paddedDigits {w n n' : ℕ} (hlt : n < n') (hn' : n' < 10 ^ w)
    (s s' : List UInt8) : strcmp (paddedDigits w n ++ s) (paddedDigits w n' ++ s') < 0 := by
  induction w generalizing n n' s s' with
  | zero => omega
  | succ w ih =>
      rw [paddedDigits, paddedDigits, List.append_assoc, List.append_assoc]
      by_cases hsame : n / 10 = n' / 10
      · have hdigit := toNat_digitChar (Nat.mod_lt n (by decide : 0 < 10))
        have hdigit' := toNat_digitChar (Nat.mod_lt n' (by decide : 0 < 10))
        rw [hsame, strcmp_append (zero_notMem_paddedDigits _ _)]
        apply strcmp_cons_lt
        omega
      · apply ih
        · omega
        · rw [pow_succ] at hn'
          omega

/-- Of two texts that begin with numbers of one width. -/
theorem strcmp_printPadded {w n n' : ℕ} (hw : 0 < w) (hn : n < 10 ^ w) (hn' : n' < 10 ^ w)
    {s s' : List UInt8} (h : n < n' ∨ n = n' ∧ strcmp s s' < 0) :
    strcmp (printPadded w n ++ s) (printPadded w n' ++ s') < 0 := by
  rw [printPadded_eq hw hn, printPadded_eq hw hn']
  cases h with
  | inl hlt => exact strcmp_paddedDigits hlt hn' s s'
  | inr hsame =>
      obtain ⟨hsame, hrest⟩ := hsame
      rw [hsame, strcmp_append (zero_notMem_paddedDigits _ _)]
      exact hrest

/-- The same with a character after the number. -/
theorem strcmp_field {w n n' : ℕ} {c : UInt8} (hw : 0 < w) (hn : n < 10 ^ w) (hn' : n' < 10 ^ w)
    (hc : c ≠ 0) {s s' : List UInt8} (h : n < n' ∨ n = n' ∧ strcmp s s' < 0) :
    strcmp (printPadded w n ++ c :: s) (printPadded w n' ++ c :: s') < 0 := by
  have hcons : strcmp (c :: s) (c :: s') = strcmp s s' := by rw [strcmp, if_pos ⟨rfl, hc⟩]
  apply strcmp_printPadded hw hn hn'
  rw [hcons]
  exact h

/-! ## Scanning -/

/-- The white space of the C locale. -/
def isWhite (c : UInt8) : Bool := c = 32 ∨ 9 ≤ c.toNat ∧ c.toNat ≤ 13

/-- The digits at the beginning of `src`, `w` at most, and what is after them. -/
def scanDigits (w : ℕ) (negative : Bool) (src : List UInt8) : Option (ℤ × List UInt8) :=
  let digits := (src.take w).takeWhile isDigit
  if digits = [] then none
  else
    let value : ℤ := digitsValue digits
    some (if negative then -value else value, src.drop digits.length)

/-- `%wd`: white space, a sign that counts for the width, digits. -/
def scanInt (w : ℕ) (src : List UInt8) : Option (ℤ × List UInt8) :=
  match src.dropWhile isWhite with
  | [] => none
  | c :: rest =>
    if c = 45 then scanDigits (w - 1) true rest
    else if c = 43 then scanDigits (w - 1) false rest
    else scanDigits w false (c :: rest)

/-- A directive of a format: `%wd`, `%c`, or a character that is not white space. -/
inductive ScanDirective
  | int (w : ℕ)
  | char
  | literal (c : UInt8)

/-- The conversions; a character is only matched. -/
def ScanDirective.assigns : ScanDirective → Bool
  | .int _ => true
  | .char => true
  | .literal _ => false

/-- The values `sscanf` assigns: those before the first directive that does not match. -/
def sscanf : List ScanDirective → List UInt8 → List ℤ
  | [], _ => []
  | .int w :: format, src =>
    match scanInt w src with
    | none => []
    | some (value, src) => value :: sscanf format src
  | .char :: format, src =>
    match src with
    | [] => []
    | c :: src => c.toNat :: sscanf format src
  | .literal l :: format, src =>
    match src with
    | [] => []
    | c :: src => if c = l then sscanf format src else []

/-- A run of digits of the width is read as its value. -/
theorem scanDigits_all {digits : List UInt8} (hne : digits ≠ [])
    (hall : ∀ c ∈ digits, isDigit c = true) (rest : List UInt8) :
    scanDigits digits.length false (digits ++ rest) =
      some ((digitsValue digits : ℤ), rest) := by
  have htake : digits.takeWhile isDigit = digits := List.takeWhile_eq_self_iff.mpr hall
  simp only [scanDigits, List.take_left, htake, hne, if_false, List.drop_left, Bool.false_eq_true]

/-- A digit is neither white space nor a sign. -/
theorem scanInt_digit {w : ℕ} {c : UInt8} (hdigit : isDigit c = true) (rest : List UInt8) :
    scanInt w (c :: rest) = scanDigits w false (c :: rest) := by
  simp only [isDigit, decide_eq_true_eq] at hdigit
  have hspace : c ≠ 32 := by
    rintro rfl
    simp at hdigit
  have hwhite : isWhite c = false := by
    simp only [isWhite, hspace, false_or, decide_eq_false_iff_not]
    omega
  have hminus : c ≠ 45 := by
    rintro rfl
    simp at hdigit
  have hplus : c ≠ 43 := by
    rintro rfl
    simp at hdigit
  simp only [scanInt, List.dropWhile_cons, hwhite, Bool.false_eq_true, if_false, hminus, hplus]

/-- A number printed with a width and read with it, whatever comes after it. -/
theorem scanInt_padded {w n : ℕ} (hw : 0 < w) (hn : n < 10 ^ w) (rest : List UInt8) :
    scanInt w (printPadded w n ++ rest) = some ((n : ℤ), rest) := by
  have hall : ∀ c ∈ paddedDigits w n, isDigit c = true := fun c hc => isDigit_of_mem hc
  have hlen := length_paddedDigits w n
  have hne : paddedDigits w n ≠ [] := by
    apply List.ne_nil_of_length_pos
    omega
  have hvalue : digitsValue (paddedDigits w n) = n := by
    rw [digitsValue_paddedDigits, Nat.mod_eq_of_lt hn]
  have hscan := scanDigits_all hne hall rest
  rw [hlen, hvalue] at hscan
  rw [printPadded_eq hw hn]
  cases hdigits : paddedDigits w n with
  | nil => exact absurd hdigits hne
  | cons c digits =>
      rw [hdigits] at hall hscan
      have hfirst := hall c List.mem_cons_self
      rw [List.cons_append, scanInt_digit hfirst]
      exact hscan

/-! What a directive does to text that begins with what it matches. -/

section Directives

variable (format : List ScanDirective) (rest : List UInt8)

/-- A conversion of its width reads back the number that was printed. -/
theorem sscanf_padded {w n : ℕ} (hw : 0 < w) (hn : n < 10 ^ w) :
    sscanf (.int w :: format) (printPadded w n ++ rest) = (n : ℤ) :: sscanf format rest := by
  rw [sscanf, scanInt_padded hw hn]

/-- A literal character reads itself. -/
theorem sscanf_literal (c : UInt8) :
    sscanf (.literal c :: format) (c :: rest) = sscanf format rest := by
  rw [sscanf, if_pos rfl]

/-- `%c` reads any one character. -/
theorem sscanf_char (c : UInt8) :
    sscanf (.char :: format) (c :: rest) = (c.toNat : ℤ) :: sscanf format rest := rfl

end Directives

end Clib
