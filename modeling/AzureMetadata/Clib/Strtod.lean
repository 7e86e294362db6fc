import AzureMetadata.Clib.Decimal
import AzureMetadata.Clib.Outcome

/-!
# What `strtod` recognises

The text of a number that `strtod` finds at the beginning of its argument: the longest
beginning of the expected form, decimal or hexadecimal.  Infinities and not-a-numbers,
which begin with a letter after the sign, and white space in front are left out: no
caller passes them.
-/

set_option autoImplicit false

namespace Clib

def isHexDigit (c : UInt8) : Bool :=
  isDigit c || decide (chr 'a' ≤ c ∧ c ≤ chr 'f') || decide (chr 'A' ≤ c ∧ c ≤ chr 'F')

def signOf : List UInt8 → List UInt8
  | [] => []
  | c :: _ => if c = chr '+' ∨ c = chr '-' then [c] else []

/-- An exponent: one of the marks, a sign or none, and at least one digit. -/
def exponentOf (marks : List UInt8) : List UInt8 → List UInt8
  | [] => []
  | e :: s =>
    let digits := (s.drop (signOf s).length).takeWhile isDigit
    if e ∈ marks ∧ digits ≠ [] then e :: (signOf s ++ digits) else []

/-- Digits with at most one point among them, and at least one digit. -/
def mantissaOf (digit : UInt8 → Bool) (s : List UInt8) : List UInt8 :=
  let whole := s.takeWhile digit
  match s.dropWhile digit with
  | [] => whole
  | c :: s' =>
    let fraction := s'.takeWhile digit
    if c = chr '.' ∧ (whole ≠ [] ∨ fraction ≠ []) then whole ++ c :: fraction else whole

/-- A mantissa and the exponent after it, if there is one. -/
def unsignedOf (digit : UInt8 → Bool) (marks s : List UInt8) : List UInt8 :=
  let mantissa := mantissaOf digit s
  if mantissa = [] then [] else mantissa ++ exponentOf marks (s.drop mantissa.length)

/-- The hexadecimal number after `0x`. -/
def hexOf : List UInt8 → List UInt8
  | z :: x :: s =>
    if z = chr '0' ∧ (x = chr 'x' ∨ x = chr 'X') then
      let number := unsignedOf isHexDigit [chr 'p', chr 'P'] s
      if number = [] then [] else z :: x :: number
    else []
  | _ => []

/-- The subject sequence of `strtod`. -/
def strtodSubject (s : List UInt8) : List UInt8 :=
  let s' := s.drop (signOf s).length
  let hex := hexOf s'
  let number := if hex = [] then unsignedOf isDigit [chr 'e', chr 'E'] s' else hex
  if number = [] then [] else signOf s ++ number

example : strtodSubject (ascii "-12.50e+3,") = ascii "-12.50e+3" := by decide

example : strtodSubject (ascii "0x1F]") = ascii "0x1F" := by decide

end Clib
