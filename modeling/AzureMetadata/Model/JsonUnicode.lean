import AzureMetadata.Clib.Scanner
import Mathlib.Data.UInt

/-!
# The Unicode helpers of `src/json.c`

Lines 117-326 and 1268-1315.  A `const char *` is the list of the cells from it on, the
terminator included; a function that writes through a `char *` returns the bytes it
writes in their order, and their number is what it returns in C.
-/

set_option autoImplicit false

namespace AzureMetadata.Model

open Clib

/-- A function that moves a `const char **`; the state is the number of requests made. -/
abbrev JsonScanner (α : Type) := Scanner Stop ℕ UInt8 α

/-- `*s`. -/
def deref : JsonScanner UInt8 := Scanner.peek (.fault .outOfBounds)

/-- `*s++`. -/
def derefNext : JsonScanner UInt8 := Scanner.next (.fault .outOfBounds)

/-- `utf8_validate_cz` (json.c:151-203). -/
def utf8ValidateCz (s : List UInt8) : Except Stop ℕ := do
  let c ← cellAt s 0
  if c ≤ 0x7F then return 1
  else if c ≤ 0xC1 then return 0
  else if c ≤ 0xDF then
    let d ← cellAt s 1
    if d &&& 0xC0 ≠ 0x80 then return 0 else return 2
  else if c ≤ 0xEF then
    let d ← cellAt s 1
    if c = 0xE0 ∧ d < 0xA0 then return 0
    else if c = 0xED ∧ d > 0x9F then return 0
    else if d &&& 0xC0 ≠ 0x80 then return 0
    else
      let e ← cellAt s 2
      if e &&& 0xC0 ≠ 0x80 then return 0 else return 3
  else if c ≤ 0xF4 then
    let d ← cellAt s 1
    if c = 0xF0 ∧ d < 0x90 then return 0
    else if c = 0xF4 ∧ d > 0x8F then return 0
    else if d &&& 0xC0 ≠ 0x80 then return 0
    else
      let e ← cellAt s 2
      if e &&& 0xC0 ≠ 0x80 then return 0
      else
        let f ← cellAt s 3
        if f &&& 0xC0 ≠ 0x80 then return 0 else return 4
  else return 0

/-- The loop of `utf8_validate`, for at most so many rounds. -/
def utf8ValidateLoop : ℕ → List UInt8 → Except Stop Bool
  | 0, _ => throw .loopLimit
  | n + 1, s => do
    if (← cellAt s 0) = 0 then return true
    else
      let len ← utf8ValidateCz s
      if len = 0 then return false else utf8ValidateLoop n (s.drop len)

/-- `utf8_validate` (json.c:206-217); each round moves the pointer. -/
def utf8Validate (s : List UInt8) : Except Stop Bool := utf8ValidateLoop s.length s

/-- `utf8_read_char` (json.c:226-255): the length and `*out`. -/
def utf8ReadChar (s : List UInt8) : Except Stop (ℕ × UInt32) := do
  if (← utf8ValidateCz s) = 0 then throw .assertion
  else
    let c0 ← cellAt s 0
    if c0 ≤ 0x7F then return (1, c0.toUInt32)
    else if c0 ≤ 0xDF then
      let c1 ← cellAt s 1
      return (2, ((c0.toUInt32 &&& 0x1F) <<< 6) ||| (c1.toUInt32 &&& 0x3F))
    else if c0 ≤ 0xEF then
      let c1 ← cellAt s 1
      let c2 ← cellAt s 2
      return (3, ((c0.toUInt32 &&& 0xF) <<< 12) ||| ((c1.toUInt32 &&& 0x3F) <<< 6) |||
        (c2.toUInt32 &&& 0x3F))
    else
      let c1 ← cellAt s 1
      let c2 ← cellAt s 2
      let c3 ← cellAt s 3
      return (4, ((c0.toUInt32 &&& 0x7) <<< 18) ||| ((c1.toUInt32 &&& 0x3F) <<< 12) |||
        ((c2.toUInt32 &&& 0x3F) <<< 6) ||| (c3.toUInt32 &&& 0x3F))

/-- `utf8_write_char` (json.c:265-294). -/
def utf8WriteChar (unicode : UInt32) : Except Stop (List UInt8) :=
  if ¬ (unicode ≤ 0x10FFFF ∧ ¬ (unicode ≥ 0xD800 ∧ unicode ≤ 0xDFFF)) then .error .assertion
  else if unicode ≤ 0x7F then .ok [unicode.toUInt8]
  else if unicode ≤ 0x7FF then
    .ok [((0xC0 : UInt32) ||| unicode >>> 6).toUInt8,
      ((0x80 : UInt32) ||| (unicode &&& 0x3F)).toUInt8]
  else if unicode ≤ 0xFFFF then
    .ok [((0xE0 : UInt32) ||| unicode >>> 12).toUInt8,
      ((0x80 : UInt32) ||| (unicode >>> 6 &&& 0x3F)).toUInt8,
      ((0x80 : UInt32) ||| (unicode &&& 0x3F)).toUInt8]
  else
    .ok [((0xF0 : UInt32) ||| unicode >>> 18).toUInt8,
      ((0x80 : UInt32) ||| (unicode >>> 12 &&& 0x3F)).toUInt8,
      ((0x80 : UInt32) ||| (unicode >>> 6 &&& 0x3F)).toUInt8,
      ((0x80 : UInt32) ||| (unicode &&& 0x3F)).toUInt8]

/-- `from_surrogate_pair` (json.c:302-310). -/
def fromSurrogatePair (uc lc : UInt16) : Option UInt32 :=
  if uc ≥ 0xD800 ∧ uc ≤ 0xDBFF ∧ lc ≥ 0xDC00 ∧ lc ≤ 0xDFFF then
    some ((0x10000 : UInt32) + (((uc.toUInt32 &&& 0x3FF) <<< 10) ||| (lc &&& 0x3FF).toUInt32))
  else none

/-- `to_surrogate_pair` (json.c:317-326). -/
def toSurrogatePair (unicode : UInt32) : Except Stop (UInt16 × UInt16) :=
  if ¬ (unicode ≥ 0x10000 ∧ unicode ≤ 0x10FFFF) then .error .assertion
  else
    let n := unicode - 0x10000
    .ok ((((n >>> 10) &&& 0x3FF) ||| 0xD800).toUInt16, ((n &&& 0x3FF) ||| 0xDC00).toUInt16)

/-- The value `tmp` of a character in `parse_hex16`, if it is a hexadecimal digit. -/
def hexDigit (c : UInt8) : Option UInt16 :=
  if c ≥ chr '0' ∧ c ≤ chr '9' then some (c.toUInt16 - (chr '0').toUInt16)
  else if c ≥ chr 'A' ∧ c ≤ chr 'F' then some (c.toUInt16 - (chr 'A').toUInt16 + 10)
  else if c ≥ chr 'a' ∧ c ≤ chr 'f' then some (c.toUInt16 - (chr 'a').toUInt16 + 10)
  else none

/-- The `for` loop of `parse_hex16` with so many rounds left. -/
def parseHexDigits : ℕ → UInt16 → JsonScanner UInt16
  | 0, ret => pure ret
  | i + 1, ret => do
    match hexDigit (← derefNext) with
    | none => Scanner.fail
    | some tmp => parseHexDigits i ((ret <<< 4) + tmp)

/-- `parse_hex16` (json.c:1272-1299). -/
def parseHex16 : JsonScanner UInt16 := parseHexDigits 4 0

/-- The array `hex` of `write_hex16`. -/
def hexDigits : List UInt8 := ascii "0123456789ABCDEF"

/-- `write_hex16` (json.c:1305-1315). -/
def writeHex16 (val : UInt16) : List UInt8 :=
  [hexDigits.getD ((val >>> 12) &&& 0xF).toNat 0, hexDigits.getD ((val >>> 8) &&& 0xF).toNat 0,
    hexDigits.getD ((val >>> 4) &&& 0xF).toNat 0, hexDigits.getD (val &&& 0xF).toNat 0]

end AzureMetadata.Model
