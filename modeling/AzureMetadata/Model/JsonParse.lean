import AzureMetadata.Clib.Strtod
import AzureMetadata.Model.JsonBuffer
import AzureMetadata.Model.JsonTree
import AzureMetadata.Model.JsonUnicode

/-!
# The parser of `src/json.c`

Lines 361-377, 433-446, 623-972 and 1256-1266.  A function that is passed `out` or
`NULL` has a parameter `out` that says which, and what it stores through `out` is an
`Option`.  `parse_value` calls itself through `parse_array` and `parse_object`; `frames`
is how many of its calls the stack holds at one time.
-/

set_option autoImplicit false

namespace AzureMetadata.Model

open Clib Scanner

variable (F : Floating) (A : Allocator UInt8)

/-- What is stored through a pointer that may be `NULL`. -/
def given {α : Type} (out : Bool) (a : α) : Option α := if out then some a else none

def isJsonSpace (c : UInt8) : Bool :=
  c = chr '\t' ∨ c = chr '\n' ∨ c = chr '\r' ∨ c = chr ' '

/-- `skip_space` (json.c:966-972). -/
def skipSpace : JsonScanner Unit := skipWhile (.fault .outOfBounds) isJsonSpace

/-- `expect_literal` (json.c:1256-1266). -/
def expectLiteral : List UInt8 → JsonScanner Unit
  | [] => pure ()
  | c :: str => do
    if (← derefNext) ≠ c then fail else expectLiteral str

/-! ## Strings -/

/-- The characters `utf8_write_char` writes for the value of a `\u` escape. -/
def parseUnicodeEscape : JsonScanner (List UInt8) := do
  let uc ← parseHex16
  if uc ≥ 0xD800 ∧ uc ≤ 0xDFFF then
    if (← derefNext) ≠ chr '\\' then fail
    else if (← derefNext) ≠ chr 'u' then fail
    else
      match fromSurrogatePair uc (← parseHex16) with
      | none => fail
      | some unicode => effect (utf8WriteChar unicode)
  else if uc = 0 then fail
  else effect (utf8WriteChar uc.toUInt32)

/-- The characters that the escape with the letter `c` stands for. -/
def parseEscape (c : UInt8) : JsonScanner (List UInt8) :=
  if c = chr '"' ∨ c = chr '\\' ∨ c = chr '/' then pure [c]
  else if c = chr 'b' then pure [8]
  else if c = chr 'f' then pure [12]
  else if c = chr 'n' then pure [10]
  else if c = chr 'r' then pure [13]
  else if c = chr 't' then pure [9]
  else if c = chr 'u' then parseUnicodeEscape
  else fail

/-- One round of the loop of `parse_string` up to its writes: the bytes it writes to `b`. -/
def parseChar : JsonScanner (List UInt8) := do
  let c ← deref
  if c = chr '\\' then
    let _ ← derefNext
    parseEscape (← derefNext)
  else if c ≤ 0x1F then fail
  else
    let s ← cells
    let len ← effect (utf8ValidateCz s)
    if len = 0 then fail
    else
      advance len
      pure (s.take len)

/-- The writes of a round: into the buffer, which then gets room for four more bytes, or
into `throwaway_buffer`, which has four. -/
def storeChar (bytes : List UInt8) : Option SB → Requests (Option SB)
  | none => if bytes.length ≤ 4 then pure none else throw (.fault .outOfBounds)
  | some sb => do
    let sb ← sbStore sb bytes
    return some (← sbNeed A sb 4)

/-- The body of the loop. -/
def parseStringChar (sb : Option SB) : JsonScanner (Option SB ⊕ Option SB) := do
  let bytes ← parseChar
  return .inl (← effect (storeChar A bytes sb))

/-- A round of the loop, or the `s++` after it. -/
def parseStringRound (sb : Option SB) : JsonScanner (Option SB ⊕ Option SB) := do
  if (← deref) = chr '"' then
    let _ ← derefNext
    pure (.inr sb)
  else parseStringChar A sb

/-- The buffer of `parse_string`, when it has one. -/
def startString (out : Bool) : Requests (Option SB) :=
  if out then do
    let sb ← sbInit A
    return some (← sbNeed A sb 4)
  else pure none

def finishString : Option SB → Except Stop (Option CString)
  | none => pure none
  | some sb => do return some (← sbFinish sb)

/-- `parse_string` (json.c:793-906). -/
def parseString (out : Bool) : JsonScanner (Option CString) := do
  if (← derefNext) ≠ chr '"' then fail
  else
    let sb ← effect (startString A out)
    let sb ← loop .loopLimit (parseStringRound A) sb
    effect (finishString sb)

/-! ## Numbers -/

/-- `if (!is_digit(*s)) return false; do { s++; } while (is_digit(*s));` -/
def parseDigits : JsonScanner Unit := do
  if isDigit (← deref) then skipWhile (.fault .outOfBounds) isDigit else fail

/-- `'-'?` -/
def parseSign : JsonScanner Unit := do
  if (← deref) = chr '-' then discard derefNext else pure ()

/-- `(0 | [1-9][0-9]*)` -/
def parseWhole : JsonScanner Unit := do
  if (← deref) = chr '0' then discard derefNext else parseDigits

/-- `('.' [0-9]+)?` -/
def parseFraction : JsonScanner Unit := do
  if (← deref) = chr '.' then
    let _ ← derefNext
    parseDigits
  else pure ()

/-- `[+-]?` -/
def parseExponentSign : JsonScanner Unit := do
  let c ← deref
  if c = chr '+' ∨ c = chr '-' then discard derefNext else pure ()

/-- `([Ee] [+-]? [0-9]+)?` -/
def parseExponent : JsonScanner Unit := do
  let c ← deref
  if c = chr 'E' ∨ c = chr 'e' then
    let _ ← derefNext
    parseExponentSign
    parseDigits
  else pure ()

/-- `strtod`. -/
def strtod (s : List UInt8) : F.double := F.value (strtodSubject s)

/-- `parse_number` (json.c:918-964). -/
def parseNumber (out : Bool) : JsonScanner (Option F.double) := do
  let sp ← cells
  parseSign
  parseWhole
  parseFraction
  parseExponent
  return given out (strtod F sp)

/-! ## Values -/

/-- `mknode` (json.c:486-493) with the assignment to the node's members; there is no call
of it when `out` is `NULL`. -/
def mknode {α : Type} : Option α → Requests (Option α)
  | none => pure none
  | some v => fun k => if (A k).granted then .ok (some v, k + 1) else .error .exit

/-- `if (out) json_append_element(ret, element)`, or `append_member`. -/
def appendTo {α : Type} (ret : Option (List α)) (child : Option α) : Option (List α) :=
  match ret, child with
  | some children, some child => some (children ++ [child])
  | _, _ => none

section Containers

variable {F} (value : JsonScanner (Option (JsonTree F.double)))

/-- What follows an element or a member: the end of the container, or a comma. -/
def parseSeparator {β : Type} (close : UInt8) (ret : β) : JsonScanner (β ⊕ β) := do
  if (← deref) = close then
    let _ ← derefNext
    pure (.inr ret)
  else if (← derefNext) ≠ chr ',' then fail
  else
    skipSpace
    pure (.inl ret)

/-- A round of the loop of `parse_array`. -/
def parseElement (ret : Option (List (JsonTree F.double))) :
    JsonScanner (Option (List (JsonTree F.double)) ⊕ Option (List (JsonTree F.double))) := do
  let element ← value
  skipSpace
  parseSeparator (chr ']') (appendTo ret element)

/-- `parse_array` (json.c:693-735); `value` is the call of `parse_value`. -/
def parseArray (out : Bool) : JsonScanner (Option (JsonTree F.double)) := do
  let ret ← effect (mknode A (given out []))
  if (← derefNext) ≠ chr '[' then fail
  else
    skipSpace
    if (← deref) = chr ']' then
      let _ ← derefNext
      pure (ret.map .JSON_ARRAY)
    else
      let ret ← loop .loopLimit (parseElement value) ret
      pure (ret.map .JSON_ARRAY)

/-- A round of the loop of `parse_object`. -/
def parseMember (out : Bool) (ret : Option (List (CString × JsonTree F.double))) :
    JsonScanner (Option (List (CString × JsonTree F.double)) ⊕
      Option (List (CString × JsonTree F.double))) := do
  let key ← parseString A out
  skipSpace
  if (← derefNext) ≠ chr ':' then fail
  else
    skipSpace
    let v ← value
    skipSpace
    parseSeparator (chr '}') (appendTo ret (key.bind fun key => v.map (Prod.mk key)))

/-- `parse_object` (json.c:737-791). -/
def parseObject (out : Bool) : JsonScanner (Option (JsonTree F.double)) := do
  let ret ← effect (mknode A (given out []))
  if (← derefNext) ≠ chr '{' then fail
  else
    skipSpace
    if (← deref) = chr '}' then
      let _ ← derefNext
      pure (ret.map .JSON_OBJECT)
    else
      let ret ← loop .loopLimit (parseMember A value out) ret
      pure (ret.map .JSON_OBJECT)

end Containers

/-- One of the cases of `parse_value` that are a word. -/
def parseWord (out : Bool) (word : List UInt8) (v : JsonTree F.double) :
    JsonScanner (Option (JsonTree F.double)) := do
  expectLiteral word
  effect (mknode A (given out v))

/-- `parse_value` (json.c:623-691). -/
def parseValue (out : Bool) : ℕ → JsonScanner (Option (JsonTree F.double))
  | 0 => halt .stackOverflow
  | frames + 1 => do
    let c ← deref
    if c = chr 'n' then parseWord F A out (ascii "null") .JSON_NULL
    else if c = chr 'f' then parseWord F A out (ascii "false") (.JSON_BOOL false)
    else if c = chr 't' then parseWord F A out (ascii "true") (.JSON_BOOL true)
    else if c = chr '"' then
      let str ← parseString A out
      effect (mknode A (str.map .JSON_STRING))
    else if c = chr '[' then parseArray A (parseValue out frames) out
    else if c = chr '{' then parseObject A (parseValue out frames) out
    else
      let num ← parseNumber F out
      effect (mknode A (num.map .JSON_NUMBER))

/-- The common text of `json_decode` and `json_validate`: a value and nothing after it. -/
def parseText (out : Bool) (frames : ℕ) : JsonScanner (Option (JsonTree F.double)) := do
  skipSpace
  let ret ← parseValue F A out frames
  skipSpace
  if (← deref) ≠ 0 then fail else pure ret

/-- `json_decode` (json.c:361-377). -/
def jsonDecode (frames : ℕ) (json : CString) : Except Stop (Option (JsonTree F.double)) := do
  match ← parseText F A true frames (json.bytes ++ [0]) 0 with
  | (none, _) => return none
  | (some (ret, _), _) => return ret

/-- `json_validate` (json.c:433-446). -/
def jsonValidate (frames : ℕ) (json : CString) : Except Stop Bool := do
  match ← parseText F A false frames (json.bytes ++ [0]) 0 with
  | (none, _) => return false
  | (some _, _) => return true

end AzureMetadata.Model
