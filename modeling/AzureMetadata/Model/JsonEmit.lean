import AzureMetadata.Model.JsonParse

/-!
# The writer of `src/json.c`

Lines 379-405, 974-1254 and 1305-1315.  A function that appends to an `SB` takes it last
and returns it.  The containers are written by functions of what writes their children,
as in the parser; a tag outside `JsonTag` cannot be built, so the assertion on it holds.
The `int indent_level` is a number here, which does not overflow, and the calls that these
functions make of themselves take no frames: that the stack limits the nesting is followed in
the parser, in `json_delete` and in `json_check`, and left out here.
-/

set_option autoImplicit false

namespace AzureMetadata.Model

open Clib Scanner

variable (F : Floating) (A : Allocator UInt8)

/-! ## Strings -/

/-- The letter of the escape of a character that has one, in the `switch` of `emit_string`. -/
def escapeLetter (c : UInt8) : Option UInt8 :=
  if c = chr '"' then some (chr '"')
  else if c = chr '\\' then some (chr '\\')
  else if c = 8 then some (chr 'b')
  else if c = 12 then some (chr 'f')
  else if c = 10 then some (chr 'n')
  else if c = 13 then some (chr 'r')
  else if c = 9 then some (chr 't')
  else none

/-- `\u....`, or a surrogate pair. -/
def escapeUnicode (unicode : UInt32) : Except Stop (List UInt8) :=
  if unicode ≤ 0xFFFF then return chr '\\' :: chr 'u' :: writeHex16 unicode.toUInt16
  else do
    let (uc, lc) ← toSurrogatePair unicode
    return chr '\\' :: chr 'u' :: writeHex16 uc ++ chr '\\' :: chr 'u' :: writeHex16 lc

/-- A round of the loop of `emit_string`: the bytes it writes and the pointer after it.
`escapes` is the constant `escape_unicode`; what follows `assert(false)` is not reached. -/
def emitChar (escapes : Bool) (s : List UInt8) : Except Stop (List UInt8 × List UInt8) := do
  let c ← cellAt s 0
  match escapeLetter c with
  | some letter => return ([chr '\\', letter], s.drop 1)
  | none =>
    let len ← utf8ValidateCz s
    if len = 0 then throw .assertion
    else if c < 0x1F ∨ c ≥ 0x80 ∧ escapes then
      let (n, unicode) ← utf8ReadChar s
      return (← escapeUnicode unicode, s.drop n)
    else return (s.take len, s.drop len)

/-- The loop of `emit_string`, for at most so many rounds. -/
def emitStringLoop (escapes : Bool) : ℕ → List UInt8 → SB → Requests SB
  | 0, _, _ => throw .loopLimit
  | n + 1, s, out => do
    if (← cellAt s 0) = 0 then pure out
    else
      let (bytes, s) ← emitChar escapes s
      let out ← sbStore out bytes
      let out ← sbNeed A out 14
      emitStringLoop escapes n s out

/-- `emit_string` with its constant as an argument. -/
def emitStringWith (escapes : Bool) (str : CString) (out : SB) : Requests SB := do
  if (← utf8Validate (str.bytes ++ [0])) = false then throw .assertion
  else
    let out ← sbNeed A out 14
    let out ← sbStore out [chr '"']
    let out ← emitStringLoop A escapes (str.bytes ++ [0]).length (str.bytes ++ [0]) out
    sbStore out [chr '"']

/-- `emit_string` (json.c:1106-1227). -/
def emitString : CString → SB → Requests SB := emitStringWith A false

/-! ## Numbers -/

/-- `number_is_valid` (json.c:1251-1254). -/
def numberIsValid (num : CString) : Except Stop Bool := do
  match ← parseNumber F false (num.bytes ++ [0]) 0 with
  | (none, _) => return false
  | (some (_, s), _) => return (← cellAt s 0) = 0

/-- `emit_number` (json.c:1229-1244); `sprintf` does not look at the size of `buf`. -/
def emitNumber (num : F.double) (out : SB) : Requests SB := do
  let buf := F.format num
  if 64 ≤ buf.bytes.length then throw (.fault .outOfBounds)
  else if ← numberIsValid F buf then sbPuts A out buf.bytes
  else sbPuts A out (ascii "null")

/-! ## Values -/

/-- `emit_array` (json.c:1028-1039). -/
def emitArray (elements : SB → Requests SB) (out : SB) : Requests SB := do
  let out ← sbPutc A out (chr '[')
  let out ← elements out
  sbPutc A out (chr ']')

/-- `emit_object` (json.c:1065-1078). -/
def emitObject (members : SB → Requests SB) (out : SB) : Requests SB := do
  let out ← sbPutc A out (chr '{')
  let out ← members out
  sbPutc A out (chr '}')

/-- `if (element->next != NULL) sb_putc(out, ',');` -/
def emitComma {α : Type} (next : List α) (out : SB) : Requests SB :=
  if next.isEmpty then pure out else sbPutc A out (chr ',')

mutual

/-- `emit_value` (json.c:974-999). -/
def emitValue : JsonTree F.double → SB → Requests SB
  | .JSON_NULL, out => sbPuts A out (ascii "null")
  | .JSON_BOOL bool_, out => sbPuts A out (if bool_ then ascii "true" else ascii "false")
  | .JSON_STRING string_, out => emitString A string_ out
  | .JSON_NUMBER number_, out => emitNumber F A number_ out
  | .JSON_ARRAY children, out => emitArray A (emitElements children) out
  | .JSON_OBJECT children, out => emitObject A (emitMembers children) out

/-- The loop of `emit_array`. -/
def emitElements : List (JsonTree F.double) → SB → Requests SB
  | [], out => pure out
  | element :: next, out => do
    let out ← emitValue element out
    let out ← emitComma A next out
    emitElements next out

/-- The loop of `emit_object`. -/
def emitMembers : List (CString × JsonTree F.double) → SB → Requests SB
  | [], out => pure out
  | (key, member) :: next, out => do
    let out ← emitString A key out
    let out ← sbPutc A out (chr ':')
    let out ← emitValue member out
    let out ← emitComma A next out
    emitMembers next out

end

/-! ## Values with indentation -/

/-- `for (i = 0; i < n; i++) sb_puts(out, space);` -/
def emitIndent (space : CString) : ℕ → SB → Requests SB
  | 0, out => pure out
  | n + 1, out => do
    let out ← sbPuts A out space.bytes
    emitIndent space n out

/-- `sb_puts(out, element != NULL ? ",\n" : "\n");` -/
def emitNewline {α : Type} (next : List α) (out : SB) : Requests SB :=
  sbPuts A out (if next.isEmpty then ascii "\n" else ascii ",\n")

/-- `emit_array_indented` (json.c:1041-1063). -/
def emitArrayIndented {α : Type} (children : List α) (elements : SB → Requests SB)
    (space : CString) (indent_level : ℕ) (out : SB) : Requests SB :=
  if children.isEmpty then sbPuts A out (ascii "[]")
  else do
    let out ← sbPuts A out (ascii "[\n")
    let out ← elements out
    let out ← emitIndent A space indent_level out
    sbPutc A out (chr ']')

/-- `emit_object_indented` (json.c:1080-1104). -/
def emitObjectIndented {α : Type} (children : List α) (members : SB → Requests SB)
    (space : CString) (indent_level : ℕ) (out : SB) : Requests SB :=
  if children.isEmpty then sbPuts A out [chr '{', chr '}']
  else do
    let out ← sbPuts A out [chr '{', chr '\n']
    let out ← members out
    let out ← emitIndent A space indent_level out
    sbPutc A out (chr '}')

mutual

/-- `emit_value_indented` (json.c:1001-1026). -/
def emitValueIndented (space : CString) : JsonTree F.double → ℕ → SB → Requests SB
  | .JSON_NULL, _, out => sbPuts A out (ascii "null")
  | .JSON_BOOL bool_, _, out => sbPuts A out (if bool_ then ascii "true" else ascii "false")
  | .JSON_STRING string_, _, out => emitString A string_ out
  | .JSON_NUMBER number_, _, out => emitNumber F A number_ out
  | .JSON_ARRAY children, indent_level, out =>
    emitArrayIndented A children (emitElementsIndented space children indent_level) space
      indent_level out
  | .JSON_OBJECT children, indent_level, out =>
    emitObjectIndented A children (emitMembersIndented space children indent_level) space
      indent_level out

/-- The loop of `emit_array_indented`. -/
def emitElementsIndented (space : CString) : List (JsonTree F.double) → ℕ → SB → Requests SB
  | [], _, out => pure out
  | element :: next, indent_level, out => do
    let out ← emitIndent A space (indent_level + 1) out
    let out ← emitValueIndented space element (indent_level + 1) out
    let out ← emitNewline A next out
    emitElementsIndented space next indent_level out

/-- The loop of `emit_object_indented`. -/
def emitMembersIndented (space : CString) :
    List (CString × JsonTree F.double) → ℕ → SB → Requests SB
  | [], _, out => pure out
  | (key, member) :: next, indent_level, out => do
    let out ← emitIndent A space (indent_level + 1) out
    let out ← emitString A key out
    let out ← sbPuts A out (ascii ": ")
    let out ← emitValueIndented space member (indent_level + 1) out
    let out ← emitNewline A next out
    emitMembersIndented space next indent_level out

end

/-! ## Texts -/

/-- An `SB` that a function fills. -/
def inBuffer (fill : SB → Requests SB) : Requests CString := do
  let sb ← sbInit A
  let sb ← fill sb
  sbFinish sb

/-- `json_stringify` (json.c:394-405). -/
def jsonStringify (node : JsonTree F.double) (space : Option CString) : Requests CString :=
  inBuffer A (match space with
    | some space => emitValueIndented F A space node 0
    | none => emitValue F A node)

/-- `json_encode` (json.c:379-382). -/
def jsonEncode (node : JsonTree F.double) : Requests CString := jsonStringify F A node none

/-- `json_encode_string` (json.c:384-392). -/
def jsonEncodeString (str : CString) : Requests CString := inBuffer A (emitString A str)

end AzureMetadata.Model
