import AzureMetadata.Model.JsonNodes
import AzureMetadata.Model.JsonParse

/-!
# The parser of `src/json.c` with its nodes

Lines 361-377 and 623-791 again, now with the nodes that the parser makes and links, and
deletes when it fails.  The scanners of `AzureMetadata.Model.JsonParse` that make no node are
used as they are.  A node that is passed back through `out` is the pointer that is returned,
`NULL` if `out` is; a call of `json_delete` has `deletes` calls on the stack.
-/

set_option autoImplicit false

namespace AzureMetadata.Model.Nodes

open Clib Scanner

/-- A scanner that works on the nodes. -/
abbrev NodeScanner (double α : Type) := Scanner Stop (JsonNodes double) UInt8 α

/-- A scanner that makes no node. -/
def onRequests {double α : Type} (p : JsonScanner α) : NodeScanner double α :=
  p.onPart JsonNodes.requests fun requests st => { st with requests := requests }

/-- `if (out) *out = make(…);` with what was stored for `make`. -/
def makeGiven {double α : Type} (make : α → NodeCall double Ptr) : Option α → NodeCall double Ptr
  | none => pure none
  | some a => make a

variable (F : Floating) (A : Allocator UInt8) (deletes : ℕ)

section Containers

variable {F} (value : NodeScanner F.double Ptr) (out : Bool)

/-- What follows an element or a member. -/
def parseSeparator (close : UInt8) (ret : Ptr) : NodeScanner F.double (Ptr ⊕ Ptr) := do
  if (← onRequests deref) = close then
    let _ ← onRequests derefNext
    pure (.inr ret)
  else if (← onRequests derefNext) ≠ chr ',' then fail
  else
    onRequests skipSpace
    pure (.inl ret)

/-- A round of the loop of `parse_array`. -/
def parseElement (ret : Ptr) : NodeScanner F.double (Ptr ⊕ Ptr) := do
  let element ← value
  onRequests skipSpace
  effect (if out then jsonAppendElement ret element else pure ())
  parseSeparator (chr ']') ret

/-- `parse_array` up to `success`. -/
def parseElements (ret : Ptr) : NodeScanner F.double Ptr := do
  if (← onRequests derefNext) ≠ chr '[' then fail
  else
    onRequests skipSpace
    if (← onRequests deref) = chr ']' then
      let _ ← onRequests derefNext
      pure ret
    else loop .loopLimit (parseElement value out) ret

/-- `parse_array` (json.c:693-735). -/
def parseArray : NodeScanner F.double Ptr := do
  let ret ← effect (makeGiven (fun _ => jsonMkarray A) (given out ()))
  (parseElements value out ret).onFailure (jsonDelete deletes ret)

/-- `if (out) append_member(ret, key, value);` -/
def appendGiven (ret : Ptr) : Option CString → Ptr → NodeCall F.double Unit
  | none, _ => pure ()
  | some key, value => appendMember ret key value

/-- A round of the loop of `parse_object`; a key that was read belongs to nothing else when
the round fails, and is freed. -/
def parseMember (ret : Ptr) : NodeScanner F.double (Ptr ⊕ Ptr) := do
  let key ← onRequests (parseString A out)
  onRequests skipSpace
  if (← onRequests derefNext) ≠ chr ':' then fail
  else
    onRequests skipSpace
    let value ← value
    onRequests skipSpace
    effect (appendGiven ret key value)
    parseSeparator (chr '}') ret

/-- `parse_object` up to `success`. -/
def parseMembers (ret : Ptr) : NodeScanner F.double Ptr := do
  if (← onRequests derefNext) ≠ chr '{' then fail
  else
    onRequests skipSpace
    if (← onRequests deref) = chr '}' then
      let _ ← onRequests derefNext
      pure ret
    else loop .loopLimit (parseMember A value out) ret

/-- `parse_object` (json.c:737-791). -/
def parseObject : NodeScanner F.double Ptr := do
  let ret ← effect (makeGiven (fun _ => jsonMkobject A) (given out ()))
  (parseMembers A value out ret).onFailure (jsonDelete deletes ret)

end Containers

/-- One of the cases of `parse_value` that are a word. -/
def parseWord (out : Bool) (word : List UInt8) (make : NodeCall F.double Ptr) :
    NodeScanner F.double Ptr := do
  onRequests (expectLiteral word)
  effect (makeGiven (fun _ => make) (given out ()))

/-- `parse_value` (json.c:623-691). -/
def parseValue (out : Bool) : ℕ → NodeScanner F.double Ptr
  | 0 => halt .stackOverflow
  | frames + 1 => do
    let c ← onRequests deref
    if c = chr 'n' then parseWord F out (ascii "null") (jsonMknull A)
    else if c = chr 'f' then parseWord F out (ascii "false") (jsonMkbool A false)
    else if c = chr 't' then parseWord F out (ascii "true") (jsonMkbool A true)
    else if c = chr '"' then
      let str ← onRequests (parseString A out)
      effect (makeGiven (mkstring A) str)
    else if c = chr '[' then parseArray A deletes (parseValue out frames) out
    else if c = chr '{' then parseObject A deletes (parseValue out frames) out
    else
      let num ← onRequests (parseNumber F out)
      effect (makeGiven (jsonMknumber A) num)

/-- What follows the value of a text. -/
def parseEnd (ret : Ptr) : NodeScanner F.double Ptr := do
  onRequests skipSpace
  if (← onRequests deref) ≠ 0 then fail else pure ret

/-- The text of `json_decode`. -/
def parseText (frames : ℕ) : NodeScanner F.double Ptr := do
  onRequests skipSpace
  let ret ← parseValue F A deletes true frames
  (parseEnd F ret).onFailure (jsonDelete deletes ret)

/-- `json_decode` (json.c:361-377). -/
def jsonDecode (frames : ℕ) (json : CString) : NodeCall F.double Ptr := fun st =>
  match parseText F A deletes frames (json.bytes ++ [0]) st with
  | .error e => .error e
  | .ok (none, st') => .ok (none, st')
  | .ok (some (ret, _), st') => .ok (ret, st')

end AzureMetadata.Model.Nodes
