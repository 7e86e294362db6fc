import AzureMetadata.Model.Dynstringhttp
import AzureMetadata.Model.Json

/-!
# The two requests of `appsrc/getpfxfile.c`

`getmetadatatoken` and `getpfxfile` have the same first and last parts, down to the
sizes of their buffers; `fetchMember` and `finish` are these, and each function is
written with them and its own headers, address, member name and appends.
`curl_slist_append` is taken to succeed, and `json_delete` does not touch the buffers.
-/

set_option autoImplicit false

namespace AzureMetadata.Model

open Clib

/-- What the common first part leaves: both buffers, and the member's string if the
execution has not gone to `finish`. -/
structure Fetched where
  buf : DynstringContext
  hdr : DynstringContext
  value : Option CString
  heap : Heap UInt8

/-- The string of a member, if it is there and its tag is `JSON_STRING`. -/
def stringMember : Option JsonNode → Option CString
  | some (.JSON_STRING string_) => some string_
  | _ => none

/-- Lines 15-28 and 50-64: initialise both buffers, download, decode, look the member
up.  A buffer that was not initialised has only had its `buf` set to `NULL`. -/
def fetchMember (json_decode : JsonDecoder) (A : Allocator UInt8) (curl : Curl)
    (url name : List UInt8) (h : Heap UInt8) : Except Fault Fetched := do
  let unset : DynstringContext := { buf := none, size := 0, pos := 0 }
  let res := dynstringInitialise A unset 8192 h
  if res.out ≠ 0 then
    return ⟨res.ctx, unset, none, res.heap⟩
  let buf := res.ctx
  let res := dynstringInitialise A unset 4096 res.heap
  if res.out ≠ 0 then
    return ⟨buf, res.ctx, none, res.heap⟩
  let hdr := res.ctx
  let res ← dynstringhttpAppendfromurl A curl buf url res.heap
  if res.out ≠ 0 then
    return ⟨res.ctx, hdr, none, res.heap⟩
  let res ← dynstringGetcstring A res.ctx res.heap
  match res.heap.cString res.out with
  | none => throw .outOfBounds
  | some json =>
    let node := jsonFindMember (json_decode json) name
    return ⟨res.ctx, hdr, stringMember node, res.heap⟩

/-- Lines 39-41 and 75-77. -/
def finish (buf hdr : DynstringContext) (result : Ptr) (h : Heap UInt8) :
    Except Fault (Ptr × Heap UInt8) := do
  let r ← dynstringFree hdr h
  let r ← dynstringFree buf r.heap
  pure (result, r.heap)

def metadataUrl : List UInt8 := ascii
  "http://169.254.169.254/metadata/identity/oauth2/token?api-version=2018-02-01&resource=https://vault.azure.net"

def secretUrl : List UInt8 := ascii
  "https://falcon-website-keyvault.vault.azure.net/secrets/bengreen-eu-ssl?api-version=2016-10-01"

/-- The first argument of the append on line 29. -/
def bearer : CString := ⟨ascii "Authorization: Bearer ", by decide, by decide⟩

/-- Lines 9-42. -/
def getmetadatatoken (json_decode : JsonDecoder) (A : Allocator UInt8) (curl : Curl)
    (junk : ℤ) (h : Heap UInt8) : Except Fault (Ptr × Heap UInt8) := do
  let curl := { curl with httpheader := [ascii "Metadata: true"] }
  let f ← fetchMember json_decode A curl metadataUrl (ascii "access_token") h
  match f.value with
  | none => finish f.buf f.hdr none f.heap
  | some string_ =>
    let res ← dynstringAppendstringz A junk f.hdr [bearer, string_] f.heap
    if res.out ≠ 0 then
      finish f.buf res.ctx none res.heap
    else
      let d ← dynstringDetachcstring A res.ctx res.heap
      finish f.buf d.ctx d.out d.heap

/-- Lines 44-78.  The result of the append on line 65 is not stored: `res` is still 0
on line 66. -/
def getpfxfile (json_decode : JsonDecoder) (A : Allocator UInt8) (curl : Curl)
    (auth_header : List UInt8) (junk : ℤ) (h : Heap UInt8) :
    Except Fault (Ptr × Heap UInt8) := do
  let curl := { curl with httpheader := [auth_header, ascii "Accept: application/json"] }
  let f ← fetchMember json_decode A curl secretUrl (ascii "value") h
  match f.value with
  | none => finish f.buf f.hdr none f.heap
  | some string_ =>
    let r ← dynstringAppendstringz A junk f.hdr [string_] f.heap
    let d ← dynstringDetachcstring A r.ctx r.heap
    finish f.buf d.ctx d.out d.heap

end AzureMetadata.Model
