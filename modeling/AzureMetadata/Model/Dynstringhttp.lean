import AzureMetadata.Model.Dynstring

/-!
# The download of `src/dynstringhttp.c`

A `Curl` is an easy handle: the headers set on it, and what the server answers to a
request, as the chunks the library hands to the write callback.  Of libcurl it is
assumed that the chunks come once each and in order, that the transfer stops at the
first callback that does not return the length of its chunk, and that
`curl_easy_perform` returns `CURLE_OK` iff there was none.  The time-out and progress
options have no part in this.
-/

set_option autoImplicit false

namespace AzureMetadata.Model

open Clib

/-- An easy handle: `CURLOPT_HTTPHEADER`, and the server behind it. -/
structure Curl where
  httpheader : List (List UInt8)
  server : List (List UInt8) → List UInt8 → List CBytes

/-- The chunks the body of `url` arrives in, and the body. -/
def Curl.chunks (curl : Curl) (url : List UInt8) : List CBytes :=
  curl.server curl.httpheader url

def Curl.body (curl : Curl) (url : List UInt8) : List UInt8 :=
  (curl.chunks url).flatMap CBytes.bytes

/-- A `size_t` returned as `int`. -/
def toInt (n : ℕ) : ℤ := Int.bmod n (2 ^ 32)

/-- An `int` read as a `size_t`. -/
def toSize (rc : ℤ) : ℕ := (rc % sizeMod).toNat

/-- The write callback (dynstringhttp.c:12-23). -/
def dynstringhttpWritedatatodynstring (A : Allocator UInt8) (ptr : CBytes)
    (userdata : DynstringContext) (h : Heap UInt8) : Except Fault (Done ℤ) := do
  if sizeAdd (dynstringLength userdata) ptr.bytes.length > 8192 * 4 then
    pure ⟨0, userdata, h⟩
  else
    let r ← dynstringAppendstring A userdata ptr.bytes h
    if r.out = 0 then pure ⟨toInt ptr.bytes.length, r.ctx, r.heap⟩
    else pure ⟨0, r.ctx, r.heap⟩

/-- `curl_easy_perform` with that callback: whether it returns `CURLE_OK`.  The
library reads the callback's result as a `size_t`. -/
def curlEasyPerform (A : Allocator UInt8) :
    List CBytes → DynstringContext → Heap UInt8 → Except Fault (Done Bool)
  | [], userdata, h => pure ⟨true, userdata, h⟩
  | chunk :: chunks, userdata, h => do
    let r ← dynstringhttpWritedatatodynstring A chunk userdata h
    if toSize r.out = chunk.bytes.length then curlEasyPerform A chunks r.ctx r.heap
    else pure ⟨false, r.ctx, r.heap⟩

/-- `dynstringhttp_appendfromurl` (lines 25-38). -/
def dynstringhttpAppendfromurl (A : Allocator UInt8) (curl : Curl) (dynstring : DynstringContext)
    (url : List UInt8) (h : Heap UInt8) : Except Fault (Done ℤ) := do
  let c_res ← curlEasyPerform A (curl.chunks url) dynstring h
  if c_res.out then pure ⟨0, c_res.ctx, c_res.heap⟩
  else pure ⟨-1, c_res.ctx, c_res.heap⟩

end AzureMetadata.Model
