import AzureMetadata.Model.Getpfxfile

/-!
# The program of `appsrc/getpfxfile.c`

`main` makes the two requests one after the other; what it prints is a list of bytes.
-/

set_option autoImplicit false

namespace AzureMetadata.Model

open Clib

/-- What `main` leaves. -/
structure ProgramRun where
  res : ℤ
  stdout : List UInt8
  heap : Heap UInt8

/-- The string that is passed as a `char *`. -/
def stringAt (p : Ptr) (h : Heap UInt8) : Except Fault (List UInt8) :=
  match h.cString p with
  | none => .error .outOfBounds
  | some s => .ok s

/-- Lines 80-121; `curl` is what `curl_easy_init` returns, and `junk` and `junk'` what the
locals of the two appends hold. -/
def getpfxfileMain (json_decode : JsonDecoder) (A : Allocator UInt8) (curl : Option Curl)
    (junk junk' : ℤ) (h : Heap UInt8) : Except Fault ProgramRun := do
  match curl with
  | none => return ⟨1, ascii "Failed to initialise CURL\n", h⟩
  | some curl =>
    let (auth_hdr, h) ← getmetadatatoken json_decode A curl junk h
    if auth_hdr = none then return ⟨1, [], h⟩
    let (pfx_b64, h) ← getpfxfile json_decode A curl (← stringAt auth_hdr h) junk' h
    let h ← h.free auth_hdr
    if pfx_b64 = none then return ⟨1, [], h⟩
    let stdout := (← stringAt pfx_b64 h) ++ ascii "\n"
    return ⟨0, stdout, ← h.free pfx_b64⟩

end AzureMetadata.Model
