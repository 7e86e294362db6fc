import AzureMetadata.Clib.Heap

/-!
# The growable string of `include/dynstring.h`

Each function of the header as it stands, over the heap of `Clib.Heap`: what is
passed by address (the context, the heap) is passed in and returned.  `size_t`
arithmetic is modulo `2 ^ 64`, so a decrement of `pos` at 0 wraps as it does in C.
An execution that touches memory it may not touch is a `Fault`.
-/

set_option autoImplicit false

namespace AzureMetadata.Model

open Clib

/-- An `int` stored in a `char`. -/
def toChar (c : ℤ) : UInt8 := UInt8.ofInt c

/-- `struct dynstring_context` (dynstring.h:19-23). -/
structure DynstringContext where
  buf : Ptr
  size : ℕ
  pos : ℕ
deriving DecidableEq, Repr

/-- What a call leaves: its return value, the context and the heap. -/
structure Done (ο : Type) where
  out : ο
  ctx : DynstringContext
  heap : Heap UInt8

/-- Lines 25-30. -/
def dynstringInitialisezero (h : Heap UInt8) : Done ℤ :=
  ⟨0, { buf := none, size := 0, pos := 0 }, h⟩

/-- Lines 32-40; on failure only `buf` has been assigned. -/
def dynstringInitialise (A : Allocator UInt8) (ctx : DynstringContext) (size : ℕ)
    (h : Heap UInt8) : Done ℤ :=
  match h.malloc A size with
  | (none, h) => ⟨-1, { ctx with buf := none }, h⟩
  | (some b, h) => ⟨0, { buf := some b, size := size, pos := 0 }, h⟩

/-- Lines 42-53. -/
def dynstringAppendchar (A : Allocator UInt8) (ctx : DynstringContext) (c : ℤ)
    (h : Heap UInt8) : Except Fault (Done ℤ) := do
  let put (ctx : DynstringContext) (h : Heap UInt8) : Except Fault (Done ℤ) := do
    let h ← h.write ctx.buf ctx.pos [toChar c]
    pure ⟨0, { ctx with pos := sizeAdd ctx.pos 1 }, h⟩
  if ctx.pos ≥ ctx.size then
    let (newbuf, h) ← h.realloc A ctx.buf (sizeAdd ctx.size 64)
    match newbuf with
    | none => pure ⟨-1, ctx, h⟩
    | some b => put { ctx with buf := some b, size := sizeAdd ctx.size 64 } h
  else
    put ctx h

/-- Lines 55-70; `str_len` is the length of `str`. -/
def dynstringAppendstring (A : Allocator UInt8) (ctx : DynstringContext) (str : List UInt8)
    (h : Heap UInt8) : Except Fault (Done ℤ) := do
  let put (ctx : DynstringContext) (h : Heap UInt8) : Except Fault (Done ℤ) := do
    let h ← h.write ctx.buf ctx.pos str
    pure ⟨0, { ctx with pos := sizeAdd ctx.pos str.length }, h⟩
  if str.length = 0 then
    pure ⟨0, ctx, h⟩
  else if sizeAdd str.length ctx.pos ≥ ctx.size then
    let (newbuf, h) ← h.realloc A ctx.buf (sizeAdd ctx.size str.length)
    match newbuf with
    | none => pure ⟨-1, ctx, h⟩
    | some b => put { ctx with buf := some b, size := sizeAdd ctx.size str.length } h
  else
    put ctx h

/-- Lines 72-84: the loop over the arguments up to the terminating `NULL`.  `rc` is
what the local of that name holds, nothing assigned to it before the first append. -/
def dynstringAppendstringzVa (A : Allocator UInt8) (ctx : DynstringContext) (rc : ℤ) :
    List CString → Heap UInt8 → Except Fault (Done ℤ)
  | [], h => pure ⟨rc, ctx, h⟩
  | str :: args, h => do
    let r ← dynstringAppendstring A ctx str.bytes h
    if r.out ≠ 0 then pure r
    else dynstringAppendstringzVa A r.ctx r.out args r.heap

/-- Lines 86-93; `junk` is the initial content of the uninitialised local `rc`. -/
def dynstringAppendstringz (A : Allocator UInt8) (junk : ℤ) (ctx : DynstringContext)
    (args : List CString) (h : Heap UInt8) : Except Fault (Done ℤ) :=
  dynstringAppendstringzVa A ctx junk args h

/-- Lines 95-97; a `char` is signed. -/
def dynstringEndswithchar (ctx : DynstringContext) (c : ℤ) (h : Heap UInt8) :
    Except Fault (Done ℤ) := do
  let last ← h.read ctx.buf (sizePred ctx.pos)
  pure ⟨if last.toInt8.toInt = c then 1 else 0, ctx, h⟩

/-- Lines 99-101. -/
def dynstringLength (ctx : DynstringContext) : ℕ := ctx.pos

/-- Lines 103-108. -/
def dynstringEmpty (ctx : DynstringContext) (h : Heap UInt8) : Except Fault (Done Unit) := do
  let ctx := { ctx with pos := 0 }
  match ctx.buf with
  | none => pure ⟨(), ctx, h⟩
  | some b =>
    let h ← h.write (some b) ctx.pos [0]
    pure ⟨(), ctx, h⟩

/-- Lines 110-117. -/
def dynstringFree (ctx : DynstringContext) (h : Heap UInt8) : Except Fault (Done Unit) := do
  let h ← h.free ctx.buf
  pure ⟨(), { buf := none, size := 0, pos := 0 }, h⟩

/-- Lines 119-131. -/
def dynstringCompact (A : Allocator UInt8) (ctx : DynstringContext) (h : Heap UInt8) :
    Except Fault (Done ℤ) := do
  let newsize := sizeAdd ctx.pos 1
  let (newbuf, h) ← h.realloc A ctx.buf newsize
  match newbuf with
  | some b => pure ⟨0, { ctx with buf := some b, size := newsize }, h⟩
  | none => pure ⟨-1, ctx, h⟩

/-- Lines 133-142: `rawstring` is read before the append that may move the block. -/
def dynstringGetcstring (A : Allocator UInt8) (ctx : DynstringContext) (h : Heap UInt8) :
    Except Fault (Done Ptr) := do
  let rawstring := ctx.buf
  let append : Except Fault (Done Ptr) := do
    let r ← dynstringAppendchar A ctx 0 h
    pure ⟨rawstring, { r.ctx with pos := sizePred r.ctx.pos }, r.heap⟩
  if ctx.size > ctx.pos then
    let c ← h.read ctx.buf ctx.pos
    if c = 0 then pure ⟨rawstring, ctx, h⟩ else append
  else
    append

/-- Lines 144-152. -/
def dynstringDetachcstring (A : Allocator UInt8) (ctx : DynstringContext) (h : Heap UInt8) :
    Except Fault (Done Ptr) := do
  let r ← dynstringAppendchar A ctx 0 h
  let r ← dynstringCompact A r.ctx r.heap
  let rawstring := r.ctx.buf
  let r ← dynstringFree { r.ctx with buf := none } r.heap
  pure ⟨rawstring, r.ctx, r.heap⟩

end AzureMetadata.Model
