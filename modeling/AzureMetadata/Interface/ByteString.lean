import AzureMetadata.Clib.Transition
import AzureMetadata.Model.Dynstring

/-!
# The interface of a dynstring, and the byte string it stands for

`DynstringOp` lists the operations a caller has, and `dynstringStep` runs one on the
model.  `dynstringSystem A` is the transition system of a context that is initialised
and then used, as long as every allocation succeeds; `byteString` is the system it is
to refine, whose state is just the bytes.
-/

set_option autoImplicit false

namespace AzureMetadata.Interface

open Clib AzureMetadata.Model

/-- A call on a context.  `appendstringz` has at least one string, and `junk` is what
its uninitialised local holds. -/
inductive DynstringOp
  | appendchar (c : ℤ)
  | appendstring (str : CBytes)
  | appendstringz (junk : ℤ) (str : CString) (strs : List CString)
  | empty
  | compact
  | getcstring
  | detachcstring
  | free

/-- What a call returns. -/
inductive DynstringOut
  | code (rc : ℤ)
  | pointer (p : Ptr)
  | nothing
deriving DecidableEq

/-- A context and the heap it lives in. -/
structure DynstringState where
  ctx : DynstringContext
  heap : Heap UInt8

/-- The most requests a call makes. -/
def DynstringOp.requests : DynstringOp → ℕ
  | .appendchar _ => 1
  | .appendstring _ => 1
  | .appendstringz _ _ strs => strs.length + 1
  | .compact => 1
  | .getcstring => 1
  | .detachcstring => 2
  | .empty => 0
  | .free => 0

/-- By how many bytes at most a call asks for a larger buffer than there is. -/
def DynstringOp.growth : DynstringOp → ℕ
  | .appendchar _ => 64
  | .appendstring str => str.bytes.length
  | .appendstringz _ str strs => ((str :: strs).flatMap CString.bytes).length
  | .compact => 1
  | .getcstring => 64
  | .detachcstring => 64
  | .empty => 0
  | .free => 0

/-- The allocator grants the requests of a call, and none of them can be too large. -/
def Granted (A : Allocator UInt8) (op : DynstringOp) (s : DynstringState) : Prop :=
  s.heap.GrantsNext A op.requests ∧ s.ctx.size + op.growth ≤ ptrdiffMax

/-- The state a call leaves, and its result under `f`. -/
def Done.observe {ο : Type} (f : ο → DynstringOut) (r : Done ο) : DynstringOut × DynstringState :=
  (f r.out, ⟨r.ctx, r.heap⟩)

/-- One call. -/
def dynstringStep (A : Allocator UInt8) (op : DynstringOp) (s : DynstringState) :
    Except Fault (DynstringOut × DynstringState) :=
  match op with
  | .appendchar c => (dynstringAppendchar A s.ctx c s.heap).map (Done.observe .code)
  | .appendstring str => (dynstringAppendstring A s.ctx str.bytes s.heap).map (Done.observe .code)
  | .appendstringz junk str strs =>
      (dynstringAppendstringz A junk s.ctx (str :: strs) s.heap).map (Done.observe .code)
  | .empty => (dynstringEmpty s.ctx s.heap).map (Done.observe fun _ => .nothing)
  | .compact => (dynstringCompact A s.ctx s.heap).map (Done.observe .code)
  | .getcstring => (dynstringGetcstring A s.ctx s.heap).map (Done.observe .pointer)
  | .detachcstring => (dynstringDetachcstring A s.ctx s.heap).map (Done.observe .pointer)
  | .free => (dynstringFree s.ctx s.heap).map (Done.observe fun _ => .nothing)

/-- A context just initialised, with no size or with one of at least 1, on any heap. -/
def Initialised (A : Allocator UInt8) (s : DynstringState) : Prop :=
  (∃ h, dynstringInitialisezero h = ⟨0, s.ctx, s.heap⟩) ∨
  ∃ junk n h, 1 ≤ n ∧ dynstringInitialise A junk n h = ⟨0, s.ctx, s.heap⟩

/-- A context in use while every allocation succeeds: a step is a call during which
no request is refused. -/
def dynstringSystem (A : Allocator UInt8) : Transition DynstringState DynstringOp where
  start := Initialised A
  step s op s' := ∃ out, dynstringStep A op s = .ok (out, s') ∧
    s'.heap.refusals = s.heap.refusals

/-! ## The abstract byte string -/

/-- On the heap `h` the context stands for the bytes `t`: they are the first `pos`
cells of its buffer, and `size` is the buffer's length. -/
structure Represents (h : Heap UInt8) (ctx : DynstringContext) (t : List UInt8) : Prop where
  pos_eq : ctx.pos = t.length
  pos_le : ctx.pos ≤ ctx.size
  size_le : ctx.size ≤ ptrdiffMax
  buffer : ∃ cells, h.Holds ctx.buf cells ∧ cells.length = ctx.size ∧ cells.take ctx.pos = t

/-- The buffer is `NULL` exactly when `size` is 0. -/
def Proper (ctx : DynstringContext) : Prop := ctx.buf = none ↔ ctx.size = 0

/-- What a call does to the bytes. -/
def byteStringEffect (t : List UInt8) : DynstringOp → List UInt8
  | .appendchar c => t ++ [toChar c]
  | .appendstring str => t ++ str.bytes
  | .appendstringz _ str strs => t ++ (str :: strs).flatMap CString.bytes
  | .empty => []
  | .compact => t
  | .getcstring => t
  | .detachcstring => []
  | .free => []

/-- The bytes after the calls `ops` on a fresh context. -/
def byteStringAfter (ops : List DynstringOp) : List UInt8 := ops.foldl byteStringEffect []

/-- The byte string as a transition system. -/
def byteString : Transition (List UInt8) DynstringOp :=
  Transition.ofEffect [] byteStringEffect

end AzureMetadata.Interface
