import AzureMetadata.Interface.ByteString

/-!
# All the calls on a dynstring

`DynstringOp` has the operations that the byte string has too.  `BufferCall` adds those
that only look at the context, an append of no strings at all, and another initialisation;
a context may be initialised with size 0, and then has a block of no bytes.
-/

set_option autoImplicit false

namespace AzureMetadata.Interface

open Clib AzureMetadata.Model

/-- A call of any function of dynstring.h; `junk` is what the local of
`dynstring_appendstringz_va` holds. -/
inductive BufferCall
  | operate (op : DynstringOp)
  | appendstringzNone (junk : ℤ)
  | endswithchar (c : ℤ)
  | length
  | initialisezero
  | initialise (size : ℕ)

/-- One call. -/
def bufferStep (A : Allocator UInt8) (call : BufferCall) (s : DynstringState) :
    Except Fault (DynstringOut × DynstringState) :=
  match call with
  | .operate op => dynstringStep A op s
  | .appendstringzNone junk =>
      (dynstringAppendstringz A junk s.ctx [] s.heap).map (Done.observe .code)
  | .endswithchar c => (dynstringEndswithchar s.ctx c s.heap).map (Done.observe .code)
  | .length => .ok (.code (dynstringLength s.ctx), s)
  | .initialisezero => .ok (Done.observe .code (dynstringInitialisezero s.heap))
  | .initialise size => .ok (Done.observe .code (dynstringInitialise A s.ctx size s.heap))

/-- A context just initialised, with any size. -/
def InitialisedAny (A : Allocator UInt8) (s : DynstringState) : Prop :=
  (∃ h, dynstringInitialisezero h = ⟨0, s.ctx, s.heap⟩) ∨
  ∃ junk n h, dynstringInitialise A junk n h = ⟨0, s.ctx, s.heap⟩

/-- A context in use while every allocation succeeds. -/
def bufferSystem (A : Allocator UInt8) : Transition DynstringState BufferCall where
  start := InitialisedAny A
  step s call s' := ∃ out, bufferStep A call s = .ok (out, s') ∧
    s'.heap.refusals = s.heap.refusals

/-- The call touches the buffer only where it is allocated. -/
def InBuffer (A : Allocator UInt8) (call : BufferCall) (s : DynstringState) : Prop :=
  ∃ r, bufferStep A call s = .ok r

end AzureMetadata.Interface
