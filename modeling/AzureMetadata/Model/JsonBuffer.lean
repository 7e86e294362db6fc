import AzureMetadata.Clib.Outcome

/-!
# The string buffer of `src/json.c`

Lines 47-115.  An `SB` owns its block, so the block is part of it: `cur` is an offset
from `start`, and `end` is the last cell of the block.  `malloc` and `realloc` answer as
an `Allocator` says, in the order of the requests; a refused request ends the program.
-/

set_option autoImplicit false

namespace AzureMetadata.Model

open Clib

/-- `malloc`, or `realloc` of a block with the cells `old`, with `out_of_memory` after it. -/
def request (A : Allocator UInt8) (size : ℕ) (old : List UInt8) : Requests CBytes := fun k =>
  if h : (A k).granted = true ∧ size ≤ ptrdiffMax then
    .ok (⟨resize (A k).fill old size, (length_resize _ _ _).le.trans h.2⟩, k + 1)
  else
    .error .exit

/-- `SB` (json.c:49-54). -/
structure SB where
  block : CBytes
  cur : ℕ

/-- `end - start`. -/
def SB.size (sb : SB) : ℕ := sb.block.bytes.length - 1

/-- `sb_init` (json.c:56-63). -/
def sbInit (A : Allocator UInt8) : Requests SB := do
  return { block := ← request A 17 [], cur := 0 }

/-- The loop of `sb_grow`, for at most so many rounds. -/
def growAlloc : ℕ → ℕ → ℕ → Except Stop ℕ
  | 0, _, _ => throw .loopLimit
  | n + 1, alloc, target =>
    let alloc := sizeMul alloc 2
    if alloc < target then growAlloc n alloc target else pure alloc

/-- `sb_grow` (json.c:71-85); `size_t` has 64 bits, which bounds the doublings. -/
def sbGrow (A : Allocator UInt8) (sb : SB) (need : ℕ) : Requests SB := do
  let alloc ← growAlloc 64 sb.size (sizeAdd sb.cur need)
  return { sb with block := ← request A (sizeAdd alloc 1) sb.block.bytes }

/-- `sb_need` (json.c:66-69). -/
def sbNeed (A : Allocator UInt8) (sb : SB) (need : ℤ) : Requests SB :=
  if (sb.size : ℤ) - sb.cur < need then sbGrow A sb need.toNat else pure sb

/-- Bytes stored at `cur` one after the other, which moves behind them; nothing here
looks whether there is room before `end`. -/
def sbStore (sb : SB) (bytes : List UInt8) : Except Stop SB :=
  if h : sb.cur + bytes.length ≤ sb.block.bytes.length then
    .ok {
      block := ⟨overwrite sb.block.bytes sb.cur bytes,
        (length_overwrite h).le.trans sb.block.length_le⟩
      cur := sb.cur + bytes.length }
  else
    .error (.fault .outOfBounds)

/-- `sb_put` (json.c:87-92); a negative `count` is a `size_t` no block holds. -/
def sbPut (A : Allocator UInt8) (sb : SB) (bytes : List UInt8) (count : ℤ) : Requests SB := do
  let sb ← sbNeed A sb count
  if count < 0 then throw (.fault .outOfBounds) else sbStore sb (bytes.take count.toNat)

/-- `sb_putc` (json.c:94-98). -/
def sbPutc (A : Allocator UInt8) (sb : SB) (c : UInt8) : Requests SB :=
  (if sb.cur ≥ sb.size then sbGrow A sb 1 else pure sb) >>= fun sb => sbStore sb [c]

/-- A `size_t` passed as an `int`. -/
@[irreducible] def intOfSize (n : ℕ) : ℤ := Int.bmod n (2 ^ 32)

/-- `sb_puts` (json.c:100-103): the length goes through an `int`. -/
def sbPuts (A : Allocator UInt8) (sb : SB) (str : List UInt8) : Requests SB :=
  sbPut A sb str (intOfSize str.length)

/-- `sb_finish` (json.c:105-110), with its assertion. -/
def sbFinish (sb : SB) : Except Stop CString := do
  let sb' ← sbStore sb [0]
  match sb'.block.string with
  | none => throw (.fault .outOfBounds)
  | some str => if str.bytes.length = sb.cur then pure str else throw .assertion

end AzureMetadata.Model
