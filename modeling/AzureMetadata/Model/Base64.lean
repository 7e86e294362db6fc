import AzureMetadata.Clib.Heap

/-!
# The encoder and the decoders of `src/base64.c`

A call of `base64_encode` or `base64_decode` returns a `Base64Result`: whether the pointer
it returns is not `NULL`, the bytes it has written from the start of `out` on, and what
`*out_len` is afterwards.  The argument `out` says whether the pointer of that name is not
`NULL`.  `base64_decode_forgiving` calls the decoder twice, so its result has the writes
with their positions.

`base64_decode_ex` has a signed `char` for each byte of its text and reads its table at
that index; a read outside the table or the text is a `Fault`.
-/

set_option autoImplicit false

namespace AzureMetadata.Model

open Clib

/-- `base64_table` (base64.c:14-15). -/
def base64Table : List UInt8 :=
  ascii "ABCDEFGHIJKLMNOPQRSTUVWXYZabcdefghijklmnopqrstuvwxyz0123456789+/"

/-- An access to the table, in which a NUL follows the 64 characters. -/
def base64Char (i : ℕ) : UInt8 := base64Table.getD i 0

/-- `base64_line_length` (line 17). -/
def base64LineLength : ℕ := 72

/-- The characters `=` and line feed. -/
def equalsSign : UInt8 := 61
def lineFeed : UInt8 := 10

structure Base64Result where
  ret : Bool
  written : List UInt8
  out_len : ℕ

/-- `base64_reqbufsz` (lines 86-92). -/
def base64Reqbufsz (lentoencode : ℕ) : ℕ :=
  let olen := sizeAdd (sizeMul lentoencode 4 / 3) 4
  let olen := sizeAdd olen (olen / base64LineLength)
  sizeAdd olen 2

/-- Lines 157-158. -/
def lineEnd (line_len : ℕ) : List UInt8 := if line_len ≠ 0 then [lineFeed] else []

/-- Lines 128-158: the bytes written before the NUL. -/
def encodeText : List UInt8 → ℕ → List UInt8
  | [], line_len => lineEnd line_len
  | [in0], line_len =>
    [base64Char ((in0.toNat >>> 2) &&& 0x3f),
      base64Char (((in0.toNat &&& 0x03) <<< 4) &&& 0x3f), equalsSign, equalsSign] ++
      lineEnd (line_len + 4)
  | [in0, in1], line_len =>
    [base64Char ((in0.toNat >>> 2) &&& 0x3f),
      base64Char ((((in0.toNat &&& 0x03) <<< 4) ||| (in1.toNat >>> 4)) &&& 0x3f),
      base64Char (((in1.toNat &&& 0x0f) <<< 2) &&& 0x3f), equalsSign] ++
      lineEnd (line_len + 4)
  | in0 :: in1 :: in2 :: src, line_len =>
    let line_len := line_len + 4
    [base64Char ((in0.toNat >>> 2) &&& 0x3f),
      base64Char ((((in0.toNat &&& 0x03) <<< 4) ||| (in1.toNat >>> 4)) &&& 0x3f),
      base64Char ((((in1.toNat &&& 0x0f) <<< 2) ||| (in2.toNat >>> 6)) &&& 0x3f),
      base64Char (in2.toNat &&& 0x3f)] ++
      if line_len ≥ 72 then lineFeed :: encodeText src 0
      else encodeText src line_len

/-- `base64_encode` (lines 107-164). -/
def base64Encode (src : List UInt8) (out : Bool) (out_len : ℕ) : Base64Result :=
  let olen := base64Reqbufsz src.length
  if olen > out_len then ⟨false, [], olen⟩
  else if olen < src.length then ⟨false, [], out_len⟩
  else if out = false then ⟨false, [], out_len⟩
  else
    let text := encodeText src 0
    ⟨true, text ++ [0], text.length⟩

/-- The table built on lines 208-211. -/
def dtable : UInt8 → UInt8 :=
  let table := (List.range 64).foldl
    (fun table i => Function.update table (base64Char i) (UInt8.ofNat i)) fun _ => 0x80
  Function.update table equalsSign 0

/-- Lines 242-244. -/
def decodeBlock (block0 block1 block2 block3 : UInt8) : List UInt8 :=
  [UInt8.ofNat ((block0.toNat <<< 2) ||| (block1.toNat >>> 4)),
    UInt8.ofNat ((block1.toNat <<< 4) ||| (block2.toNat >>> 2)),
    UInt8.ofNat ((block2.toNat <<< 6) ||| block3.toNat)]

/-- Lines 231-258: `block` holds the first `count` values of the next block.  After
invalid padding the length is not used. -/
def decodeLoop : List UInt8 → List UInt8 → ℕ → List UInt8 → Base64Result
  | [], _, _, written => ⟨true, written, written.length⟩
  | c :: src, block, pad, written =>
    let tmp := dtable c
    if tmp = 0x80 then decodeLoop src block pad written
    else
      let pad := if c = equalsSign then pad + 1 else pad
      match block ++ [tmp] with
      | [block0, block1, block2, block3] =>
        let written := written ++ decodeBlock block0 block1 block2 block3
        if pad = 0 then decodeLoop src [] pad written
        else if pad = 1 then ⟨true, written, written.length - 1⟩
        else if pad = 2 then ⟨true, written, written.length - 2⟩
        else ⟨false, written, 0⟩
      | block => decodeLoop src block pad written

/-- `base64_decode` (lines 201-263). -/
def base64Decode (src : List UInt8) (out : Bool) (out_len : ℕ) : Base64Result :=
  let count := src.countP fun c => dtable c ≠ 0x80
  if count = 0 ∨ count % 4 ≠ 0 then ⟨false, [], out_len⟩
  else if count / 4 * 3 > out_len then ⟨false, [], out_len⟩
  else if out = false then ⟨false, [], out_len⟩
  else
    let r := decodeLoop src [] 0 []
    if r.ret then r else ⟨false, r.written, out_len⟩

/-! ## `base64_decode_forgiving` -/

/-- What a call leaves: its return value, the bytes written and where, and `*out_len`. -/
structure ForgivingResult where
  ret : ℤ
  writes : List (ℕ × List UInt8)
  out_len : ℕ

/-- The tail of the text, filled up with `=` (lines 179-180). -/
def paddedTail (tail : List UInt8) : List UInt8 := overwrite (List.replicate 4 equalsSign) 0 tail

/-- `base64_decode_forgiving` (lines 172-188): what both decodings return is ignored. -/
def base64DecodeForgiving (src : List UInt8) (out : Bool) (out_len : ℕ) : ForgivingResult :=
  if src.length &&& 3 ≠ 0 then
    let remainder := src.length &&& 3
    let out_size := out_len
    let r := base64Decode (src.take (src.length - remainder)) out out_len
    let buf := paddedTail (src.drop (src.length - remainder))
    let r' := base64Decode buf out (sizeSub out_size r.out_len)
    ⟨0, [(0, r.written), (r.out_len, r'.written)], sizeAdd r.out_len r'.out_len⟩
  else
    let r := base64Decode src out out_len
    ⟨0, [(0, r.written)], r.out_len⟩

/-! ## `base64_decode_ex` -/

/-- `base64_reverse_table` (lines 24-33). -/
def base64ReverseTable : List ℕ := [
  64, 64, 64, 64, 64, 64, 64, 64, 64, 64, 64, 64, 64, 64, 64, 64,
  64, 64, 64, 64, 64, 64, 64, 64, 64, 64, 64, 64, 64, 64, 64, 64,
  64, 64, 64, 64, 64, 64, 64, 64, 64, 64, 64, 62, 64, 62, 64, 63,
  52, 53, 54, 55, 56, 57, 58, 59, 60, 61, 64, 64, 64, 64, 64, 64,
  64,  0,  1,  2,  3,  4,  5,  6,  7,  8,  9, 10, 11, 12, 13, 14,
  15, 16, 17, 18, 19, 20, 21, 22, 23, 24, 25, 64, 64, 64, 64, 63,
  64, 26, 27, 28, 29, 30, 31, 32, 33, 34, 35, 36, 37, 38, 39, 40,
  41, 42, 43, 44, 45, 46, 47, 48, 49, 50, 51, 64, 64, 64, 64, 64]

/-- The loop variables, and the bytes written to `dst`. -/
structure DecodeEx where
  accumulator : BitVec 32
  bits_collected : ℕ
  written : List UInt8

/-- The characters line 57 skips: `=`, the space, carriage return and line feed. -/
def isSkipped (c : UInt8) : Bool := c = equalsSign ∨ c = 32 ∨ c = 13 ∨ c = lineFeed

/-- Lines 63-69; the shift to the left wraps, the one to the right keeps the sign. -/
def collect (s : DecodeEx) (v : ℕ) : DecodeEx :=
  let accumulator := (s.accumulator <<< 6) ||| BitVec.ofNat 32 v
  let bits_collected := s.bits_collected + 6
  if bits_collected ≥ 8 then
    let bits_collected := bits_collected - 8
    let byte := (accumulator.sshiftRight bits_collected) &&& 0xff#32
    ⟨accumulator, bits_collected, s.written ++ [UInt8.ofNat byte.toNat]⟩
  else ⟨accumulator, bits_collected, s.written⟩

/-- Lines 56-71, one character; `none` is `goto error`. -/
def decodeExStep (s : DecodeEx) (src : UInt8) : Except Fault (Option DecodeEx) :=
  if isSkipped src then .ok (some s)
  else
    let c := src.toInt8.toInt
    if 0 ≤ c then
      match base64ReverseTable[c.toNat]? with
      | some v => if v > 63 then .ok none else .ok (some (collect s v))
      | none => .error .outOfBounds
    else .error .outOfBounds

/-- The loop over the characters: its result and the variables at its end. -/
def decodeExLoop : DecodeEx → List UInt8 → Except Fault (ℤ × DecodeEx)
  | s, [] => .ok (0, s)
  | s, c :: src => do
    match ← decodeExStep s c with
    | some s' => decodeExLoop s' src
    | none => pure (-1, s)

structure DecodeExResult where
  ret : ℤ
  written : List UInt8
  dst_len : ℕ

/-- `base64_decode_ex` (lines 40-77); `src` is the memory at that pointer.  The loop looks
at `src_end` after its first iteration. -/
def base64DecodeEx (src : List UInt8) (src_len : ℕ) (dst_len : ℕ) :
    Except Fault DecodeExResult := do
  let src_len ← if src_len = 0 then
      match cString src with
      | some s => pure s.length
      | none => throw .outOfBounds
    else pure src_len
  let chars := max src_len 1
  let (ret, s) ← decodeExLoop ⟨0, 0, []⟩ (src.take chars)
  if ret ≠ 0 then pure ⟨-1, s.written, dst_len⟩
  else if src.length < chars then throw .outOfBounds
  else pure ⟨0, s.written, s.written.length⟩

/-! What the same function does where a read outside the table gives what is in memory
there: `outside` says what that is. -/

/-- What is read at `base64_reverse_table[c]`. -/
def reverseTableRead (outside : ℤ → ℤ) (c : ℤ) : ℤ :=
  if 0 ≤ c then
    match base64ReverseTable[c.toNat]? with
    | some v => v
    | none => outside c
  else outside c

/-- Lines 56-71; a value that is negative enters the accumulator with its sign. -/
def decodeExStepReading (outside : ℤ → ℤ) (s : DecodeEx) (src : UInt8) : Option DecodeEx :=
  if isSkipped src then some s
  else
    let v := reverseTableRead outside src.toInt8.toInt
    if v > 63 then none else some (collect s (v % 2 ^ 32).toNat)

/-- The loop with that read. -/
def decodeExLoopReading (outside : ℤ → ℤ) : DecodeEx → List UInt8 → ℤ × DecodeEx
  | s, [] => (0, s)
  | s, c :: src =>
    match decodeExStepReading outside s c with
    | some s' => decodeExLoopReading outside s' src
    | none => (-1, s)

/-- `base64_decode_ex` with that read; it can only fault at the end of the text in memory. -/
def base64DecodeExReading (outside : ℤ → ℤ) (src : List UInt8) (src_len : ℕ) (dst_len : ℕ) :
    Except Fault DecodeExResult := do
  let src_len ← if src_len = 0 then
      match cString src with
      | some s => pure s.length
      | none => throw .outOfBounds
    else pure src_len
  let chars := max src_len 1
  let (ret, s) := decodeExLoopReading outside ⟨0, 0, []⟩ (src.take chars)
  if ret ≠ 0 then pure ⟨-1, s.written, dst_len⟩
  else if src.length < chars then throw .outOfBounds
  else pure ⟨0, s.written, s.written.length⟩

end AzureMetadata.Model
