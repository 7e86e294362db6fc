import AzureMetadata.Analysis.Download
import AzureMetadata.Analysis.DynstringRefinement

/-!
# The buffer of a download

The callers of the download read the body with `dynstring_getcstring`, which is sound
only while the buffer has room for a NUL.  It has: `dynstring_appendstring` grows a buffer
that the chunk would fill, and by the whole length of the chunk.  Here a run is any sequence
of callbacks, also after one that was refused, and `received` are the bytes of those that
took their chunk.
-/

set_option autoImplicit false

namespace AzureMetadata.Analysis

open Clib AzureMetadata.Model AzureMetadata.Interface

variable {A : Allocator UInt8} {n : ℕ} {s s' : DynstringState} {t : List UInt8}

/-- A dynstring initialised with size `n` and given to the write callback.  A step is
labelled with the chunk and what the callback returned. -/
def callbackSystem (A : Allocator UInt8) (n : ℕ) : Transition DynstringState (CBytes × ℤ) where
  start s := ∃ junk h, dynstringInitialise A junk n h = ⟨0, s.ctx, s.heap⟩
  step s call s' := dynstringhttpWritedatatodynstring A call.1 s.ctx s.heap =
    .ok ⟨call.2, s'.ctx, s'.heap⟩

/-- A step is a call of the callback with the chunk. -/
theorem callback_step {chunk : CBytes} {rc : ℤ} : (callbackSystem A n).step s (chunk, rc) s' ↔
    dynstringhttpWritedatatodynstring A chunk s.ctx s.heap = .ok ⟨rc, s'.ctx, s'.heap⟩ := Iff.rfl

/-- A callback that returns 0 has taken nothing. -/
def receivedEffect (t : List UInt8) (call : CBytes × ℤ) : List UInt8 :=
  if call.2 = 0 then t else t ++ call.1.bytes

def received (calls : List (CBytes × ℤ)) : List UInt8 := calls.foldl receivedEffect []

/-- What every callback keeps, `t` being the bytes received. -/
structure HasRoom (n : ℕ) (s : DynstringState) (t : List UInt8) : Prop where
  represents : Represents s.heap s.ctx t
  room : s.ctx.pos < s.ctx.size
  length_le : t.length ≤ bodyLimit
  size_le : s.ctx.size ≤ n + t.length

/-- A buffer that was just made has room. -/
theorem hasRoom_start (hn : 1 ≤ n) (hs : (callbackSystem A n).start s) : HasRoom n s [] := by
  obtain ⟨junk, h, hi⟩ := hs
  obtain ⟨hr, hsize, -⟩ := represents_of_initialise hi
  have hpos := hr.pos_eq
  refine ⟨hr, ?_, Nat.zero_le _, ?_⟩
  · rw [hpos, hsize]
    exact hn
  · rw [hsize, List.length_nil, Nat.add_zero]

/-- One callback, whatever the chunk and the answer of the allocator. -/
theorem hasRoom_step (hs : HasRoom n s t) (chunk : CBytes) :
    ∃ rc s', (callbackSystem A n).step s (chunk, rc) s' ∧
      HasRoom n s' (receivedEffect t (chunk, rc)) := by
  rcases writedata_spec (A := A) hs.represents chunk with
    ⟨ctx', h', he, hsucc, hsize, -, hfits⟩ | ⟨h', he, -, hcont, -⟩
  · have hlen : chunk.bytes.length ≤ bodyLimit := by
      rw [List.length_append] at hfits
      omega
    have heffect : receivedEffect t (chunk, toInt chunk.bytes.length) = t ++ chunk.bytes := by
      unfold receivedEffect
      split
      · next hzero =>
        -- An empty chunk: the callback returns its length, and nothing is missing.
        rw [toInt_eq hlen, Int.natCast_eq_zero, List.length_eq_zero_iff] at hzero
        rw [hzero, List.append_nil]
      · rfl
    have hgrow : appendCost s.ctx.pos s.ctx.size chunk.bytes.length * chunk.bytes.length ≤
        1 * chunk.bytes.length := Nat.mul_le_mul_right _ (appendCost_le_one _ _ _)
    have hle := hs.size_le
    refine ⟨_, ⟨ctx', h'⟩, callback_step.mpr he, ?_⟩
    rw [heffect]
    have hroom := room_of_append hs.represents hsucc.represents hsize hs.room
    refine ⟨hsucc.represents, hroom, hfits, ?_⟩
    rw [hsize, List.length_append]
    omega
  · exact ⟨0, ⟨s.ctx, h'⟩, callback_step.mpr he,
      ⟨hcont.represents, hs.room, hs.length_le, hs.size_le⟩⟩

/-- The callback appends a chunk or leaves the buffer, and keeps the room. -/
theorem callback_simulates (A : Allocator UInt8) (hn : 1 ≤ n) :
    Transition.Simulation (callbackSystem A n) (.ofEffect [] receivedEffect) (HasRoom n) := by
  constructor
  · intro s hs
    exact ⟨[], rfl, hasRoom_start hn hs⟩
  · intro s t call s' hR hstep
    obtain ⟨chunk, rc⟩ := call
    obtain ⟨rc', ⟨ctx', h'⟩, hstep', hR'⟩ := hasRoom_step (A := A) hR chunk
    obtain ⟨ctx'', h''⟩ := s'
    have hsame : (⟨rc', ctx', h'⟩ : Done ℤ) = ⟨rc, ctx'', h''⟩ :=
      Except.ok.inj (hstep'.symm.trans hstep)
    cases hsame
    exact ⟨_, rfl, hR'⟩

/-- The state after any callbacks. -/
theorem hasRoom_of_reach (hn : 1 ≤ n) {calls : List (CBytes × ℤ)}
    (hs : (callbackSystem A n).Reach calls s) : HasRoom n s (received calls) := by
  obtain ⟨t, ht, hR⟩ := (callback_simulates A hn).reach hs
  rw [Transition.reach_ofEffect ht] at hR
  exact hR

/-- **The buffer of a download.**  After any callbacks, each taken, refused by the limit or
failed, there is room for a NUL, the bytes are at most 32768, and the buffer has grown by
no more than that.  So the next callback stays inside it, and `dynstring_getcstring` asks
for no memory, writes the NUL at `pos` or nothing, and returns the context's own buffer,
which holds the bytes received and a NUL. -/
theorem callback_buffer (A : Allocator UInt8) {n : ℕ} (hn : 1 ≤ n) {calls : List (CBytes × ℤ)}
    {s : DynstringState} (hs : (callbackSystem A n).Reach calls s) :
    s.ctx.pos < s.ctx.size ∧ s.ctx.pos ≤ 32768 ∧ s.ctx.size ≤ n + 32768 ∧
    (∀ chunk, ∃ rc s', (callbackSystem A n).step s (chunk, rc) s') ∧
    ∃ b h', s.ctx.buf = some b ∧
      dynstringGetcstring A s.ctx s.heap = .ok ⟨some b, s.ctx, h'⟩ ∧
      h'.requests = s.heap.requests ∧
      (h' = s.heap ∨ s.heap.write (some b) s.ctx.pos [0] = .ok h') ∧
      Terminated h' b (received calls) := by
  have hR := hasRoom_of_reach hn hs
  have hlen := hR.length_le
  have hpos := hR.represents.pos_eq
  have hsize := hR.size_le
  unfold bodyLimit at hlen
  refine ⟨hR.room, by omega, by omega, ?_, ?_⟩
  · intro chunk
    obtain ⟨rc, s', hstep, -⟩ := hasRoom_step (A := A) hR chunk
    exact ⟨rc, s', hstep⟩
  · obtain ⟨b, h', hb, he, -, hterm, hreq⟩ := getcstring_room (A := A) hR.represents hR.room
    have hwrite := getcstring_write hR.room he
    rw [hb] at he hwrite
    exact ⟨b, h', hb, he, hreq, hwrite, hterm⟩

/-- A chunk of two bytes, and the state after it: the buffer of one byte has grown by two. -/
def hiChunk : CBytes := ⟨[104, 105], by decide⟩

def hiState : DynstringState :=
  match dynstringAppendstring (generous true 7) (freshState 1).ctx hiChunk.bytes
      (freshState 1).heap with
  | .ok r => ⟨r.ctx, r.heap⟩
  | .error _ => freshState 1

/-- A buffer of size 1 has grown for the two bytes `hi`. -/
theorem callback_buffer_hi :
    hiState.ctx.pos < hiState.ctx.size ∧ hiState.ctx.pos ≤ 32768 ∧
    hiState.ctx.size ≤ 1 + 32768 ∧
    (∀ chunk, ∃ rc s', (callbackSystem (generous true 7) 1).step hiState (chunk, rc) s') ∧
    ∃ b h', hiState.ctx.buf = some b ∧
      dynstringGetcstring (generous true 7) hiState.ctx hiState.heap =
        .ok ⟨some b, hiState.ctx, h'⟩ ∧
      h'.requests = hiState.heap.requests ∧
      (h' = hiState.heap ∨ hiState.heap.write (some b) hiState.ctx.pos [0] = .ok h') ∧
      Terminated h' b (received [(hiChunk, 2)]) := by
  have hstart : (callbackSystem (generous true 7) 1).Reach [] (freshState 1) :=
    .start ⟨⟨none, 0, 0⟩, Heap.empty, rfl⟩
  have happend : dynstringAppendstring (generous true 7) (freshState 1).ctx hiChunk.bytes
      (freshState 1).heap = .ok ⟨0, hiState.ctx, hiState.heap⟩ := rfl
  have hsum : ¬ sizeAdd (dynstringLength (freshState 1).ctx) hiChunk.bytes.length > 8192 * 4 := by
    decide
  have hlen : toInt hiChunk.bytes.length = 2 := toInt_eq (by decide)
  have hstep : (callbackSystem (generous true 7) 1).step (freshState 1) (hiChunk, 2) hiState := by
    rw [callback_step, dynstringhttpWritedatatodynstring, if_neg hsum, happend, ok_bind, if_pos rfl,
      hlen, pure_eq_ok]
  exact callback_buffer (generous true 7) (le_refl 1) (hstart.step hstep)

end AzureMetadata.Analysis
