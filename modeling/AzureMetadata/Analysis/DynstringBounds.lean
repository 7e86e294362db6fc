import AzureMetadata.Analysis.DynstringRefinement
import AzureMetadata.Interface.BufferCalls

/-!
# Where a dynstring touches its buffer

In the heap a read or a write past the end of a block is a fault, so a call that ends has
kept to the buffer.  After any calls the context stands for some bytes, and that is enough
for all of them but two: `dynstring_endswithchar` reads at `pos - 1` whether or not there
are bytes, and `dynstring_empty` writes at 0 into any block there is, also one of no bytes.
-/

set_option autoImplicit false

namespace AzureMetadata.Analysis

open Clib AzureMetadata.Model AzureMetadata.Interface

variable {A : Allocator UInt8} {s s' : DynstringState} {h : Heap UInt8} {ctx : DynstringContext}
  {t : List UInt8} {call : BufferCall}

/-- The context stands for some bytes. -/
def Stands (s : DynstringState) : Prop := ∃ t, Represents s.heap s.ctx t

/-- What the call needs: bytes to look at, or room for a NUL if there is a buffer. -/
def NeedMet (s : DynstringState) : BufferCall → Prop
  | .endswithchar _ => 0 < s.ctx.pos
  | .operate .empty => s.ctx.buf = none ∨ 0 < s.ctx.size
  | _ => True

/-- A call that ends, and leaves a context that stands for some bytes unless a request is
refused in it. -/
def Ends {ο : Type} (h : Heap UInt8) (r : Except Fault (Done ο)) : Prop :=
  ∃ d, r = .ok d ∧ (d.heap.refusals = h.refusals → Stands ⟨d.ctx, d.heap⟩)

/-- A call that succeeds leaves a buffer that represents bytes. -/
theorem ends_succeeds {ο : Type} {o : ο} {ctx' : DynstringContext} {h' : Heap UInt8}
    {t' : List UInt8} (hsucc : Succeeds h ctx ctx' t' h') :
    Ends h (.ok ⟨o, ctx', h'⟩ : Except Fault (Done ο)) :=
  ⟨_, rfl, fun _ => ⟨t', hsucc.represents⟩⟩

/-- A call that releases the buffer leaves none. -/
theorem ends_null {ο : Type} {o : ο} (h h' : Heap UInt8) :
    Ends h (.ok ⟨o, ⟨none, 0, 0⟩, h'⟩ : Except Fault (Done ο)) :=
  ⟨_, rfl, fun _ => ⟨[], represents_null h'⟩⟩

/-- Of a call with a refusal nothing is asked. -/
theorem ends_refused {ο : Type} {d : Done ο} (hmore : d.heap.refusals ≠ h.refusals) :
    Ends h (.ok d : Except Fault (Done ο)) := ⟨d, rfl, fun hsame => absurd hsame hmore⟩

/-- A call that does all or nothing ends so. -/
theorem ends_of_code {r : Except Fault (Done ℤ)} {t' : List UInt8}
    {n : ℕ} (hspec : AllOrNothing A n h ctx t' r) : Ends h r := by
  cases hspec with
  | inl hok =>
      obtain ⟨ctx', h', he, hsucc⟩ := hok
      rw [he]
      exact ends_succeeds hsucc
  | inr hrefused =>
      rw [hrefused.1]
      exact ends_refused (Nat.succ_ne_self _)

/-! ## The calls that need something -/

/-- With a byte in the buffer `endswithchar` reads the last one. -/
theorem endswithchar_ok (hr : Represents h ctx t) (hpos : 0 < ctx.pos) (c : ℤ) :
    ∃ rc, dynstringEndswithchar ctx c h = .ok ⟨rc, ctx, h⟩ := by
  have hle := hr.pos_le
  have hmax := hr.size_le
  obtain ⟨b, hb⟩ := represents_buf_some hr (by omega)
  obtain ⟨cells, hh, hlen, -⟩ := hr.buffer
  have hlast : sizePred ctx.pos = ctx.pos - 1 := by
    have hsucc : ctx.pos - 1 + 1 = ctx.pos := by omega
    have hpred := sizePred_succ (a := ctx.pos - 1) (by omega)
    rwa [hsucc] at hpred
  rw [hb] at hh
  have hread := Heap.read_ok hh (show ctx.pos - 1 < cells.length by omega)
  unfold dynstringEndswithchar
  rw [hlast, hb, hread]
  exact ⟨_, rfl⟩

/-- Without bytes `pos - 1` is the largest `size_t`, and there is no such index. -/
theorem endswithchar_fault (hr : Represents h ctx t) (hpos : ctx.pos = 0) (c : ℤ) :
    ∃ e, dynstringEndswithchar ctx c h = .error e := by
  obtain ⟨cells, hh, hlen, -⟩ := hr.buffer
  have hmax := hr.size_le
  have hlast : sizePred 0 = sizeMod - 1 := rfl
  unfold dynstringEndswithchar
  rw [hpos, hlast]
  cases hb : ctx.buf with
  | none => exact ⟨.nullPointer, rfl⟩
  | some b =>
      rw [hb] at hh
      have hnone : cells[sizeMod - 1]? = none := by
        apply List.getElem?_eq_none
        unfold sizeMod
        unfold ptrdiffMax at hmax
        omega
      refine ⟨.outOfBounds, ?_⟩
      simp only [Heap.read, hh.2, hnone]
      rfl

/-- With no buffer or one of some bytes the context is a proper one. -/
theorem proper_of_room (hr : Represents h ctx t) (hroom : ctx.buf = none ∨ 0 < ctx.size) :
    Proper ctx := by
  by_cases hsize : 0 < ctx.size
  · obtain ⟨b, hb⟩ := represents_buf_some hr hsize
    apply iff_of_false
    · rw [hb]
      exact Option.some_ne_none b
    · omega
  · apply iff_of_true
    · exact hroom.resolve_right hsize
    · omega

/-- The NUL does not go into a block of no bytes. -/
theorem empty_fault (hr : Represents h ctx t) {b : ℕ} (hb : ctx.buf = some b)
    (hsize : ctx.size = 0) : dynstringEmpty ctx h = .error .outOfBounds := by
  obtain ⟨cells, hh, hlen, -⟩ := hr.buffer
  rw [hb] at hh
  have hnil : cells = [] := by
    apply List.length_eq_zero_iff.mp
    omega
  have hblock := hh.2
  rw [hnil] at hblock
  unfold dynstringEmpty
  simp only [hb, Heap.write, hblock]
  rfl

/-! ## The calls that do not -/

/-- `appendstringz` ends so whatever its strings are. -/
theorem ends_appendstringz (hr : Represents h ctx t) (junk : ℤ) (args : List CString) :
    Ends h (dynstringAppendstringz A junk ctx args h) := by
  rcases appendstringzVa_spec (A := A) args junk hr with
    ⟨ctx', h', he, hsucc, -⟩ | ⟨ctx', h', k, -, he, hsucc, -⟩
  · rw [dynstringAppendstringz, he]
    exact ends_succeeds hsucc
  · rw [dynstringAppendstringz, he]
    apply ends_refused
    dsimp only
    rw [← hsucc.refusals]
    exact Nat.succ_ne_self _

/-- So does `getcstring`. -/
theorem ends_getcstring (hr : Represents h ctx t) : Ends h (dynstringGetcstring A ctx h) := by
  cases getcstring_spec (A := A) hr with
  | inl hok =>
      obtain ⟨ctx', h', he, hsucc⟩ := hok
      rw [he]
      exact ends_succeeds hsucc
  | inr hrefused =>
      rw [hrefused.1]
      exact ends_refused (Nat.succ_ne_self _)

/-- So does `detachcstring`. -/
theorem ends_detachcstring (hr : Represents h ctx t) :
    Ends h (dynstringDetachcstring A ctx h) := by
  obtain ⟨p, h', hd, -⟩ := detachcstring_spec (A := A) hr
  rw [hd]
  exact ends_null h h'

/-- So does `initialise`, from any context. -/
theorem ends_initialise (A : Allocator UInt8) (junk : DynstringContext) (n : ℕ)
    (h : Heap UInt8) : Ends h (.ok (dynstringInitialise A junk n h)) := by
  cases initialise_spec A junk n h with
  | inl hok =>
      obtain ⟨b, h', he, hr, -⟩ := hok
      rw [he]
      exact ⟨_, rfl, fun _ => ⟨[], hr⟩⟩
  | inr hrefused =>
      rw [hrefused.1]
      exact ends_refused (Nat.succ_ne_self _)

/-! ## Every call -/

/-- The call ends, and unless a request is refused in it leaves a context that stands. -/
def StepKeeps (A : Allocator UInt8) (call : BufferCall) (s : DynstringState) : Prop :=
  ∃ out s', bufferStep A call s = .ok (out, s') ∧
    (s'.heap.refusals = s.heap.refusals → Stands s')

/-- What is observed of a call that ends so. -/
theorem stepKeeps_of_ends {ο : Type} {r : Except Fault (Done ο)} {f : ο → DynstringOut}
    (hstep : bufferStep A call s = r.map (Done.observe f)) (hends : Ends s.heap r) :
    StepKeeps A call s := by
  obtain ⟨d, hd, hstands⟩ := hends
  refine ⟨f d.out, ⟨d.ctx, d.heap⟩, ?_, hstands⟩
  rw [hstep, hd]
  rfl

/-- One call whose need is met. -/
theorem step_keeps (hs : Stands s) (hmet : NeedMet s call) : StepKeeps A call s := by
  obtain ⟨t, hr⟩ := hs
  cases call with
  | operate op =>
      cases op with
      | appendchar c => exact stepKeeps_of_ends rfl (ends_of_code (appendchar_spec hr c))
      | appendstring str =>
          exact stepKeeps_of_ends rfl (ends_of_code (appendstring_allOrNothing hr str.length_le))
      | appendstringz junk str strs =>
          exact stepKeeps_of_ends rfl (ends_appendstringz hr junk (str :: strs))
      | empty =>
          obtain ⟨ctx', h', he, hsucc⟩ := empty_spec hr (proper_of_room hr hmet)
          apply stepKeeps_of_ends rfl
          rw [he]
          exact ends_succeeds hsucc
      | compact => exact stepKeeps_of_ends rfl (ends_of_code (compact_spec hr))
      | getcstring => exact stepKeeps_of_ends rfl (ends_getcstring hr)
      | detachcstring => exact stepKeeps_of_ends rfl (ends_detachcstring hr)
      | free =>
          obtain ⟨h', he, hsucc⟩ := free_spec hr
          apply stepKeeps_of_ends rfl
          rw [he]
          exact ends_succeeds hsucc
  | appendstringzNone junk => exact stepKeeps_of_ends rfl (ends_appendstringz (A := A) hr junk [])
  | endswithchar c =>
      obtain ⟨rc, he⟩ := endswithchar_ok hr hmet c
      apply stepKeeps_of_ends rfl
      rw [he]
      exact ⟨_, rfl, fun _ => ⟨t, hr⟩⟩
  | length => exact ⟨_, s, rfl, fun _ => ⟨t, hr⟩⟩
  | initialisezero => exact ⟨_, _, rfl, fun _ => ⟨[], represents_null _⟩⟩
  | initialise size => exact stepKeeps_of_ends rfl (ends_initialise A s.ctx size s.heap)

/-- A call whose need is not met faults. -/
theorem needMet_of_inBuffer (hs : Stands s) (hin : InBuffer A call s) : NeedMet s call := by
  obtain ⟨t, hr⟩ := hs
  obtain ⟨r, hstep⟩ := hin
  cases call with
  | operate op =>
      cases op with
      | empty =>
          by_contra hneed
          obtain ⟨hbuf, hsize⟩ := not_or.mp hneed
          obtain ⟨b, hb⟩ := Option.ne_none_iff_exists'.mp hbuf
          rw [bufferStep, dynstringStep, empty_fault hr hb (by omega)] at hstep
          cases hstep
      | _ => trivial
  | endswithchar c =>
      by_contra hneed
      obtain ⟨e, he⟩ := endswithchar_fault hr (Nat.eq_zero_of_not_pos hneed) c
      rw [bufferStep, he] at hstep
      cases hstep
  | _ => trivial

/-! ## Runs -/

/-- A context that was just initialised stands. -/
theorem stands_of_initialised (hs : InitialisedAny A s) : Stands s := by
  cases hs with
  | inl hzero =>
      obtain ⟨h, he⟩ := hzero
      cases s
      cases he
      exact ⟨[], represents_null _⟩
  | inr hsize =>
      obtain ⟨junk, n, h, he⟩ := hsize
      exact ⟨[], (represents_of_initialise he).1⟩

/-- It stands after every run. -/
theorem stands_of_reach {calls : List BufferCall} (hs : (bufferSystem A).Reach calls s) :
    Stands s := by
  apply hs.invariant
  · intro s hstart
    exact stands_of_initialised hstart
  · intro s call s' hstands hstep
    obtain ⟨out, he, href⟩ := hstep
    have hmet := needMet_of_inBuffer hstands ⟨_, he⟩
    obtain ⟨out', s'', he', hends⟩ := step_keeps (A := A) hstands hmet
    rw [he] at he'
    cases he'
    exact hends href

/-- **Accesses stay in the buffer.**  After any calls on a context that was initialised
with any size, in which every allocation succeeded, every call keeps to the buffer exactly
when it is not `dynstring_endswithchar` without any bytes, or `dynstring_empty` on a block of
no bytes. -/
theorem buffer_in_bounds_iff (A : Allocator UInt8) {calls : List BufferCall} {s : DynstringState}
    (hs : (bufferSystem A).Reach calls s) (call : BufferCall) :
    InBuffer A call s ↔ NeedMet s call := by
  have hstands := stands_of_reach hs
  constructor
  · exact needMet_of_inBuffer hstands
  · intro hmet
    obtain ⟨out, s', he, -⟩ := step_keeps (A := A) hstands hmet
    exact ⟨(out, s'), he⟩

/-- A block of no bytes is no obstacle to `dynstring_getcstring`, which asks for 64. -/
theorem buffer_in_bounds_iff_zero :
    InBuffer (generous true 7) (.operate .getcstring) (freshState 0) :=
  (buffer_in_bounds_iff (generous true 7)
    (.start (Or.inr ⟨⟨none, 0, 0⟩, 0, Heap.empty, rfl⟩)) (.operate .getcstring)).mpr trivial

/-- The NUL of `dynstring_empty` goes past a block of no bytes, and on a context just
initialised `dynstring_endswithchar` reads far from its block. -/
theorem buffer_touched_outside :
    (bufferSystem (generous true 7)).Reach [] (freshState 0) ∧
    bufferStep (generous true 7) (.operate .empty) (freshState 0) = .error .outOfBounds ∧
    ¬ InBuffer (generous true 7) (.operate .empty) (freshState 0) ∧
    (bufferSystem (generous true 7)).Reach [] (freshState 16) ∧
    bufferStep (generous true 7) (.endswithchar 120) (freshState 16) = .error .outOfBounds ∧
    ¬ InBuffer (generous true 7) (.endswithchar 120) (freshState 16) := by
  have hempty : bufferStep (generous true 7) (.operate .empty) (freshState 0) =
      .error .outOfBounds := rfl
  have hends : bufferStep (generous true 7) (.endswithchar 120) (freshState 16) =
      .error .outOfBounds := rfl
  refine ⟨.start (Or.inr ⟨⟨none, 0, 0⟩, 0, Heap.empty, rfl⟩), hempty, ?_,
    .start (Or.inr ⟨⟨none, 0, 0⟩, 16, Heap.empty, rfl⟩), hends, ?_⟩
  · rintro ⟨r, hr⟩
    rw [hempty] at hr
    cases hr
  · rintro ⟨r, hr⟩
    rw [hends] at hr
    cases hr

end AzureMetadata.Analysis
