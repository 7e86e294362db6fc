import AzureMetadata.Analysis.DynstringRefinement

/-!
# Allocations that fail

`dynstringCalls` is a context in use with any answers of the allocator.  A call in which
a request is refused is to say so, and to leave the bytes as they were; only the
last request of `dynstring_detachcstring`, which cuts the excess off, may fail unnoticed.

`dynstring_getcstring` and `dynstring_detachcstring` do not look at what
`dynstring_appendchar` returns, so they break this when the NUL needs memory that is
refused.  `Honoured` is the condition under which it does not come to that.
-/

set_option autoImplicit false

namespace AzureMetadata.Analysis

open Clib AzureMetadata.Model AzureMetadata.Interface

variable {A : Allocator UInt8} {s s' : DynstringState} {t : List UInt8} {op : DynstringOp}

/-- A context that is initialised and then used, whether or not allocations succeed. -/
def dynstringCalls (A : Allocator UInt8) : Transition DynstringState DynstringOp where
  start := Initialised A
  step s op s' := ∃ out, dynstringStep A op s = .ok (out, s')

/-- The operations that make one request, or two. -/
def Allocates : DynstringOp → Prop
  | .appendchar _ => True
  | .appendstring _ => True
  | .compact => True
  | .getcstring => True
  | .detachcstring => True
  | _ => False

/-- A result by which the caller can tell a failure. -/
def Announces : DynstringOut → Prop
  | .code rc => rc ≠ 0
  | .pointer p => p = none
  | .nothing => False

/-- The NUL is in, and the block handed over holds `t` and the NUL: at most the cut has
failed. -/
def CutOnly (A : Allocator UInt8) (s : DynstringState) (t : List UInt8) (out : DynstringOut)
    (s' : DynstringState) : Prop :=
  (∃ ctx₁ h₁, dynstringAppendchar A s.ctx 0 s.heap = .ok ⟨0, ctx₁, h₁⟩) ∧
    ∃ b, out = .pointer (some b) ∧ Terminated s'.heap b t

/-- What a call does when a request in it is refused: the caller can tell, and the context
stands for the same bytes. -/
def HonestFailure (A : Allocator UInt8) (op : DynstringOp) (s : DynstringState)
    (t : List UInt8) : Prop :=
  ∃ out s', dynstringStep A op s = .ok (out, s') ∧
    (s'.heap.refusals ≠ s.heap.refusals →
      Announces out ∧ Represents s'.heap s'.ctx t ∨
        op = .detachcstring ∧ CutOnly A s t out s')

/-- The NUL of `dynstring_getcstring` and `dynstring_detachcstring` has room, or gets it;
or `dynstring_detachcstring` has no buffer and is refused one twice. -/
def Honoured (A : Allocator UInt8) (s : DynstringState) : DynstringOp → Prop
  | .getcstring => s.ctx.pos < s.ctx.size ∨ s.heap.grants A (s.ctx.size + 64) = true
  | .detachcstring => s.ctx.pos < s.ctx.size ∨ s.heap.grants A (s.ctx.size + 64) = true ∨
      s.ctx.buf = none ∧ s.heap.refuse.grants A 1 = false
  | _ => True

/-! ## The calls that look at their results -/

/-- An operation that returns a code, from its specification: refused, it returns -1 and
has changed nothing. -/
theorem honest_of_code {r : Except Fault (Done ℤ)} {n : ℕ} (t' : List UInt8)
    (hstep : dynstringStep A op s = r.map (Done.observe .code)) (hr : Represents s.heap s.ctx t)
    (hspec : AllOrNothing A n s.heap s.ctx t' r) : HonestFailure A op s t := by
  cases hspec with
  | inl hok =>
      obtain ⟨ctx', h', he, hsucc⟩ := hok
      exact ⟨.code 0, ⟨ctx', h'⟩, by rw [hstep, he]; rfl, fun hne => absurd hsucc.refusals hne⟩
  | inr hrefused =>
      have he := hrefused.1
      refine ⟨.code (-1), ⟨s.ctx, s.heap.refuse⟩, by rw [hstep, he]; rfl, fun _ => Or.inl ⟨?_, ?_⟩⟩
      · exact (by decide : (-1 : ℤ) ≠ 0)
      · exact represents_refuse hr

/-- `dynstring_appendchar` looks at what `realloc` returns. -/
theorem honest_appendchar (hr : Represents s.heap s.ctx t) (c : ℤ) :
    HonestFailure A (.appendchar c) s t := honest_of_code _ rfl hr (appendchar_spec hr c)

/-- So does `dynstring_appendstring`. -/
theorem honest_appendstring (hr : Represents s.heap s.ctx t) (str : CBytes) :
    HonestFailure A (.appendstring str) s t :=
  honest_of_code _ rfl hr (appendstring_allOrNothing hr str.length_le)

/-- And `dynstring_compact`. -/
theorem honest_compact (hr : Represents s.heap s.ctx t) : HonestFailure A .compact s t :=
  honest_of_code _ rfl hr (compact_spec hr)

/-! ## The calls that do not -/

/-- One less is another number, also from 0. -/
theorem sizePred_ne (pos : ℕ) : sizePred pos ≠ pos := by
  unfold sizePred sizeMod
  omega

/-- `getcstring` reports a failure honestly where it is honoured. -/
theorem honest_getcstring (hr : Represents s.heap s.ctx t) :
    HonestFailure A .getcstring s t ↔ Honoured A s .getcstring := by
  cases Nat.lt_or_ge s.ctx.pos s.ctx.size with
  | inl hroom =>
      obtain ⟨b, h', -, he, hsucc, -⟩ := getcstring_room (A := A) hr hroom
      refine iff_of_true ⟨.pointer s.ctx.buf, ⟨s.ctx, h'⟩, by rw [dynstringStep, he]; rfl, ?_⟩
        (Or.inl hroom)
      intro hne
      exact absurd hsucc.refusals hne
  | inr hfull =>
      cases hg : s.heap.grants A (s.ctx.size + 64) with
      | true =>
          obtain ⟨b, h', he, hsucc, -⟩ := getcstring_granted hr hfull hg
          refine iff_of_true ⟨.pointer s.ctx.buf, ⟨_, h'⟩, by rw [dynstringStep, he]; rfl, ?_⟩
            (Or.inr hg)
          intro hne
          exact absurd hsucc.refusals hne
      | false =>
          apply iff_of_false
          · rintro ⟨out, s', hstep, hfail⟩
            rw [dynstringStep, getcstring_refused hr hfull hg] at hstep
            cases hstep
            -- Whatever the pointer, `pos` is no longer the number of bytes.
            cases hfail refusals_refuse_ne with
            | inl hsame =>
                have hpos := hsame.2.pos_eq
                rw [← hr.pos_eq] at hpos
                exact sizePred_ne _ hpos
            | inr hcut => cases hcut.1
          · rintro (hroom | hgrant)
            · exact absurd hroom (Nat.not_lt.mpr hfull)
            · rw [hg] at hgrant
              cases hgrant

/-- The handing over once the NUL is in. -/
theorem honest_detach_appended {ctx₁ : DynstringContext} {h₁ : Heap UInt8}
    (he : dynstringAppendchar A s.ctx 0 s.heap = .ok ⟨0, ctx₁, h₁⟩)
    (hsucc : Succeeds s.heap s.ctx ctx₁ (t ++ [0]) h₁) : HonestFailure A .detachcstring s t := by
  obtain ⟨b, h', hd, hterm, -⟩ := detachcstring_appended he hsucc
  exact ⟨.pointer (some b), ⟨_, h'⟩, by rw [dynstringStep, hd]; rfl,
    fun _ => Or.inr ⟨rfl, ⟨ctx₁, h₁, he⟩, b, rfl, hterm⟩⟩

/-- When the NUL was refused, the bytes stay with the context only if there is no buffer to
hand over, and the cut is refused too. -/
theorem honest_detach_refused (hr : Represents s.heap s.ctx t)
    (he : dynstringAppendchar A s.ctx 0 s.heap = .ok ⟨-1, s.ctx, s.heap.refuse⟩) :
    HonestFailure A .detachcstring s t ↔
      s.ctx.buf = none ∧ s.heap.refuse.grants A 1 = false := by
  have hnotcut : ∀ out s', ¬ CutOnly A s t out s' := by
    rintro out s' ⟨⟨ctx₁, h₁, he'⟩, -⟩
    rw [he] at he'
    cases he'
  cases hg : s.heap.refuse.grants A (s.ctx.pos + 1) with
  | true =>
      obtain ⟨b, h', hd, href⟩ := detachcstring_unterminated hr he hg
      apply iff_of_false
      · rintro ⟨out, s', hstep, hfail⟩
        rw [dynstringStep, hd] at hstep
        cases hstep
        have hne : h'.refusals ≠ s.heap.refusals := by omega
        cases hfail hne with
        | inl hsame => cases hsame.1
        | inr hcut => exact hnotcut _ _ hcut.2
      · rintro ⟨hnone, hone⟩
        rw [(represents_none hr hnone).1, hone] at hg
        cases hg
  | false =>
      have hd := detachcstring_refused hr he hg
      have hne : s.heap.refuse.refuse.refusals ≠ s.heap.refusals := by
        simp only [Heap.refuse]
        omega
      constructor
      · rintro ⟨out, s', hstep, hfail⟩
        rw [dynstringStep, hd] at hstep
        cases hstep
        cases hfail hne with
        | inl hsame =>
            have hnone : s.ctx.buf = none := hsame.1
            rw [(represents_none hr hnone).1] at hg
            exact ⟨hnone, hg⟩
        | inr hcut => exact absurd hcut.2 (hnotcut _ _)
      · rintro ⟨hnone, -⟩
        refine ⟨.pointer s.ctx.buf, ⟨_, _⟩, by rw [dynstringStep, hd]; rfl, ?_⟩
        intro _
        apply Or.inl
        rw [(represents_none hr hnone).2]
        exact ⟨hnone, represents_null _⟩

/-- So does `detachcstring`. -/
theorem honest_detachcstring (hr : Represents s.heap s.ctx t) :
    HonestFailure A .detachcstring s t ↔ Honoured A s .detachcstring := by
  cases Nat.lt_or_ge s.ctx.pos s.ctx.size with
  | inl hroom =>
      obtain ⟨h₁, he, hsucc, -⟩ := appendchar_room (A := A) hr hroom 0
      exact iff_of_true (honest_detach_appended he hsucc) (Or.inl hroom)
  | inr hfull =>
      have hnoroom : ¬ s.ctx.pos < s.ctx.size := Nat.not_lt.mpr hfull
      cases hg : s.heap.grants A (s.ctx.size + 64) with
      | true =>
          obtain ⟨b, h₁, he, hsucc, -⟩ := appendchar_granted hr hfull 0 hg
          exact iff_of_true (honest_detach_appended he hsucc) (Or.inr (Or.inl hg))
      | false =>
          rw [honest_detach_refused hr (appendchar_refused hr hfull 0 hg)]
          simp [Honoured, hnoroom, hg]

/-! ## Runs -/

/-- What a call that ends leaves is again a context that stands for some bytes. -/
def Leaves {ο : Type} (r : Except Fault (Done ο)) : Prop :=
  ∀ d, r = .ok d → ∃ t, Refines ⟨d.ctx, d.heap⟩ t

/-- A call that returns with a buffer of bytes leaves one. -/
theorem leaves_ok {ο : Type} {d : Done ο} (hd : Refines ⟨d.ctx, d.heap⟩ t) :
    Leaves (.ok d : Except Fault (Done ο)) := by
  intro d' he
  cases he
  exact ⟨t, hd⟩

/-- So does one that succeeds. -/
theorem leaves_succeeds {ο : Type} {d : Done ο} (hs : Refines s t) {t' : List UInt8}
    (hsucc : Succeeds s.heap s.ctx d.ctx t' d.heap) : Leaves (.ok d : Except Fault (Done ο)) :=
  leaves_ok ⟨hsucc.represents, hsucc.proper hs.2⟩

/-- And one that is refused and leaves the context. -/
theorem leaves_refuse {ο : Type} {o : ο} (hs : Refines s t) :
    Leaves (.ok ⟨o, s.ctx, s.heap.refuse⟩ : Except Fault (Done ο)) :=
  leaves_ok ⟨represents_refuse hs.1, hs.2⟩

/-- And one that does all or nothing. -/
theorem leaves_of_code {r : Except Fault (Done ℤ)} {t' : List UInt8} {n : ℕ} (hs : Refines s t)
    (hspec : AllOrNothing A n s.heap s.ctx t' r) : Leaves r := by
  cases hspec with
  | inl hok =>
      obtain ⟨ctx', h', he, hsucc⟩ := hok
      exact he ▸ leaves_succeeds hs hsucc
  | inr hrefused => exact hrefused.1 ▸ leaves_refuse hs

/-- What is observed of a call is the state it leaves. -/
theorem leaves_observe {ο : Type} {r : Except Fault (Done ο)} {f : ο → DynstringOut}
    {out : DynstringOut} (hr : Leaves r) (hstep : r.map (Done.observe f) = .ok (out, s')) :
    ∃ t, Refines s' t := by
  cases r with
  | error e => cases hstep
  | ok d =>
      cases hstep
      exact hr d rfl

/-- One call that meets the condition, whether or not requests are refused in it. -/
theorem refines_step (hs : Refines s t) (hcond : Honoured A s op)
    (hstep : (dynstringCalls A).step s op s') : ∃ t, Refines s' t := by
  obtain ⟨out, hstep⟩ := hstep
  cases op with
  | appendchar c =>
      apply leaves_observe ?_ hstep
      exact leaves_of_code hs (appendchar_spec hs.1 c)
  | appendstring str =>
      apply leaves_observe ?_ hstep
      exact leaves_of_code hs (appendstring_allOrNothing hs.1 str.length_le)
  | appendstringz junk str strs =>
      apply leaves_observe ?_ hstep
      rcases appendstringzVa_spec (A := A) (str :: strs) junk hs.1 with
        ⟨ctx', h', he, hsucc, -⟩ | ⟨ctx', h', k, -, he, hsucc, -⟩
      · rw [dynstringAppendstringz, he]
        exact leaves_succeeds hs hsucc
      · -- The strings before the refused one stay.
        rw [dynstringAppendstringz, he]
        exact leaves_ok ⟨represents_refuse hsucc.represents, hsucc.proper hs.2⟩
  | empty =>
      apply leaves_observe ?_ hstep
      obtain ⟨ctx', h', he, hsucc⟩ := empty_spec hs.1 hs.2
      exact he ▸ leaves_succeeds hs hsucc
  | compact =>
      apply leaves_observe ?_ hstep
      exact leaves_of_code hs (compact_spec hs.1)
  | getcstring =>
      apply leaves_observe ?_ hstep
      rcases getcstring_spec (A := A) hs.1 with ⟨ctx', h', he, hsucc⟩ | ⟨-, hfull, hg⟩
      · exact he ▸ leaves_succeeds hs hsucc
      · -- The condition of the step excludes this.
        have hgranted := hcond.resolve_left (Nat.not_lt.mpr hfull)
        rw [hg] at hgranted
        cases hgranted
  | detachcstring =>
      -- However it goes, the context is empty afterwards.
      apply leaves_observe ?_ hstep
      obtain ⟨p, h', hd, -⟩ := detachcstring_spec (A := A) hs.1
      exact hd ▸ leaves_ok (refines_zero h')
  | free =>
      apply leaves_observe ?_ hstep
      obtain ⟨h', he, hsucc⟩ := free_spec hs.1
      exact he ▸ leaves_succeeds hs hsucc

/-- The runs all of whose steps meet the condition. -/
def honouredCalls (A : Allocator UInt8) : Transition DynstringState DynstringOp :=
  (dynstringCalls A).restrict (Honoured A)

/-- After calls that are honoured the buffer holds a byte string. -/
theorem refines_of_honoured {ops : List DynstringOp} (hs : (honouredCalls A).Reach ops s) :
    ∃ t, Refines s t := by
  apply hs.invariant
  · intro s hstart
    exact ⟨[], refines_of_initialised hstart⟩
  · intro s op s' hI hstep
    obtain ⟨t, hR⟩ := hI
    exact refines_step hR hstep.1 hstep.2

/-- **Failures are honest.**  In every state that a run reaches all of whose steps meet the
condition, the context stands for some bytes, and for each operation that allocates a
refused request is honest exactly when that step meets the condition too. -/
theorem honest_iff_honoured (A : Allocator UInt8) {ops : List DynstringOp} {s : DynstringState}
    (hs : (honouredCalls A).Reach ops s) :
    ∃ t, Represents s.heap s.ctx t ∧
      ∀ op, Allocates op → (HonestFailure A op s t ↔ Honoured A s op) := by
  obtain ⟨t, hR⟩ := refines_of_honoured hs
  refine ⟨t, hR.1, ?_⟩
  intro op hop
  cases op with
  | appendchar c => exact iff_of_true (honest_appendchar hR.1 c) trivial
  | appendstring str => exact iff_of_true (honest_appendstring hR.1 str) trivial
  | compact => exact iff_of_true (honest_compact hR.1) trivial
  | getcstring => exact honest_getcstring hR.1
  | detachcstring => exact honest_detachcstring hR.1
  | appendstringz junk str strs => cases hop
  | empty => cases hop
  | free => cases hop

/-- An allocator that grants one request and no other. -/
def onlyFirst : Allocator UInt8 := fun k => ⟨decide (k = 0), true, fun _ => 7⟩

/-- A context of size 1 under it with one byte, and what `dynstring_getcstring` leaves. -/
def fullState : DynstringState :=
  let r := dynstringInitialise onlyFirst ⟨none, 0, 0⟩ 1 Heap.empty
  match dynstringStep onlyFirst (.appendchar 65) ⟨r.ctx, r.heap⟩ with
  | .ok (_, s) => s
  | .error _ => ⟨r.ctx, r.heap⟩

def shortenedState : DynstringState :=
  match dynstringStep onlyFirst .getcstring fullState with
  | .ok (_, s) => s
  | .error _ => fullState

/-- The context is full and the next request is refused: the append says so and changes
nothing, the two calls that need memory for a NUL do not. -/
theorem honest_iff_honoured_full :
    fullState.ctx.pos = 1 ∧ fullState.ctx.size = 1 ∧
    fullState.heap.grants onlyFirst 65 = false ∧
    ∃ t, Represents fullState.heap fullState.ctx t ∧
      (∀ op, Allocates op → (HonestFailure onlyFirst op fullState t ↔
        Honoured onlyFirst fullState op)) ∧
      HonestFailure onlyFirst (.appendchar 66) fullState t ∧
      HonestFailure onlyFirst .compact fullState t ∧
      ¬ HonestFailure onlyFirst .getcstring fullState t ∧
      ¬ HonestFailure onlyFirst .detachcstring fullState t := by
  have hstart : (honouredCalls onlyFirst).Reach []
      ⟨{ buf := some 0, size := 1, pos := 0 },
        (dynstringInitialise onlyFirst ⟨none, 0, 0⟩ 1 Heap.empty).heap⟩ :=
    .start (Or.inr ⟨⟨none, 0, 0⟩, 1, Heap.empty, le_rfl, rfl⟩)
  have hrun : (honouredCalls onlyFirst).Reach [.appendchar 65] fullState :=
    hstart.step ⟨trivial, .code 0, rfl⟩
  obtain ⟨t, hr, hiff⟩ := honest_iff_honoured onlyFirst hrun
  have hroom : ¬ fullState.ctx.pos < fullState.ctx.size := by decide
  have hrefused : fullState.heap.grants onlyFirst (fullState.ctx.size + 64) = false := by decide
  have hbuf : fullState.ctx.buf ≠ none := by decide
  refine ⟨rfl, rfl, hrefused, t, hr, hiff, (hiff (.appendchar 66) trivial).mpr trivial,
    (hiff .compact trivial).mpr trivial, ?_, ?_⟩
  · rw [hiff .getcstring trivial]
    simp [Honoured, hroom, hrefused]
  · rw [hiff .detachcstring trivial]
    simp [Honoured, hroom, hrefused, hbuf]

/-- Memory for the NUL is refused: the call returns the buffer of one byte, in which there
is no NUL, and takes one from `pos`. -/
theorem getcstring_hides_failure :
    (dynstringCalls onlyFirst).Reach [.appendchar 65] fullState ∧
    dynstringStep onlyFirst .getcstring fullState = .ok (.pointer (some 0), shortenedState) ∧
    shortenedState.heap.refusals = fullState.heap.refusals + 1 ∧
    fullState.ctx.pos = 1 ∧ shortenedState.ctx.pos = 0 ∧
    shortenedState.heap.cString (some 0) = none ∧
    ∀ t, Represents fullState.heap fullState.ctx t →
      ¬ HonestFailure onlyFirst .getcstring fullState t := by
  have hstart : (dynstringCalls onlyFirst).Reach []
      ⟨{ buf := some 0, size := 1, pos := 0 },
        (dynstringInitialise onlyFirst ⟨none, 0, 0⟩ 1 Heap.empty).heap⟩ :=
    .start (Or.inr ⟨⟨none, 0, 0⟩, 1, Heap.empty, le_rfl, rfl⟩)
  have hcall : dynstringStep onlyFirst .getcstring fullState =
      .ok (.pointer (some 0), shortenedState) := rfl
  refine ⟨hstart.step ⟨.code 0, rfl⟩, hcall, rfl, rfl, rfl, by decide, ?_⟩
  rintro t - ⟨out, s', hstep, hfail⟩
  rw [hcall] at hstep
  cases hstep
  cases hfail (by decide) with
  | inl hsame => cases hsame.1
  | inr hcut => cases hcut.1

end AzureMetadata.Analysis
