import AzureMetadata.Analysis.DynstringOperations

/-!
# A dynstring is a byte string

`step_spec` collects the specifications of the operations into one statement about a
call: from a context that represents some bytes no call faults, and unless a request
is refused in it the call has its effect on the bytes.  `dynstring_simulates` is the
resulting simulation of `byteString`, and `dynstring_refines` what it says about every
sequence of calls.

`getcstring_live_iff` is about the pointer `dynstring_getcstring` hands out, which it
reads before the append that may move the buffer.
-/

set_option autoImplicit false

namespace AzureMetadata.Analysis

open Clib AzureMetadata.Model AzureMetadata.Interface

variable {A : Allocator UInt8} {s : DynstringState} {t : List UInt8}

/-- What a call on a context that represents `t` returns when no request is refused;
`h` is the heap it leaves.  A detached block holds the bytes and a NUL. -/
def Returns (h : Heap UInt8) (t : List UInt8) : DynstringOp → DynstringOut → Prop
  | .empty, out => out = .nothing
  | .free, out => out = .nothing
  | .getcstring, out => ∃ p, out = .pointer p
  | .detachcstring, out => ∃ b, out = .pointer (some b) ∧ Terminated h b t
  | _, out => out = .code 0

/-- The relation between a state of the model and the bytes it stands for. -/
def Refines (s : DynstringState) (t : List UInt8) : Prop :=
  Represents s.heap s.ctx t ∧ Proper s.ctx

/-- A call that does not fault: no request is refused in it if the allocator grants those it
makes, and then it does nothing but its effect on the bytes. -/
def Performs (A : Allocator UInt8) (op : DynstringOp) (s : DynstringState) (t : List UInt8) :
    Prop :=
  ∃ out s', dynstringStep A op s = .ok (out, s') ∧
    (Granted A op s → s'.heap.refusals = s.heap.refusals) ∧
    (s'.heap.refusals = s.heap.refusals →
      Refines s' (byteStringEffect t op) ∧ Returns s'.heap t op out)

/-- A refusal is counted. -/
theorem refusals_refuse_ne {h : Heap UInt8} : h.refuse.refusals ≠ h.refusals :=
  Nat.succ_ne_self _

/-- A call in which no request is refused, whatever the allocator answers. -/
theorem performs_quietly {op : DynstringOp} (out : DynstringOut) (s' : DynstringState)
    (hstep : dynstringStep A op s = .ok (out, s')) (hquiet : s'.heap.refusals = s.heap.refusals)
    (hs' : Refines s' (byteStringEffect t op)) (hret : Returns s'.heap t op out) :
    Performs A op s t :=
  ⟨out, s', hstep, fun _ => hquiet, fun _ => ⟨hs', hret⟩⟩

/-- A call in which a request is refused that the allocator did not grant. -/
theorem performs_refused {op : DynstringOp} (out : DynstringOut) (s' : DynstringState)
    (hstep : dynstringStep A op s = .ok (out, s')) (hne : s'.heap.refusals ≠ s.heap.refusals)
    (hnot : ¬ Granted A op s) : Performs A op s t :=
  ⟨out, s', hstep, fun hgranted => absurd hgranted hnot, fun href => absurd href hne⟩

/-- The one request of a call was refused. -/
theorem not_granted {op : DynstringOp} {n : ℕ} (hg : s.heap.grants A n = false)
    (hn : n ≤ s.ctx.size + op.growth) (hone : 0 < op.requests) : ¬ Granted A op s :=
  fun hgranted => Heap.not_grantsNext hg (hn.trans hgranted.2) hone hgranted.1

/-- A call that appends or resizes, from its specification. -/
theorem performs_of_code {op : DynstringOp} {r : Except Fault (Done ℤ)}
    (hstep : dynstringStep A op s = r.map (Done.observe .code)) (hs : Refines s t)
    (hret : ∀ h, Returns h t op (.code 0))
    (hspec : (∃ ctx' h', r = .ok ⟨0, ctx', h'⟩ ∧
        Succeeds s.heap s.ctx ctx' (byteStringEffect t op) h') ∨
      ∃ ctx' h', r = .ok ⟨-1, ctx', h'⟩ ∧ h'.refusals ≠ s.heap.refusals ∧ ¬ Granted A op s) :
    Performs A op s t := by
  rcases hspec with ⟨ctx', h', hr, hsucc⟩ | ⟨ctx', h', hr, hne, hnot⟩
  · exact performs_quietly (.code 0) ⟨ctx', h'⟩ (by rw [hstep, hr]; rfl) hsucc.refusals
      ⟨hsucc.represents, hsucc.proper hs.2⟩ (hret _)
  · exact performs_refused (.code (-1)) ⟨ctx', h'⟩ (by rw [hstep, hr]; rfl) hne hnot

/-- A call that makes one request at most. -/
theorem performs_of_allOrNothing {op : DynstringOp} {r : Except Fault (Done ℤ)} {n : ℕ}
    (hstep : dynstringStep A op s = r.map (Done.observe .code)) (hs : Refines s t)
    (hret : ∀ h, Returns h t op (.code 0)) (hn : n ≤ s.ctx.size + op.growth)
    (hone : 0 < op.requests)
    (hspec : AllOrNothing A n s.heap s.ctx (byteStringEffect t op) r) : Performs A op s t := by
  apply performs_of_code hstep hs hret
  apply hspec.imp_right
  rintro ⟨he, hg⟩
  exact ⟨s.ctx, s.heap.refuse, he, refusals_refuse_ne, not_granted hg hn hone⟩

/-- A fresh context without a buffer stands for no bytes. -/
theorem refines_zero (h : Heap UInt8) : Refines ⟨{ buf := none, size := 0, pos := 0 }, h⟩ [] :=
  ⟨⟨rfl, le_rfl, Nat.zero_le _, [], Heap.holds_none.mpr rfl, rfl, rfl⟩, by simp [Proper]⟩

/-- `dynstring_getcstring` keeps the bytes. -/
theorem performs_getcstring (hs : Refines s t) : Performs A .getcstring s t := by
  obtain ⟨hr, hp⟩ := hs
  rcases getcstring_spec (A := A) hr with ⟨ctx', h', he, hsucc⟩ | ⟨he, -, hg⟩
  · exact performs_quietly (.pointer s.ctx.buf) ⟨ctx', h'⟩ (by rw [dynstringStep, he]; rfl)
      hsucc.refusals ⟨hsucc.represents, hsucc.proper hp⟩ ⟨_, rfl⟩
  · exact performs_refused (.pointer s.ctx.buf) ⟨_, s.heap.refuse⟩
      (by rw [dynstringStep, he]; rfl) refusals_refuse_ne (not_granted hg le_rfl Nat.one_pos)

/-- `dynstring_detachcstring` hands the bytes over. -/
theorem performs_detachcstring (hs : Refines s t) : Performs A .detachcstring s t := by
  obtain ⟨p, h', hd, hterm, hquiet⟩ := detachcstring_spec (A := A) hs.1
  refine ⟨.pointer p, ⟨_, h'⟩, by rw [dynstringStep, hd]; rfl,
    fun hgranted => hquiet hgranted.2 hgranted.1, ?_⟩
  intro href
  obtain ⟨b, hb, hbytes⟩ := hterm href
  exact ⟨refines_zero h', b, congrArg DynstringOut.pointer hb, hbytes⟩

/-- Every call on a context that represents `t`. -/
theorem step_spec (hs : Refines s t) (op : DynstringOp) : Performs A op s t := by
  cases op with
  | appendchar c =>
      exact performs_of_allOrNothing rfl hs (fun _ => rfl) le_rfl Nat.one_pos
        (appendchar_spec hs.1 c)
  | appendstring str =>
      exact performs_of_allOrNothing rfl hs (fun _ => rfl) le_rfl Nat.one_pos
        (appendstring_allOrNothing hs.1 str.length_le)
  | appendstringz junk str strs =>
      refine performs_of_code rfl hs (fun _ => rfl) ?_
      rcases appendstringzVa_spec (A := A) (str :: strs) junk hs.1 with
        ⟨c, h', he, hsucc, -⟩ | ⟨c, h', k, -, he, hsucc, hnot⟩
      · exact Or.inl ⟨c, h', he, hsucc⟩
      · refine Or.inr ⟨_, _, he, ?_, fun hgranted => hnot hgranted.2 hgranted.1⟩
        rw [← hsucc.refusals]
        exact refusals_refuse_ne
  | empty =>
      obtain ⟨c, h', he, hsucc⟩ := empty_spec hs.1 hs.2
      exact performs_quietly .nothing ⟨c, h'⟩ (by rw [dynstringStep, he]; rfl) hsucc.refusals
        ⟨hsucc.represents, hsucc.proper hs.2⟩ rfl
  | compact =>
      exact performs_of_allOrNothing rfl hs (fun _ => rfl) (Nat.add_le_add_right hs.1.pos_le 1)
        Nat.one_pos (compact_spec hs.1)
  | getcstring => exact performs_getcstring hs
  | detachcstring => exact performs_detachcstring hs
  | free =>
      obtain ⟨h', he, hsucc⟩ := free_spec hs.1
      exact performs_quietly .nothing ⟨_, h'⟩ (by rw [dynstringStep, he]; rfl) hsucc.refusals
        (refines_zero h') rfl

/-- A context that was just initialised holds no bytes. -/
theorem refines_of_initialised (hs : Initialised A s) : Refines s [] := by
  rcases hs with ⟨h, he⟩ | ⟨junk, n, h, hn, he⟩
  · simp only [dynstringInitialisezero, Done.mk.injEq, true_and] at he
    obtain ⟨hc, hh⟩ := he
    have : s = ⟨{ buf := none, size := 0, pos := 0 }, h⟩ := by
      rw [hc, hh]
    rw [this]
    exact refines_zero h
  · obtain ⟨hr, hsize, hbuf⟩ := represents_of_initialise he
    constructor
    · exact hr
    · -- A block of at least one byte is neither `NULL` nor empty.
      simp only [Proper, hbuf, false_iff]
      omega

/-- Every call does to the bytes what the byte string does. -/
theorem dynstring_simulates (A : Allocator UInt8) :
    Transition.Simulation (dynstringSystem A) byteString Refines := by
  constructor
  · intro s hs
    exact ⟨[], rfl, refines_of_initialised hs⟩
  · intro s t op s' hR hstep
    obtain ⟨out, he, href⟩ := hstep
    obtain ⟨out', s'', he', -, hperf⟩ := step_spec (A := A) hR op
    rw [he] at he'
    cases he'
    exact ⟨byteStringEffect t op, rfl, (hperf href).1⟩

/-- After every run the buffer holds the byte string of its calls. -/
theorem refines_of_reach {ops : List DynstringOp} (hs : (dynstringSystem A).Reach ops s) :
    Refines s (byteStringAfter ops) := by
  obtain ⟨t, ht, hR⟩ := (dynstring_simulates A).reach hs
  rw [byteStringAfter, ← Transition.reach_ofEffect ht]
  exact hR

/-- **The dynstring refines a list of bytes.**  After any calls on a fresh context
during which every allocation succeeded, the context represents the abstract bytes
and its buffer is `NULL` exactly at size 0; and the next call, whichever it is, makes
no access outside the allocated buffer, returns what it should, and leaves a context
that represents the bytes after that call, unless a request is refused in it.  None is
when the allocator grants those of the call, which are at most `requests` for at most
`growth` bytes more than there are. -/
theorem dynstring_refines (A : Allocator UInt8) {ops : List DynstringOp} {s : DynstringState}
    (hs : (dynstringSystem A).Reach ops s) :
    Represents s.heap s.ctx (byteStringAfter ops) ∧ Proper s.ctx ∧
    ∀ op, ∃ out s', dynstringStep A op s = .ok (out, s') ∧
      (Granted A op s → s'.heap.refusals = s.heap.refusals) ∧
      (s'.heap.refusals = s.heap.refusals →
        Represents s'.heap s'.ctx (byteStringAfter (ops ++ [op])) ∧ Proper s'.ctx ∧
        Returns s'.heap (byteStringAfter ops) op out) := by
  have hR := refines_of_reach hs
  refine ⟨hR.1, hR.2, fun op => ?_⟩
  obtain ⟨out, s', he, hquiet, hperf⟩ := step_spec (A := A) hR op
  refine ⟨out, s', he, hquiet, fun href => ?_⟩
  obtain ⟨⟨hr, hp⟩, hret⟩ := hperf href
  have hafter : byteStringAfter (ops ++ [op]) = byteStringEffect (byteStringAfter ops) op := by
    rw [byteStringAfter, List.foldl_append]
    rfl
  exact ⟨hafter ▸ hr, hp, hret⟩

/-- A context initialised with size `n` under an allocator that moves blocks, and the
same after one byte: full if `n` is 1. -/
def freshState (n : ℕ) : DynstringState :=
  let r := dynstringInitialise (generous true 7) ⟨none, 0, 0⟩ n Heap.empty
  ⟨r.ctx, r.heap⟩

def oneByteState (n : ℕ) : DynstringState :=
  match dynstringStep (generous true 7) (.appendchar 65) (freshState n) with
  | .ok (_, s) => s
  | .error _ => freshState n

/-- The state that the calls `ops` lead to, up to the first that faults. -/
def stateAfter (A : Allocator UInt8) : List DynstringOp → DynstringState → DynstringState
  | [], s => s
  | op :: ops, s =>
    match dynstringStep A op s with
    | .ok (_, s') => stateAfter A ops s'
    | .error _ => s

/-- Two characters, of which the second makes the buffer grow from 1 byte to 65, the cut to
3, the handing over, and a string in a new buffer. -/
def reuseCalls : List DynstringOp :=
  [.appendchar 65, .appendchar 66, .compact, .detachcstring, .appendstring ⟨[67, 68], by decide⟩]

/-- The state those calls lead to, and what any further call does in it: the allocator grants
everything, so the only limit is that of the size. -/
theorem dynstring_refines_reused :
    let s := stateAfter (generous true 7) reuseCalls (freshState 1)
    (dynstringSystem (generous true 7)).Reach reuseCalls s ∧ s.ctx.size = 2 ∧
    Represents s.heap s.ctx [67, 68] ∧ Proper s.ctx ∧
    ∀ op, op.growth < ptrdiffMax - 2 → ∃ out s', dynstringStep (generous true 7) op s =
        .ok (out, s') ∧
      Represents s'.heap s'.ctx (byteStringEffect [67, 68] op) ∧ Proper s'.ctx ∧
      Returns s'.heap [67, 68] op out := by
  intro s
  have hstart : (dynstringSystem (generous true 7)).Reach [] (freshState 1) :=
    .start (Or.inr ⟨⟨none, 0, 0⟩, 1, Heap.empty, le_rfl, rfl⟩)
  have hone : (dynstringSystem (generous true 7)).Reach (reuseCalls.take 1)
      (stateAfter (generous true 7) (reuseCalls.take 1) (freshState 1)) :=
    hstart.step ⟨.code 0, rfl, rfl⟩
  have htwo : (dynstringSystem (generous true 7)).Reach (reuseCalls.take 2)
      (stateAfter (generous true 7) (reuseCalls.take 2) (freshState 1)) :=
    hone.step ⟨.code 0, rfl, rfl⟩
  have hthree : (dynstringSystem (generous true 7)).Reach (reuseCalls.take 3)
      (stateAfter (generous true 7) (reuseCalls.take 3) (freshState 1)) :=
    htwo.step ⟨.code 0, rfl, rfl⟩
  have hfour : (dynstringSystem (generous true 7)).Reach (reuseCalls.take 4)
      (stateAfter (generous true 7) (reuseCalls.take 4) (freshState 1)) :=
    hthree.step ⟨.pointer (some 3), rfl, rfl⟩
  have hreach : (dynstringSystem (generous true 7)).Reach reuseCalls s :=
    hfour.step ⟨.code 0, rfl, rfl⟩
  obtain ⟨hr, hp, hnext⟩ := dynstring_refines (generous true 7) hreach
  refine ⟨hreach, rfl, hr, hp, fun op hop => ?_⟩
  obtain ⟨out, s', he, hquiet, hdone⟩ := hnext op
  refine ⟨out, s', he, hdone (hquiet ⟨Heap.grantsNext_generous _ _ _ _, ?_⟩)⟩
  have hsize : s.ctx.size = 2 := rfl
  omega

/-! ## The pointer `dynstring_getcstring` returns -/

/-- What a caller of `dynstring_getcstring` is to get when the context stands for `t`:
the buffer the context has after the call, holding `t` and a NUL, and a context that
still stands for `t`. -/
def LiveCString (t : List UInt8) (p : Ptr) (s' : DynstringState) : Prop :=
  p = s'.ctx.buf ∧ (∃ b, p = some b ∧ Terminated s'.heap b t) ∧ Represents s'.heap s'.ctx t

/-- The state `dynstring_getcstring` leaves after the one byte, where `realloc` moves. -/
def cstringState (n : ℕ) : DynstringState :=
  match dynstringStep (generous true 7) .getcstring (oneByteState n) with
  | .ok (_, s) => s
  | .error _ => oneByteState n

/-- After any calls on a fresh context, if every allocation succeeded, a call of
`dynstring_getcstring` in which none fails, as when its request is granted, returns the live
string exactly when there is room for the NUL, or there is a buffer and `realloc` extends it
in place. -/
theorem getcstring_live_iff (A : Allocator UInt8) {ops : List DynstringOp}
    {s s' : DynstringState} {p : Ptr} (hs : (dynstringSystem A).Reach ops s)
    (hstep : dynstringStep A .getcstring s = .ok (.pointer p, s'))
    (halloc : s'.heap.refusals = s.heap.refusals ∨ Granted A .getcstring s) :
    LiveCString (byteStringAfter ops) p s' ↔
      s.ctx.pos < s.ctx.size ∨ s.ctx.buf ≠ none ∧ (A s.heap.requests).moved = false := by
  obtain ⟨hr, -⟩ := refines_of_reach hs
  cases Nat.lt_or_ge s.ctx.pos s.ctx.size with
  | inl hroom =>
      obtain ⟨b, h', hb, he, hsucc, hterm, -⟩ := getcstring_room (A := A) hr hroom
      rw [dynstringStep, he] at hstep
      cases hstep
      refine iff_of_true ⟨rfl, ⟨b, hb, hterm⟩, hsucc.represents⟩ (Or.inl hroom)
  | inr hfull =>
      cases hg : s.heap.grants A (s.ctx.size + 64) with
      | false =>
          rw [dynstringStep, getcstring_refused hr hfull hg] at hstep
          cases hstep
          have hnot : ¬ Granted A .getcstring s := not_granted hg le_rfl Nat.one_pos
          exact absurd halloc (not_or.mpr ⟨refusals_refuse_ne, hnot⟩)
      | true =>
          obtain ⟨b, h', he, hsucc, hterm, hsame⟩ := getcstring_granted hr hfull hg
          rw [dynstringStep, he] at hstep
          cases hstep
          have hnoroom : ¬ s.ctx.pos < s.ctx.size := Nat.not_lt.mpr hfull
          rw [or_iff_right hnoroom, ← hsame]
          constructor
          · intro hlive
            exact hlive.1.symm
          · intro hb
            exact ⟨hb.symm, ⟨b, hb.symm, hterm⟩, hsucc.represents⟩

/-- A context of size 1 that is full after one byte, where `realloc` extends in place: the
string is in the block the context had. -/
theorem getcstring_live_in_place :
    let A : Allocator UInt8 := generous false 7
    let s := stateAfter A [.appendchar 65] (freshState 1)
    let s' := stateAfter A [.appendchar 65, .getcstring] (freshState 1)
    (dynstringSystem A).Reach [.appendchar 65] s ∧ s.ctx.pos = 1 ∧ s.ctx.size = 1 ∧
    dynstringStep A .getcstring s = .ok (.pointer (some 0), s') ∧ s'.ctx.size = 65 ∧
    LiveCString [65] (some 0) s' := by
  intro A s s'
  have hstart : (dynstringSystem A).Reach [] (freshState 1) :=
    .start (Or.inr ⟨⟨none, 0, 0⟩, 1, Heap.empty, le_rfl, rfl⟩)
  have hreach : (dynstringSystem A).Reach [.appendchar 65] s := hstart.step ⟨.code 0, rfl, rfl⟩
  have hsize : s.ctx.size = 1 := rfl
  have hgranted : Granted A .getcstring s := by
    refine ⟨Heap.grantsNext_generous _ _ _ _, ?_⟩
    rw [hsize]
    decide
  refine ⟨hreach, rfl, hsize, rfl, rfl, ?_⟩
  have hbuf : s.ctx.buf ≠ none := Option.some_ne_none 0
  exact (getcstring_live_iff A hreach rfl (Or.inr hgranted)).mpr (Or.inr ⟨hbuf, rfl⟩)

/-- A context of size 1 is full after one byte: with a `realloc` that moves the block,
`dynstring_getcstring` returns block 0, released, and the string is in block 1. -/
theorem getcstring_returns_released :
    (dynstringSystem (generous true 7)).Reach [.appendchar 65] (oneByteState 1) ∧
    dynstringStep (generous true 7) .getcstring (oneByteState 1) =
      .ok (.pointer (some 0), cstringState 1) ∧
    (cstringState 1).heap.refusals = (oneByteState 1).heap.refusals ∧
    (cstringState 1).ctx.buf = some 1 ∧ (cstringState 1).heap.blocks 0 = none ∧
    ¬ LiveCString (byteStringAfter [.appendchar 65]) (some 0) (cstringState 1) := by
  have hstart : (dynstringSystem (generous true 7)).Reach [] (freshState 1) :=
    .start (Or.inr ⟨⟨none, 0, 0⟩, 1, Heap.empty, le_rfl, rfl⟩)
  refine ⟨hstart.step ⟨.code 0, rfl, rfl⟩, rfl, rfl, rfl, rfl, ?_⟩
  rintro ⟨hbuf, -⟩
  exact absurd hbuf (by decide)

end AzureMetadata.Analysis
