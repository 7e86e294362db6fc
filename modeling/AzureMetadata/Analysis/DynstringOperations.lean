import AzureMetadata.Interface.ByteString

/-!
# What each dynstring operation does

One specification for each function of `Model.Dynstring`, from any context that
represents some bytes and for any allocator.  An operation that allocates has two
outcomes: it succeeds, or its request is refused and the context is as it was.  Both
are built from two facts about the heap: growing the buffer keeps the bytes
(`grow_granted`), and a write at `pos` appends (`store_represents`).
-/

set_option autoImplicit false

namespace AzureMetadata.Analysis

open Clib AzureMetadata.Model AzureMetadata.Interface

variable {A : Allocator UInt8} {h h' : Heap UInt8} {ctx ctx' : DynstringContext}
  {t t' : List UInt8}

/-- A call has succeeded: the context now represents `t'`, only its own block was
touched, and no request was refused. -/
structure Succeeds (h : Heap UInt8) (ctx ctx' : DynstringContext) (t' : List UInt8)
    (h' : Heap UInt8) : Prop where
  represents : Represents h' ctx' t'
  evolves : Heap.Evolves ctx.buf ctx'.buf h h'
  refusals : h'.refusals = h.refusals
  proper : Proper ctx → Proper ctx'

/-- What `r` returns: 0 with the context standing for `t'`, or -1 after the one request it
makes, for `n` bytes, was refused, and then nothing has changed. -/
def AllOrNothing (A : Allocator UInt8) (n : ℕ) (h : Heap UInt8) (ctx : DynstringContext)
    (t' : List UInt8) (r : Except Fault (Done ℤ)) : Prop :=
  (∃ ctx' h', r = .ok ⟨0, ctx', h'⟩ ∧ Succeeds h ctx ctx' t' h') ∨
    r = .ok ⟨-1, ctx, h.refuse⟩ ∧ h.grants A n = false

/-- The step in which the buffer grows for a character is a size. -/
theorem sixtyFour_le : 64 ≤ ptrdiffMax + 1 := by
  unfold ptrdiffMax
  omega

/-- The sum of the length and a size does not wrap. -/
theorem sizeAdd_pos (hr : Represents h ctx t) {n : ℕ} (hn : n ≤ ptrdiffMax + 1) :
    sizeAdd ctx.pos n = ctx.pos + n := sizeAdd_eq (hr.pos_le.trans hr.size_le) hn

/-- Nor does the sum of the capacity and a size. -/
theorem sizeAdd_size (hr : Represents h ctx t) {n : ℕ} (hn : n ≤ ptrdiffMax + 1) :
    sizeAdd ctx.size n = ctx.size + n := sizeAdd_eq hr.size_le hn

/-! ## The two facts about the buffer -/

/-- A capacity that is not 0 is that of a block. -/
theorem represents_buf_some (hr : Represents h ctx t) (hpos : 0 < ctx.size) :
    ∃ b, ctx.buf = some b := by
  obtain ⟨cells, hh, hlen, -⟩ := hr.buffer
  cases hb : ctx.buf with
  | none =>
      rw [hb, Heap.holds_none] at hh
      subst hh
      simp only [List.length_nil] at hlen
      omega
  | some b => exact ⟨b, rfl⟩

/-- Without a buffer there are no bytes. -/
theorem represents_none (hr : Represents h ctx t) (hnone : ctx.buf = none) :
    ctx.pos = 0 ∧ t = [] := by
  have hsize : ¬ 0 < ctx.size := by
    intro hpos
    obtain ⟨b, hb⟩ := represents_buf_some hr hpos
    rw [hnone] at hb
    cases hb
  have hpos : ctx.pos = 0 := by
    have hle := hr.pos_le
    omega
  have hlen := hr.pos_eq
  rw [hpos] at hlen
  exact ⟨hpos, List.length_eq_zero_iff.mp hlen.symm⟩

/-- A granted `realloc` to a size that still holds the bytes keeps them. -/
theorem grow_granted (hr : Represents h ctx t) {n : ℕ} (hn : n ≠ 0) (hpos : ctx.pos ≤ n)
    (hg : h.grants A n = true) :
    ∃ b h', h.realloc A ctx.buf n = .ok (some b, h') ∧
      Succeeds h ctx { ctx with buf := some b, size := n } t h' ∧
      h'.requests = h.requests + 1 ∧
      (some b = ctx.buf ↔ ctx.buf ≠ none ∧ (A h.requests).moved = false) := by
  obtain ⟨cells, hh, hlen, htake⟩ := hr.buffer
  obtain ⟨b, cells', h', he, hh', hlen', hkeep, hev, hreq, href, hsame⟩ :=
    Heap.realloc_granted hh hn hg
  have htake' : cells'.take ctx.pos = t := by
    rw [hkeep ctx.pos (by rw [hlen]; exact hr.pos_le) hpos, htake]
  refine ⟨b, h', he, ⟨⟨hr.pos_eq, hpos, Heap.le_ptrdiffMax_of_grants hg, cells', hh', hlen',
    htake'⟩, hev, href, ?_⟩, hreq, hsame⟩
  intro _
  simp [Proper, hn]

/-- A refused `realloc` of the buffer leaves it. -/
theorem grow_refused (hr : Represents h ctx t) {n : ℕ} (hn : n ≠ 0)
    (hg : h.grants A n = false) : h.realloc A ctx.buf n = .ok (none, h.refuse) := by
  obtain ⟨cells, hh, -, -⟩ := hr.buffer
  exact Heap.realloc_refused hh hn hg

/-- So the buffer holds its bytes after a refusal. -/
theorem represents_refuse (hr : Represents h ctx t) : Represents h.refuse ctx t := by
  obtain ⟨cells, hh, hlen, htake⟩ := hr.buffer
  exact ⟨hr.pos_eq, hr.pos_le, hr.size_le, cells, Heap.refuse_holds.mpr hh, hlen, htake⟩

/-- A write at `pos` that stays below `size` appends. -/
theorem store_represents (hr : Represents h ctx t) {src : List UInt8} (hsrc : src ≠ [])
    (hroom : ctx.pos + src.length ≤ ctx.size) :
    ∃ h', h.write ctx.buf ctx.pos src = .ok h' ∧
      Succeeds h ctx { ctx with pos := ctx.pos + src.length } (t ++ src) h' ∧
      h'.requests = h.requests := by
  have hlen0 := List.length_pos_of_ne_nil hsrc
  obtain ⟨b, hb⟩ := represents_buf_some hr (by omega)
  obtain ⟨cells, hh, hlen, htake⟩ := hr.buffer
  rw [hb] at hh
  obtain ⟨h', hw, hh', hev, hreq, href⟩ :=
    Heap.write_ok ctx.pos src hh (by omega)
  have hlen' : (overwrite cells ctx.pos src).length = ctx.size := by
    rw [length_overwrite (by omega), hlen]
  have htake' : (overwrite cells ctx.pos src).take (ctx.pos + src.length) = t ++ src := by
    rw [take_overwrite_end src (by omega), htake]
  refine ⟨h', by rw [hb, hw], ⟨⟨?_, hroom, hr.size_le, ⟨_, by rw [hb]; exact hh', hlen', htake'⟩⟩,
    by rw [hb]; exact hev, href, fun hp => hp⟩, hreq⟩
  rw [hr.pos_eq, List.length_append]

/-- An operation on another block leaves the context representing what it did. -/
theorem represents_frame {p q : Ptr} (hr : Represents h ctx t) (he : Heap.Evolves p q h h')
    (hap : Heap.Apart ctx.buf p) : Represents h' ctx t := by
  obtain ⟨cells, hh, hlen, htake⟩ := hr.buffer
  exact ⟨hr.pos_eq, hr.pos_le, hr.size_le, cells, he.frame hap hh, hlen, htake⟩

/-- A buffer apart from the block of a call is apart from the new one as well. -/
theorem represents_apart {p q : Ptr} (hr : Represents h ctx t) (he : Heap.Evolves p q h h')
    (hap : Heap.Apart ctx.buf p) : Heap.Apart ctx.buf q := by
  obtain ⟨cells, hh, -⟩ := hr.buffer
  exact he.apart hap hh

/-- No block represents the empty byte string. -/
theorem represents_null (h : Heap UInt8) :
    Represents h { buf := none, size := 0, pos := 0 } [] :=
  ⟨rfl, le_rfl, Nat.zero_le _, [], rfl, rfl, rfl⟩

/-- A context with the same buffer and a smaller `pos` represents the first bytes. -/
theorem represents_shorten {u : List UInt8} (hr : Represents h ctx (t ++ u))
    (hbuf : ctx'.buf = ctx.buf) (hsize : ctx'.size = ctx.size) (hpos : ctx'.pos = t.length) :
    Represents h ctx' t := by
  obtain ⟨cells, hh, hlen, htake⟩ := hr.buffer
  have hle := hr.pos_le
  have heq := hr.pos_eq
  rw [List.length_append] at heq
  refine ⟨hpos, by omega, hsize ▸ hr.size_le, cells, hbuf ▸ hh, hlen.trans hsize.symm, ?_⟩
  have hmin : cells.take ctx'.pos = (cells.take ctx.pos).take ctx'.pos := by
    rw [List.take_take, Nat.min_eq_left (by omega)]
  rw [hmin, htake, hpos, List.take_left]

/-- To do nothing succeeds. -/
theorem Succeeds.refl (hr : Represents h ctx t) : Succeeds h ctx ctx t h :=
  ⟨hr, Heap.Evolves.refl _ _, rfl, fun hp => hp⟩

/-- Two calls that succeed are one that does. -/
theorem Succeeds.trans {h'' : Heap UInt8} {ctx'' : DynstringContext}
    {t'' : List UInt8} (hs : Succeeds h ctx ctx' t' h') (hs' : Succeeds h' ctx' ctx'' t'' h'') :
    Succeeds h ctx ctx'' t'' h'' :=
  ⟨hs'.represents, hs.evolves.trans hs'.evolves, hs'.refusals.trans hs.refusals,
    fun hp => hs'.proper (hs.proper hp)⟩

/-- `dynstring_initialise` (dynstring.h:32-40): an empty context in a new block, or a
refused request and a context whose `buf` is `NULL`. -/
theorem initialise_spec (A : Allocator UInt8) (junk : DynstringContext) (n : ℕ)
    (h : Heap UInt8) :
    (∃ b h', dynstringInitialise A junk n h = ⟨0, { buf := some b, size := n, pos := 0 }, h'⟩ ∧
      Represents h' { buf := some b, size := n, pos := 0 } [] ∧
      Heap.Evolves none (some b) h h' ∧ Heap.Costs A 1 h h' ∧ h'.refusals = h.refusals) ∨
    (dynstringInitialise A junk n h = ⟨-1, { junk with buf := none }, h.refuse⟩ ∧
      h.grants A n = false) := by
  cases hg : h.grants A n with
  | false => exact Or.inr ⟨by rw [dynstringInitialise, Heap.malloc_refused hg], rfl⟩
  | true =>
      obtain ⟨b, cells, h', hm, hh, hlen, hev, hreq, href⟩ := Heap.malloc_granted hg
      refine Or.inl ⟨b, h', by rw [dynstringInitialise, hm], ?_, hev, Heap.costs_one hg hreq, href⟩
      exact ⟨rfl, Nat.zero_le _, Heap.le_ptrdiffMax_of_grants hg, cells, hh, hlen, rfl⟩

/-- What a successful `dynstring_initialise` leaves. -/
theorem represents_of_initialise {junk : DynstringContext} {n : ℕ} {h₀ : Heap UInt8}
    (hi : dynstringInitialise A junk n h₀ = ⟨0, ctx, h⟩) :
    Represents h ctx [] ∧ ctx.size = n ∧ ctx.buf ≠ none := by
  rcases initialise_spec A junk n h₀ with ⟨b, h', he, hr, -⟩ | ⟨he, -⟩
  · rw [he, Done.mk.injEq] at hi
    obtain ⟨-, rfl, rfl⟩ := hi
    exact ⟨hr, rfl, Option.some_ne_none b⟩
  · rw [he, Done.mk.injEq] at hi
    exact absurd hi.1 (by decide)

/-! ## Appending -/

/-- `dynstring_appendchar` with room (dynstring.h:51-52). -/
theorem appendchar_room (hr : Represents h ctx t) (hroom : ctx.pos < ctx.size) (c : ℤ) :
    ∃ h', dynstringAppendchar A ctx c h = .ok ⟨0, { ctx with pos := ctx.pos + 1 }, h'⟩ ∧
      Succeeds h ctx { ctx with pos := ctx.pos + 1 } (t ++ [toChar c]) h' ∧
      h'.requests = h.requests := by
  obtain ⟨h', hw, hs, hreq⟩ := store_represents hr (List.cons_ne_nil (toChar c) []) hroom
  have hpos := sizeAdd_pos hr (n := 1) (by omega)
  refine ⟨h', ?_, hs, hreq⟩
  simp [dynstringAppendchar, Nat.not_le.mpr hroom, hw, hpos]

/-- `dynstring_appendchar` on a full buffer, its request granted (lines 43-52). -/
theorem appendchar_granted (hr : Represents h ctx t) (hfull : ctx.size ≤ ctx.pos) (c : ℤ)
    (hg : h.grants A (ctx.size + 64) = true) :
    ∃ b h', dynstringAppendchar A ctx c h =
        .ok ⟨0, { buf := some b, size := ctx.size + 64, pos := ctx.pos + 1 }, h'⟩ ∧
      Succeeds h ctx { buf := some b, size := ctx.size + 64, pos := ctx.pos + 1 }
        (t ++ [toChar c]) h' ∧
      h'.requests = h.requests + 1 ∧
      (some b = ctx.buf ↔ ctx.buf ≠ none ∧ (A h.requests).moved = false) := by
  have hpos := hr.pos_le
  have hsize := sizeAdd_size hr sixtyFour_le
  have hnext := sizeAdd_pos hr (n := 1) (by omega)
  obtain ⟨b, h₁, hre, hs₁, hreq₁, hsame⟩ :=
    grow_granted hr (n := ctx.size + 64) (by omega) (by omega) hg
  obtain ⟨h', hw, hs, hreq⟩ := store_represents hs₁.represents (List.cons_ne_nil (toChar c) [])
    (show ctx.pos + 1 ≤ ctx.size + 64 by omega)
  refine ⟨b, h', ?_, hs₁.trans hs, hreq.trans hreq₁, hsame⟩
  simp only at hw
  simp [dynstringAppendchar, hfull, hsize, hre, hw, hnext]

/-- `dynstring_appendchar` on a full buffer, its request refused (lines 45-47). -/
theorem appendchar_refused (hr : Represents h ctx t) (hfull : ctx.size ≤ ctx.pos) (c : ℤ)
    (hg : h.grants A (ctx.size + 64) = false) :
    dynstringAppendchar A ctx c h = .ok ⟨-1, ctx, h.refuse⟩ := by
  have hsize := sizeAdd_size hr sixtyFour_le
  have hre := grow_refused hr (n := ctx.size + 64) (by omega) hg
  simp [dynstringAppendchar, hfull, hsize, hre]

/-- `dynstring_appendchar` (lines 42-53): it asks for 64 bytes more at most. -/
theorem appendchar_spec (hr : Represents h ctx t) (c : ℤ) :
    AllOrNothing A (ctx.size + 64) h ctx (t ++ [toChar c]) (dynstringAppendchar A ctx c h) := by
  cases Nat.lt_or_ge ctx.pos ctx.size with
  | inl hroom =>
      obtain ⟨h', he, hs, -⟩ := appendchar_room (A := A) hr hroom c
      exact Or.inl ⟨_, h', he, hs⟩
  | inr hfull =>
      cases hg : h.grants A (ctx.size + 64) with
      | true =>
          obtain ⟨b, h', he, hs, -⟩ := appendchar_granted hr hfull c hg
          exact Or.inl ⟨_, h', he, hs⟩
      | false => exact Or.inr ⟨appendchar_refused hr hfull c hg, hg⟩

/-- The requests an append of `n` bytes makes: one unless there are no bytes, or there
is room for them and a NUL (lines 56-59). -/
def appendCost (pos size n : ℕ) : ℕ := if n = 0 ∨ n + pos < size then 0 else 1

/-- An append makes at most one request. -/
theorem appendCost_le_one (pos size n : ℕ) : appendCost pos size n ≤ 1 := by
  unfold appendCost
  split <;> decide

/-- It makes one where the bytes do not fit. -/
theorem appendCost_full {pos size n : ℕ} (hn : n ≠ 0) (hfull : size ≤ n + pos) :
    appendCost pos size n = 1 := if_neg (by omega)

/-- The room for a NUL is still there after an append. -/
theorem appendCost_room {pos size n : ℕ} (hlt : pos < size) :
    pos + n < size + appendCost pos size n * n := by
  unfold appendCost
  split <;> omega

/-- Bytes that fit are appended in place. -/
theorem appendstring_room (hr : Represents h ctx t) {str : List UInt8}
    (hroom : str.length = 0 ∨ str.length + ctx.pos < ctx.size) :
    ∃ h', dynstringAppendstring A ctx str h =
        .ok ⟨0, { ctx with pos := ctx.pos + str.length }, h'⟩ ∧
      Succeeds h ctx { ctx with pos := ctx.pos + str.length } (t ++ str) h' ∧
      h'.requests = h.requests := by
  by_cases hnil : str = []
  · subst hnil
    exact ⟨h, by simp [dynstringAppendstring], by simpa using Succeeds.refl hr, rfl⟩
  · have hlen := List.length_pos_of_ne_nil hnil
    have hlt := hroom.resolve_left (by omega)
    have hmax := hr.size_le
    have hneed : sizeAdd str.length ctx.pos = str.length + ctx.pos :=
      sizeAdd_eq (by omega) (by omega)
    have hnext := sizeAdd_pos hr (n := str.length) (by omega)
    obtain ⟨h', hw, hs, hreq⟩ := store_represents hr hnil (by omega)
    refine ⟨h', ?_, hs, hreq⟩
    simp [dynstringAppendstring, hnil, hneed, hlt, hw, hnext]

/-- Others are appended in a block grown by their length. -/
theorem appendstring_granted (hr : Represents h ctx t) {str : List UInt8} (hne : str ≠ [])
    (hstr : str.length ≤ ptrdiffMax) (hfull : ctx.size ≤ str.length + ctx.pos)
    (hg : h.grants A (ctx.size + str.length) = true) :
    ∃ b h', dynstringAppendstring A ctx str h = .ok ⟨0,
        { buf := some b, size := ctx.size + str.length, pos := ctx.pos + str.length }, h'⟩ ∧
      Succeeds h ctx
        { buf := some b, size := ctx.size + str.length, pos := ctx.pos + str.length }
        (t ++ str) h' ∧
      h'.requests = h.requests + 1 := by
  have hposle := hr.pos_le
  have hlen := List.length_pos_of_ne_nil hne
  have hposmax : ctx.pos ≤ ptrdiffMax := hposle.trans hr.size_le
  have hneed : sizeAdd str.length ctx.pos = str.length + ctx.pos :=
    sizeAdd_eq hstr (by omega)
  have hnext := sizeAdd_pos hr (n := str.length) (by omega)
  have hsize := sizeAdd_size hr (n := str.length) (by omega)
  obtain ⟨b, h₁, hre, hs₁, hreq₁, -⟩ :=
    grow_granted hr (n := ctx.size + str.length) (by omega) (by omega) hg
  obtain ⟨h', hw, hs, hreq⟩ := store_represents hs₁.represents hne
    (show ctx.pos + str.length ≤ ctx.size + str.length by omega)
  refine ⟨b, h', ?_, hs₁.trans hs, hreq.trans hreq₁⟩
  simp only at hw
  simp [dynstringAppendstring, hne, hneed, hfull, hsize, hre, hw, hnext]

/-- Or the append returns -1, with everything as it was. -/
theorem appendstring_refused (hr : Represents h ctx t) {str : List UInt8} (hne : str ≠ [])
    (hstr : str.length ≤ ptrdiffMax) (hfull : ctx.size ≤ str.length + ctx.pos)
    (hg : h.grants A (ctx.size + str.length) = false) :
    dynstringAppendstring A ctx str h = .ok ⟨-1, ctx, h.refuse⟩ := by
  have hposmax : ctx.pos ≤ ptrdiffMax := hr.pos_le.trans hr.size_le
  have hlen := List.length_pos_of_ne_nil hne
  have hneed : sizeAdd str.length ctx.pos = str.length + ctx.pos :=
    sizeAdd_eq hstr (by omega)
  have hsize := sizeAdd_size hr (n := str.length) (by omega)
  have hre := grow_refused hr (n := ctx.size + str.length) (by omega) hg
  simp [dynstringAppendstring, hne, hneed, hfull, hsize, hre]

/-- `dynstring_appendstring` (lines 55-70): the bytes are added, or the buffer was too
small and the request for their length more was refused. -/
theorem appendstring_spec (hr : Represents h ctx t) {str : List UInt8}
    (hstr : str.length ≤ ptrdiffMax) :
    (∃ ctx' h', dynstringAppendstring A ctx str h = .ok ⟨0, ctx', h'⟩ ∧
      Succeeds h ctx ctx' (t ++ str) h' ∧
      ctx'.size = ctx.size + appendCost ctx.pos ctx.size str.length * str.length ∧
      Heap.Costs A (appendCost ctx.pos ctx.size str.length) h h') ∨
    (dynstringAppendstring A ctx str h = .ok ⟨-1, ctx, h.refuse⟩ ∧ str ≠ [] ∧
      ctx.size ≤ str.length + ctx.pos ∧ h.grants A (ctx.size + str.length) = false) := by
  by_cases hroom : str.length = 0 ∨ str.length + ctx.pos < ctx.size
  · obtain ⟨h', he, hs, hreq⟩ := appendstring_room (A := A) hr hroom
    have hcost : appendCost ctx.pos ctx.size str.length = 0 := if_pos hroom
    refine Or.inl ⟨_, h', he, hs, ?_, ?_⟩
    · rw [hcost, Nat.zero_mul, Nat.add_zero]
    · rw [hcost]
      exact Heap.costs_zero hreq
  · obtain ⟨hlen, hnot⟩ := not_or.mp hroom
    have hne : str ≠ [] := fun hnil => hlen (by rw [hnil, List.length_nil])
    have hfull : ctx.size ≤ str.length + ctx.pos := Nat.le_of_not_lt hnot
    have hcost := appendCost_full hlen hfull
    cases hg : h.grants A (ctx.size + str.length) with
    | true =>
        obtain ⟨b, h', he, hs, hreq⟩ := appendstring_granted hr hne hstr hfull hg
        refine Or.inl ⟨_, h', he, hs, ?_, ?_⟩
        · rw [hcost, Nat.one_mul]
        · rw [hcost]
          exact Heap.costs_one hg hreq
    | false => exact Or.inr ⟨appendstring_refused hr hne hstr hfull hg, hne, hfull, rfl⟩

/-- So it does all or nothing. -/
theorem appendstring_allOrNothing (hr : Represents h ctx t) {str : List UInt8}
    (hstr : str.length ≤ ptrdiffMax) :
    AllOrNothing A (ctx.size + str.length) h ctx (t ++ str)
      (dynstringAppendstring A ctx str h) := by
  rcases appendstring_spec (A := A) hr hstr with ⟨ctx', h', he, hs, -⟩ | ⟨he, -, -, hg⟩
  · exact Or.inl ⟨ctx', h', he, hs⟩
  · exact Or.inr ⟨he, hg⟩

/-- Room for the NUL is kept by an append. -/
theorem room_of_append {str : List UInt8} (hr : Represents h ctx t)
    (hr' : Represents h' ctx' (t ++ str))
    (hsize : ctx'.size = ctx.size + appendCost ctx.pos ctx.size str.length * str.length)
    (hroom : ctx.pos < ctx.size) : ctx'.pos < ctx'.size := by
  have hpos : ctx'.pos = ctx.pos + str.length := by
    rw [hr'.pos_eq, List.length_append, hr.pos_eq]
  rw [hpos, hsize]
  exact appendCost_room hroom

/-- The strings are appended one after the other, and each call returns 0. -/
inductive Appended (A : Allocator UInt8) :
    DynstringContext → Heap UInt8 → List CString → DynstringContext → Heap UInt8 → Prop
  | nil {ctx : DynstringContext} {h : Heap UInt8} : Appended A ctx h [] ctx h
  | cons {ctx ctx₁ ctx' : DynstringContext} {h h₁ h' : Heap UInt8} {str : CString}
      {strs : List CString} (first : dynstringAppendstring A ctx str.bytes h = .ok ⟨0, ctx₁, h₁⟩)
      (rest : Appended A ctx₁ h₁ strs ctx' h') : Appended A ctx h (str :: strs) ctx' h'

/-- The bytes of all the strings are added, and room for a NUL stays. -/
theorem Appended.succeeds {strs : List CString} (happended : Appended A ctx h strs ctx' h')
    (hr : Represents h ctx t) :
    Succeeds h ctx ctx' (t ++ strs.flatMap CString.bytes) h' ∧
      (ctx.pos < ctx.size → ctx'.pos < ctx'.size) := by
  induction happended generalizing t with
  | nil =>
      rw [List.flatMap_nil, List.append_nil]
      exact ⟨Succeeds.refl hr, fun hroom => hroom⟩
  | @cons ctx ctx₁ ctx' h h₁ h' str strs first rest ih =>
      rcases appendstring_spec (A := A) hr str.length_lt.le with
        ⟨ctx₂, h₂, he, hs₁, hsize₁, -⟩ | ⟨he, -⟩
      · rw [first] at he
        cases he
        obtain ⟨hs', hroom'⟩ := ih hs₁.represents
        rw [List.flatMap_cons, ← List.append_assoc]
        exact ⟨hs₁.trans hs', fun hroom => hroom' (room_of_append hr hs₁.represents hsize₁ hroom)⟩
      · rw [first] at he
        cases he

/-- The buffer has grown by at most the bytes of the strings, with one request for each
string at most. -/
theorem Appended.costs {strs : List CString} (happended : Appended A ctx h strs ctx' h')
    (hr : Represents h ctx t) :
    ctx'.size ≤ ctx.size + (strs.flatMap CString.bytes).length ∧
      ∃ k ≤ strs.length, h'.requests = h.requests + k := by
  induction happended generalizing t with
  | nil => exact ⟨Nat.le_add_right _ _, 0, le_rfl, rfl⟩
  | @cons ctx ctx₁ ctx' h h₁ h' str strs first rest ih =>
      rcases appendstring_spec (A := A) hr str.length_lt.le with
        ⟨ctx₂, h₂, he, hs₁, hsize₁, hcost₁⟩ | ⟨he, -⟩
      · rw [first] at he
        cases he
        obtain ⟨hsize', k, hk, hreq'⟩ := ih hs₁.represents
        have hone := appendCost_le_one ctx.pos ctx.size str.bytes.length
        have hgrown : appendCost ctx.pos ctx.size str.bytes.length * str.bytes.length ≤
            1 * str.bytes.length := Nat.mul_le_mul_right _ hone
        constructor
        · rw [List.flatMap_cons, List.length_append]
          omega
        · refine ⟨appendCost ctx.pos ctx.size str.bytes.length + k, ?_, ?_⟩
          · rw [List.length_cons]
            omega
          · rw [hreq', hcost₁.requests, Nat.add_assoc]
      · rw [first] at he
        cases he

/-- The loop of lines 77-82 ends after the last string, or at the first one whose append
fails. -/
theorem appendstringzVa_stops (args : List CString) {ctx : DynstringContext} {t : List UInt8}
    {h : Heap UInt8} (rc : ℤ) (hr : Represents h ctx t) :
    (∃ ctx' h', Appended A ctx h args ctx' h' ∧ dynstringAppendstringzVa A ctx rc args h =
        .ok ⟨if args = [] then rc else 0, ctx', h'⟩) ∨
    (∃ before str after ctx' h', args = before ++ str :: after ∧
      Appended A ctx h before ctx' h' ∧ str.bytes ≠ [] ∧
      h'.grants A (ctx'.size + str.bytes.length) = false ∧
      dynstringAppendstring A ctx' str.bytes h' = .ok ⟨-1, ctx', h'.refuse⟩ ∧
      dynstringAppendstringzVa A ctx rc args h = .ok ⟨-1, ctx', h'.refuse⟩) := by
  induction args generalizing ctx t h rc with
  | nil => exact Or.inl ⟨ctx, h, .nil, rfl⟩
  | cons str args ih =>
      rcases appendstring_spec (A := A) hr str.length_lt.le with
        ⟨ctx₁, h₁, first, hs₁, -⟩ | ⟨refused, hne, -, hg⟩
      · have hnext : dynstringAppendstringzVa A ctx rc (str :: args) h =
            dynstringAppendstringzVa A ctx₁ 0 args h₁ := by
          simp [dynstringAppendstringzVa, first]
        rcases ih 0 hs₁.represents with
          ⟨ctx', h', rest, he⟩ |
          ⟨before, str', after, ctx', h', hsplit, rest, hne, hg, refused, he⟩
        · refine Or.inl ⟨ctx', h', .cons first rest, ?_⟩
          rw [hnext, he, ite_self, if_neg (List.cons_ne_nil str args)]
        · refine Or.inr ⟨str :: before, str', after, ctx', h', ?_, .cons first rest, hne, hg,
            refused, hnext.trans he⟩
          rw [hsplit, List.cons_append]
      · refine Or.inr ⟨[], str, args, ctx, h, rfl, .nil, hne, hg, refused, ?_⟩
        simp [dynstringAppendstringzVa, refused]

/-- `dynstring_appendstringz` (lines 72-93): all the strings are added, or those before
the one whose request was refused, which is not so when a request for each string is
granted.  The result is the uninitialised local's content exactly when there is no
string. -/
theorem appendstringzVa_spec (args : List CString) {ctx : DynstringContext} {t : List UInt8}
    {h : Heap UInt8} (rc : ℤ) (hr : Represents h ctx t) :
    (∃ ctx' h', dynstringAppendstringzVa A ctx rc args h =
        .ok ⟨if args = [] then rc else 0, ctx', h'⟩ ∧
      Succeeds h ctx ctx' (t ++ args.flatMap CString.bytes) h' ∧
      (ctx.pos < ctx.size → ctx'.pos < ctx'.size)) ∨
    (∃ ctx' h' k, k < args.length ∧ dynstringAppendstringzVa A ctx rc args h =
        .ok ⟨-1, ctx', h'.refuse⟩ ∧
      Succeeds h ctx ctx' (t ++ (args.take k).flatMap CString.bytes) h' ∧
      (ctx.size + (args.flatMap CString.bytes).length ≤ ptrdiffMax →
        ¬ h.GrantsNext A args.length)) := by
  rcases appendstringzVa_stops (A := A) args rc hr with
    ⟨ctx', h', happended, he⟩ | ⟨before, str, after, ctx', h', hsplit, happended, -, hg, -, he⟩
  · exact Or.inl ⟨ctx', h', he, happended.succeeds hr⟩
  · refine Or.inr ⟨ctx', h', before.length, ?_, he, ?_, ?_⟩
    · rw [hsplit, List.length_append, List.length_cons]
      omega
    · rw [hsplit, List.take_left]
      exact (happended.succeeds hr).1
    · intro hmax hnext
      obtain ⟨hsize, k, hk, hreq⟩ := happended.costs hr
      rw [hsplit, List.flatMap_append, List.flatMap_cons, List.length_append,
        List.length_append] at hmax
      -- The refused request is the one after the `k` requests of the strings before.
      have hlater : h.GrantsNext A (k + 1) := by
        apply hnext.mono
        rw [hsplit, List.length_append, List.length_cons]
        omega
      exact Heap.not_grantsNext hg (by omega) Nat.one_pos (hlater.rest hreq)

/-! ## Emptying and releasing -/

/-- `dynstring_empty` (lines 103-108); a context of size 0 must have no buffer. -/
theorem empty_spec (hr : Represents h ctx t) (hp : Proper ctx) :
    ∃ ctx' h', dynstringEmpty ctx h = .ok ⟨(), ctx', h'⟩ ∧ Succeeds h ctx ctx' [] h' := by
  have hzero : Represents h { ctx with pos := 0 } ([] : List UInt8) :=
    represents_shorten (u := t) hr rfl rfl rfl
  cases hb : ctx.buf with
  | none =>
      refine ⟨{ ctx with pos := 0 }, h, by simp [dynstringEmpty, hb], hzero,
        Heap.Evolves.refl _ _, rfl, fun hp => hp⟩
  | some b =>
      have hsize : 0 < ctx.size := by
        rw [Nat.pos_iff_ne_zero]
        intro h0
        rw [hp.mpr h0] at hb
        cases hb
      obtain ⟨h', hw, hs, -⟩ := store_represents hzero (List.cons_ne_nil (0 : UInt8) [])
        (show 0 + 1 ≤ ctx.size by omega)
      refine ⟨{ ctx with pos := 0 }, h', ?_, ?_, hs.evolves, hs.refusals, fun hp => hp⟩
      · simp only [hb] at hw
        simp [dynstringEmpty, hb, hw]
      · exact represents_shorten (u := [0]) hs.represents rfl rfl rfl

/-- `dynstring_free` (lines 110-117). -/
theorem free_spec (hr : Represents h ctx t) :
    ∃ h', dynstringFree ctx h = .ok ⟨(), { buf := none, size := 0, pos := 0 }, h'⟩ ∧
      Succeeds h ctx { buf := none, size := 0, pos := 0 } [] h' := by
  obtain ⟨cells, hh, -, -⟩ := hr.buffer
  obtain ⟨h', he, hev, -, href⟩ := Heap.free_ok hh
  refine ⟨h', by simp [dynstringFree, he],
    ⟨rfl, le_rfl, Nat.zero_le _, [], ?_, rfl, rfl⟩, hev, href, fun _ => by simp [Proper]⟩
  exact Heap.holds_none.mpr rfl

/-! ## Compacting and handing out the string -/

/-- The buffer shrinks to its bytes and the NUL. -/
theorem compact_granted (hr : Represents h ctx t) (hg : h.grants A (ctx.pos + 1) = true) :
    ∃ b h', dynstringCompact A ctx h =
        .ok ⟨0, { buf := some b, size := ctx.pos + 1, pos := ctx.pos }, h'⟩ ∧
      Succeeds h ctx { buf := some b, size := ctx.pos + 1, pos := ctx.pos } t h' := by
  have hsize := sizeAdd_pos hr (n := 1) (by omega)
  obtain ⟨b, h', hre, hs, -, -⟩ := grow_granted hr (n := ctx.pos + 1) (by omega) (by omega) hg
  refine ⟨b, h', ?_, hs⟩
  simp [dynstringCompact, hsize, hre]

/-- Or it is left as it is. -/
theorem compact_refused (hr : Represents h ctx t) (hg : h.grants A (ctx.pos + 1) = false) :
    dynstringCompact A ctx h = .ok ⟨-1, ctx, h.refuse⟩ := by
  have hsize := sizeAdd_pos hr (n := 1) (by omega)
  have hre := grow_refused hr (n := ctx.pos + 1) (by omega) hg
  simp [dynstringCompact, hsize, hre]

/-- `dynstring_compact` (lines 119-131) does not change the bytes. -/
theorem compact_spec (hr : Represents h ctx t) :
    AllOrNothing A (ctx.pos + 1) h ctx t (dynstringCompact A ctx h) := by
  cases hg : h.grants A (ctx.pos + 1) with
  | true =>
      obtain ⟨b, h', he, hs⟩ := compact_granted hr hg
      exact Or.inl ⟨_, h', he, hs⟩
  | false => exact Or.inr ⟨compact_refused hr hg, hg⟩

/-- The block of `b` begins with `t` and a NUL. -/
def Terminated (h : Heap UInt8) (b : ℕ) (t : List UInt8) : Prop :=
  ∃ cells, h.Holds (some b) cells ∧ cells.take (t.length + 1) = t ++ [0]

/-- A context that represents `t` and a NUL has them in its buffer. -/
theorem terminated_of_represents {b : ℕ} (hr : Represents h ctx (t ++ [0]))
    (hb : ctx.buf = some b) : Terminated h b t := by
  obtain ⟨cells, hh, -, htake⟩ := hr.buffer
  have hpos := hr.pos_eq
  rw [List.length_append, List.length_singleton] at hpos
  rw [hpos] at htake
  exact ⟨cells, hb ▸ hh, htake⟩

/-- A string apart from what a call works on stays. -/
theorem terminated_frame {p q : Ptr} {b : ℕ} (ht : Terminated h b t)
    (he : Heap.Evolves p q h h') (hap : Heap.Apart (some b) p) : Terminated h' b t := by
  obtain ⟨cells, hh, htake⟩ := ht
  exact ⟨cells, he.frame hap hh, htake⟩

/-- The C string of such a block goes up to the first NUL of `t`, or is `t`. -/
theorem cString_of_terminated {b : ℕ} (ht : Terminated h b t) :
    h.cString (some b) = some (beforeNul t) := by
  obtain ⟨cells, hh, htake⟩ := ht
  have hcells : cells = t ++ 0 :: cells.drop (t.length + 1) := by
    conv_lhs => rw [← List.take_append_drop (t.length + 1) cells, htake]
    simp
  rw [Heap.cString_of_holds hh, hcells, cString_append_zero]

/-- `dynstring_getcstring` with room (lines 136-141): the context keeps its buffer and
its bytes, and the buffer it returns holds them and a NUL. -/
theorem getcstring_room (hr : Represents h ctx t) (hroom : ctx.pos < ctx.size) :
    ∃ b h', ctx.buf = some b ∧ dynstringGetcstring A ctx h = .ok ⟨ctx.buf, ctx, h'⟩ ∧
      Succeeds h ctx ctx t h' ∧ Terminated h' b t ∧ h'.requests = h.requests := by
  obtain ⟨b, hb⟩ := represents_buf_some hr (by omega)
  obtain ⟨cells, hh, hlen, htake⟩ := hr.buffer
  rw [hb] at hh
  have hread : h.read ctx.buf ctx.pos = .ok cells[ctx.pos] := by
    rw [hb]
    exact Heap.read_ok hh (by omega)
  have hposmax : ctx.pos ≤ ptrdiffMax := hr.pos_le.trans hr.size_le
  by_cases hnul : cells[ctx.pos] = 0
  · refine ⟨b, h, hb, ?_, Succeeds.refl hr, ⟨cells, hh, ?_⟩, rfl⟩
    · simp [dynstringGetcstring, hroom, hread, hnul]
    · rw [← hr.pos_eq, List.take_succ_eq_append_getElem (by omega), htake, hnul]
  · obtain ⟨h', he, hs, hreq⟩ := appendchar_room (A := A) hr hroom 0
    refine ⟨b, h', hb, ?_, ⟨?_, hs.evolves, hs.refusals, fun hp => hp⟩, ?_, hreq⟩
    · simp [dynstringGetcstring, hroom, hread, hnul, he, sizePred_succ hposmax]
    · exact represents_shorten hs.represents rfl rfl hr.pos_eq
    · exact terminated_of_represents hs.represents hb

/-- With room it writes at most the NUL, at `pos`. -/
theorem getcstring_write (hroom : ctx.pos < ctx.size) {r : Done Ptr}
    (he : dynstringGetcstring A ctx h = .ok r) :
    r.heap = h ∨ h.write ctx.buf ctx.pos [0] = .ok r.heap := by
  have hnul : toChar 0 = 0 := rfl
  have hnot : ¬ ctx.pos ≥ ctx.size := by omega
  unfold dynstringGetcstring at he
  rw [if_pos hroom] at he
  cases hread : h.read ctx.buf ctx.pos with
  | error e =>
      rw [hread] at he
      cases he
  | ok c =>
      rw [hread, ok_bind] at he
      by_cases hc : c = 0
      · rw [if_pos hc] at he
        cases he
        exact .inl rfl
      · rw [if_neg hc, dynstringAppendchar, if_neg hnot, hnul] at he
        dsimp only at he
        cases hw : h.write ctx.buf ctx.pos [0] with
        | error e =>
            rw [hw] at he
            cases he
        | ok h' =>
            rw [hw] at he
            cases he
            exact .inr rfl

/-- `dynstring_getcstring` on a full buffer, its request granted (lines 139-141): the
context has the string in its new buffer, and the pointer returned is the old one. -/
theorem getcstring_granted (hr : Represents h ctx t) (hfull : ctx.size ≤ ctx.pos)
    (hg : h.grants A (ctx.size + 64) = true) :
    ∃ b h', dynstringGetcstring A ctx h =
        .ok ⟨ctx.buf, { buf := some b, size := ctx.size + 64, pos := ctx.pos }, h'⟩ ∧
      Succeeds h ctx { buf := some b, size := ctx.size + 64, pos := ctx.pos } t h' ∧
      Terminated h' b t ∧
      (some b = ctx.buf ↔ ctx.buf ≠ none ∧ (A h.requests).moved = false) := by
  have hposmax : ctx.pos ≤ ptrdiffMax := hr.pos_le.trans hr.size_le
  obtain ⟨b, h', he, hs, -, hsame⟩ := appendchar_granted hr hfull 0 hg
  refine ⟨b, h', ?_, ⟨?_, hs.evolves, hs.refusals, hs.proper⟩, ?_, hsame⟩
  · simp [dynstringGetcstring, Nat.not_lt.mpr hfull, he, sizePred_succ hposmax]
  · exact represents_shorten hs.represents rfl rfl hr.pos_eq
  · exact terminated_of_represents hs.represents rfl

/-- `dynstring_getcstring` on a full buffer, its request refused: `pos` is decremented
all the same. -/
theorem getcstring_refused (hr : Represents h ctx t) (hfull : ctx.size ≤ ctx.pos)
    (hg : h.grants A (ctx.size + 64) = false) :
    dynstringGetcstring A ctx h =
      .ok ⟨ctx.buf, { ctx with pos := sizePred ctx.pos }, h.refuse⟩ := by
  simp [dynstringGetcstring, Nat.not_lt.mpr hfull, appendchar_refused hr hfull 0 hg]

/-- `dynstring_getcstring` (lines 133-142): the bytes are kept, or the buffer was full and
the request for a larger one was refused. -/
theorem getcstring_spec (hr : Represents h ctx t) :
    (∃ ctx' h', dynstringGetcstring A ctx h = .ok ⟨ctx.buf, ctx', h'⟩ ∧
      Succeeds h ctx ctx' t h') ∨
    (dynstringGetcstring A ctx h =
        .ok ⟨ctx.buf, { ctx with pos := sizePred ctx.pos }, h.refuse⟩ ∧
      ctx.size ≤ ctx.pos ∧ h.grants A (ctx.size + 64) = false) := by
  cases Nat.lt_or_ge ctx.pos ctx.size with
  | inl hroom =>
      obtain ⟨b, h', -, he, hs, -⟩ := getcstring_room (A := A) hr hroom
      exact Or.inl ⟨ctx, h', he, hs⟩
  | inr hfull =>
      cases hg : h.grants A (ctx.size + 64) with
      | true =>
          obtain ⟨b, h', he, hs, -⟩ := getcstring_granted hr hfull hg
          exact Or.inl ⟨_, h', he, hs⟩
      | false => exact Or.inr ⟨getcstring_refused hr hfull hg, hfull, rfl⟩

/-- The last steps of `dynstring_detachcstring` (lines 147-151) once the NUL is in:
the block is handed over, whether or not its excess could be cut off, and the cut is the
only request. -/
theorem detachcstring_appended {h₁ : Heap UInt8} {ctx₁ : DynstringContext}
    (he : dynstringAppendchar A ctx 0 h = .ok ⟨0, ctx₁, h₁⟩)
    (hs : Succeeds h ctx ctx₁ (t ++ [0]) h₁) :
    ∃ b h', dynstringDetachcstring A ctx h =
        .ok ⟨some b, { buf := none, size := 0, pos := 0 }, h'⟩ ∧
      Terminated h' b t ∧ Heap.Evolves ctx.buf (some b) h h' ∧
      (h₁.grants A (ctx₁.pos + 1) = true → h'.refusals = h.refusals) := by
  have hpos : 0 < ctx₁.size := by
    have h1 := hs.represents.pos_le
    rw [hs.represents.pos_eq, List.length_append, List.length_singleton] at h1
    omega
  cases hg : h₁.grants A (ctx₁.pos + 1) with
  | true =>
      obtain ⟨b, h', hc, hs'⟩ := compact_granted hs.represents hg
      refine ⟨b, h', ?_, terminated_of_represents hs'.represents rfl, (hs.trans hs').evolves,
        fun _ => (hs.trans hs').refusals⟩
      simp [dynstringDetachcstring, he, hc, dynstringFree, Heap.free]
  | false =>
      have hc := compact_refused hs.represents hg
      obtain ⟨b, hb⟩ := represents_buf_some hs.represents hpos
      refine ⟨b, h₁.refuse, ?_, terminated_of_represents (represents_refuse hs.represents) hb, ?_,
        fun hgranted => absurd hgranted Bool.false_ne_true⟩
      · simp [dynstringDetachcstring, he, hc, hb, dynstringFree, Heap.free]
      · exact hb ▸ hs.evolves.trans (Heap.evolves_refuse _ _)

/-- `dynstring_detachcstring` without its NUL, cut to one more than the bytes: the block
is handed over all the same. -/
theorem detachcstring_unterminated (hr : Represents h ctx t)
    (he : dynstringAppendchar A ctx 0 h = .ok ⟨-1, ctx, h.refuse⟩)
    (hg : h.refuse.grants A (ctx.pos + 1) = true) :
    ∃ b h', dynstringDetachcstring A ctx h =
        .ok ⟨some b, { buf := none, size := 0, pos := 0 }, h'⟩ ∧
      h'.refusals = h.refusals + 1 := by
  obtain ⟨b, h', hc, hs⟩ := compact_granted (represents_refuse hr) hg
  refine ⟨b, h', ?_, hs.refusals⟩
  simp [dynstringDetachcstring, he, hc, dynstringFree, Heap.free]

/-- With both requests refused the buffer is handed over as it is. -/
theorem detachcstring_refused (hr : Represents h ctx t)
    (he : dynstringAppendchar A ctx 0 h = .ok ⟨-1, ctx, h.refuse⟩)
    (hg : h.refuse.grants A (ctx.pos + 1) = false) :
    dynstringDetachcstring A ctx h =
      .ok ⟨ctx.buf, { buf := none, size := 0, pos := 0 }, h.refuse.refuse⟩ := by
  have hc := compact_refused (represents_refuse hr) hg
  simp [dynstringDetachcstring, he, hc, dynstringFree, Heap.free]

/-- Without its NUL the string is still handed over, but a request was refused. -/
theorem detachcstring_lost (hr : Represents h ctx t)
    (he : dynstringAppendchar A ctx 0 h = .ok ⟨-1, ctx, h.refuse⟩) :
    ∃ p h', dynstringDetachcstring A ctx h =
        .ok ⟨p, { buf := none, size := 0, pos := 0 }, h'⟩ ∧ h.refusals < h'.refusals := by
  cases hg : h.refuse.grants A (ctx.pos + 1) with
  | true =>
      obtain ⟨b, h', hd, href⟩ := detachcstring_unterminated hr he hg
      exact ⟨some b, h', hd, by omega⟩
  | false =>
      refine ⟨ctx.buf, h.refuse.refuse, detachcstring_refused hr he hg, ?_⟩
      simp only [Heap.refuse]
      omega

/-- `dynstring_detachcstring` (lines 144-152) leaves a context without a buffer; if no
request is refused it hands over the bytes and a NUL, and none is when two are granted. -/
theorem detachcstring_spec (hr : Represents h ctx t) :
    ∃ p h', dynstringDetachcstring A ctx h =
        .ok ⟨p, { buf := none, size := 0, pos := 0 }, h'⟩ ∧
      (h'.refusals = h.refusals → ∃ b, p = some b ∧ Terminated h' b t) ∧
      (ctx.size + 64 ≤ ptrdiffMax → h.GrantsNext A 2 → h'.refusals = h.refusals) := by
  have hle := hr.pos_le
  cases Nat.lt_or_ge ctx.pos ctx.size with
  | inl hroom =>
      obtain ⟨h₁, he, hs, hreq⟩ := appendchar_room (A := A) hr hroom 0
      obtain ⟨b, h', hd, hterm, -, hcut⟩ := detachcstring_appended he hs
      refine ⟨some b, h', hd, fun _ => ⟨b, rfl, hterm⟩, fun hmax hnext => hcut ?_⟩
      exact (hnext.rest (k := 0) (l := 2) hreq).grants (by dsimp only; omega) Nat.two_pos
  | inr hfull =>
      cases hg : h.grants A (ctx.size + 64) with
      | true =>
          obtain ⟨b, h₁, he, hs, hreq, -⟩ := appendchar_granted hr hfull 0 hg
          obtain ⟨b', h', hd, hterm, -, hcut⟩ := detachcstring_appended he hs
          refine ⟨some b', h', hd, fun _ => ⟨b', rfl, hterm⟩, fun hmax hnext => hcut ?_⟩
          exact (hnext.rest (k := 1) (l := 1) hreq).grants (by dsimp only; omega) Nat.one_pos
      | false =>
          obtain ⟨p, h', hd, hmore⟩ := detachcstring_lost hr (appendchar_refused hr hfull 0 hg)
          refine ⟨p, h', hd, fun hsame => absurd hsame hmore.ne', fun hmax hnext => ?_⟩
          exact absurd hnext (Heap.not_grantsNext hg hmax Nat.two_pos)

/-- `dynstring_detachcstring` with room: the bytes and a NUL are handed over, whatever
the allocator answers. -/
theorem detachcstring_room (hr : Represents h ctx t) (hroom : ctx.pos < ctx.size) :
    ∃ b h', dynstringDetachcstring A ctx h =
        .ok ⟨some b, { buf := none, size := 0, pos := 0 }, h'⟩ ∧
      Terminated h' b t ∧ Heap.Evolves ctx.buf (some b) h h' := by
  obtain ⟨h₁, he, hs, -⟩ := appendchar_room (A := A) hr hroom 0
  obtain ⟨b, h', hd, hterm, hev, -⟩ := detachcstring_appended he hs
  exact ⟨b, h', hd, hterm, hev⟩

end AzureMetadata.Analysis
