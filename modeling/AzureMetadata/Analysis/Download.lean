import AzureMetadata.Analysis.DynstringOperations
import AzureMetadata.Model.Dynstringhttp

/-!
# The download into a dynstring

`writedata_spec` says what one write callback does: it takes its chunk whole, or takes
nothing and stops the transfer, because the limit of 32768 bytes would be passed or a
request was refused.  `perform_spec` is the induction over the chunks, and
`appendfromurl_spec` its reading for a whole body: with the requests granted the result
and the content depend on the body alone, not on how it is cut.  How many requests there
are does depend on the cuts, and `downloadCost` counts them.
-/

set_option autoImplicit false

namespace AzureMetadata.Analysis

open Clib AzureMetadata.Model AzureMetadata.Interface

variable {A : Allocator UInt8} {h h' : Heap UInt8} {ctx ctx' : DynstringContext}
  {t : List UInt8}

/-- The most bytes the callback lets a dynstring hold. -/
def bodyLimit : ℕ := 8192 * 4

/-- A length within the limit is the `int` of that value. -/
theorem toInt_eq {n : ℕ} (hn : n ≤ bodyLimit) : toInt n = n := by
  unfold toInt
  unfold bodyLimit at hn
  exact Int.bmod_eq_of_le (by omega) (by omega)

/-- It comes back from `int` as it was. -/
theorem toSize_toInt {n : ℕ} (hn : n ≤ bodyLimit) : toSize (toInt n) = n := by
  rw [toInt_eq hn]
  unfold toSize sizeMod
  unfold bodyLimit at hn
  omega

/-- So does 0. -/
theorem toSize_zero : toSize 0 = 0 := by
  unfold toSize
  simp

/-! ## The requests of a download -/

/-- The requests made by the download of `chunks` into a buffer of `size` bytes that holds
`pos` of them, when each is granted. -/
def downloadCost : List CBytes → ℕ → ℕ → ℕ
  | [], _, _ => 0
  | chunk :: chunks, pos, size =>
    let cost := appendCost pos size chunk.bytes.length
    cost + downloadCost chunks (pos + chunk.bytes.length) (size + cost * chunk.bytes.length)

/-- A request was refused, although none of those that the download of `chunks` makes
would be too large: so not all of them are granted. -/
structure Refused (A : Allocator UInt8) (chunks : List CBytes) (ctx : DynstringContext)
    (h h' : Heap UInt8) : Prop where
  counted : h.refusals < h'.refusals
  not_granted : ctx.size + (chunks.flatMap CBytes.bytes).length ≤ ptrdiffMax →
    ¬ h.GrantsNext A (downloadCost chunks ctx.pos ctx.size)

/-- The chunk that does not fit is refused where its request is. -/
theorem refused_head {chunk : CBytes} (chunks : List CBytes) (hne : chunk.bytes ≠ [])
    (hfull : ctx.size ≤ chunk.bytes.length + ctx.pos)
    (hg : h.grants A (ctx.size + chunk.bytes.length) = false) :
    Refused A (chunk :: chunks) ctx h h.refuse := by
  refine ⟨Nat.lt_succ_self _, ?_⟩
  intro hmax
  have hlen : chunk.bytes.length ≠ 0 := fun h0 => hne (List.length_eq_zero_iff.mp h0)
  rw [List.flatMap_cons, List.length_append] at hmax
  apply Heap.not_grantsNext hg (by omega)
  rw [downloadCost, appendCost_full hlen hfull]
  omega

/-- Or a later chunk is, behind one that was appended. -/
theorem refused_cons {chunk : CBytes} {chunks : List CBytes} {h₁ : Heap UInt8}
    (hpos : ctx'.pos = ctx.pos + chunk.bytes.length)
    (hsize : ctx'.size = ctx.size +
      appendCost ctx.pos ctx.size chunk.bytes.length * chunk.bytes.length)
    (hcost : Heap.Costs A (appendCost ctx.pos ctx.size chunk.bytes.length) h h₁)
    (href : h₁.refusals = h.refusals) (hrest : Refused A chunks ctx' h₁ h') :
    Refused A (chunk :: chunks) ctx h h' := by
  refine ⟨href ▸ hrest.counted, ?_⟩
  intro hmax hnext
  have hle : appendCost ctx.pos ctx.size chunk.bytes.length * chunk.bytes.length ≤
      1 * chunk.bytes.length := Nat.mul_le_mul_right _ (appendCost_le_one _ _ _)
  rw [List.flatMap_cons, List.length_append] at hmax
  apply hrest.not_granted (by omega)
  rw [hpos, hsize]
  exact Heap.GrantsNext.rest hnext hcost.requests

/-! ## The callback -/

/-- A context that has gone on to represent `t'`, its own block apart nothing touched;
a context that had room for a NUL has kept it. -/
structure Continues (h : Heap UInt8) (ctx ctx' : DynstringContext) (t' : List UInt8)
    (h' : Heap UInt8) : Prop where
  represents : Represents h' ctx' t'
  evolves : Heap.Evolves ctx.buf ctx'.buf h h'
  room : ctx.pos < ctx.size → ctx'.pos < ctx'.size

/-- Before the first chunk nothing has been received. -/
theorem Continues.refl (hr : Represents h ctx t) : Continues h ctx ctx t h :=
  ⟨hr, Heap.Evolves.refl _ _, fun hlt => hlt⟩

/-- An append of one chunk and what comes after it. -/
theorem Continues.after {chunk t' : List UInt8} {ctx₁ : DynstringContext} {h₁ : Heap UInt8}
    (hc' : Continues h₁ ctx₁ ctx' t' h') (hr : Represents h ctx t)
    (hs₁ : Succeeds h ctx ctx₁ (t ++ chunk) h₁)
    (hsize₁ : ctx₁.size = ctx.size + appendCost ctx.pos ctx.size chunk.length * chunk.length) :
    Continues h ctx ctx' t' h' := by
  have hroom₁ := room_of_append hr hs₁.represents hsize₁
  refine ⟨hc'.represents, hs₁.evolves.trans hc'.evolves, ?_⟩
  intro hlt
  exact hc'.room (hroom₁ hlt)

/-- One callback (dynstringhttp.c:12-23).  It adds its chunk and reports its length; or
it adds nothing and reports 0 for a chunk that is not empty, since the limit would be
passed or a request was refused. -/
theorem writedata_spec (hr : Represents h ctx t) (chunk : CBytes) :
    (∃ ctx' h', dynstringhttpWritedatatodynstring A chunk ctx h =
        .ok ⟨toInt chunk.bytes.length, ctx', h'⟩ ∧
      Succeeds h ctx ctx' (t ++ chunk.bytes) h' ∧
      ctx'.size = ctx.size +
        appendCost ctx.pos ctx.size chunk.bytes.length * chunk.bytes.length ∧
      Heap.Costs A (appendCost ctx.pos ctx.size chunk.bytes.length) h h' ∧
      (t ++ chunk.bytes).length ≤ bodyLimit) ∨
    (∃ h', dynstringhttpWritedatatodynstring A chunk ctx h = .ok ⟨0, ctx, h'⟩ ∧
      (t.length ≤ bodyLimit → chunk.bytes ≠ []) ∧ Continues h ctx ctx t h' ∧
      (bodyLimit < (t ++ chunk.bytes).length ∨
        ∀ chunks, Refused A (chunk :: chunks) ctx h h')) := by
  have hpos := hr.pos_eq
  have hsum : sizeAdd (dynstringLength ctx) chunk.bytes.length =
      (t ++ chunk.bytes).length := by
    have hmax := chunk.length_le
    rw [dynstringLength, List.length_append, ← hpos]
    exact sizeAdd_pos hr (by omega)
  cases Nat.lt_or_ge bodyLimit (t ++ chunk.bytes).length with
  | inl hover =>
      refine Or.inr ⟨h, ?_, ?_, Continues.refl hr, Or.inl hover⟩
      · unfold bodyLimit at hover
        rw [dynstringhttpWritedatatodynstring, hsum, if_pos hover, pure_eq_ok]
      · intro hle hnil
        rw [hnil, List.append_nil] at hover
        omega
  | inr hfits =>
      have hno : ¬ 8192 * 4 < (t ++ chunk.bytes).length := by
        unfold bodyLimit at hfits
        omega
      rcases appendstring_spec (A := A) hr chunk.length_le with
        ⟨ctx', h', he, hs, hsize, hcost⟩ | ⟨he, hnil, hfull, hg⟩
      · refine Or.inl ⟨ctx', h', ?_, hs, hsize, hcost, hfits⟩
        rw [dynstringhttpWritedatatodynstring, hsum, if_neg hno, he]
        simp
      · refine Or.inr ⟨h.refuse, ?_, fun _ => hnil,
          ⟨represents_refuse hr, Heap.evolves_refuse _ _, fun hlt => hlt⟩,
          Or.inr fun chunks => refused_head chunks hnil hfull hg⟩
        rw [dynstringhttpWritedatatodynstring, hsum, if_neg hno, he]
        simp

/-! ## The transfer -/

/-- The transfer has delivered the first `k` chunks and stopped at the next one, for the
limit or for a refused request. -/
structure Stops (A : Allocator UInt8) (chunks : List CBytes) (h : Heap UInt8)
    (ctx ctx' : DynstringContext) (t : List UInt8) (h' : Heap UInt8) (k : ℕ) : Prop where
  lt_length : k < chunks.length
  continues : Continues h ctx ctx' (t ++ (chunks.take k).flatMap CBytes.bytes) h'
  length_le : (t ++ (chunks.take k).flatMap CBytes.bytes).length ≤ bodyLimit
  cause : bodyLimit < (t ++ chunks.flatMap CBytes.bytes).length ∨ Refused A chunks ctx h h'

/-- The transfer has delivered all chunks. -/
structure Completes (A : Allocator UInt8) (chunks : List CBytes) (h : Heap UInt8)
    (ctx ctx' : DynstringContext) (t : List UInt8) (h' : Heap UInt8) : Prop where
  continues : Continues h ctx ctx' (t ++ chunks.flatMap CBytes.bytes) h'
  refusals : h'.refusals = h.refusals
  costs : Heap.Costs A (downloadCost chunks ctx.pos ctx.size) h h'
  length_le : (t ++ chunks.flatMap CBytes.bytes).length ≤ bodyLimit

/-- `curl_easy_perform`: every chunk is taken, or the transfer stops at one. -/
theorem perform_spec (chunks : List CBytes) {h : Heap UInt8} {ctx : DynstringContext}
    {t : List UInt8} (hr : Represents h ctx t) (hle : t.length ≤ bodyLimit) :
    (∃ ctx' h', curlEasyPerform A chunks ctx h = .ok ⟨true, ctx', h'⟩ ∧
      Completes A chunks h ctx ctx' t h') ∨
    (∃ ctx' h' k, curlEasyPerform A chunks ctx h = .ok ⟨false, ctx', h'⟩ ∧
      Stops A chunks h ctx ctx' t h' k) := by
  induction chunks generalizing h ctx t with
  | nil =>
      exact Or.inl ⟨ctx, h, rfl, by simpa using Continues.refl hr, rfl, Heap.costs_zero rfl,
        by simpa using hle⟩
  | cons chunk chunks ih =>
      have hassoc : ∀ l : List CBytes, t ++ (chunk :: l).flatMap CBytes.bytes =
          t ++ chunk.bytes ++ l.flatMap CBytes.bytes := by
        intro l
        simp
      rcases writedata_spec (A := A) hr chunk with
        ⟨ctx₁, h₁, he, hs₁, hsize₁, hcost₁, hfits⟩ | ⟨h₁, he, hne, hc₁, hcause⟩
      · have hlen : chunk.bytes.length ≤ bodyLimit := by
          rw [List.length_append] at hfits
          omega
        have hunfold : curlEasyPerform A (chunk :: chunks) ctx h =
            curlEasyPerform A chunks ctx₁ h₁ := by
          rw [curlEasyPerform, he, ok_bind, if_pos (toSize_toInt hlen)]
        have hpos₁ : ctx₁.pos = ctx.pos + chunk.bytes.length := by
          rw [hs₁.represents.pos_eq, List.length_append, hr.pos_eq]
        rcases ih hs₁.represents hfits with
          ⟨ctx', h', he', hdone⟩ | ⟨ctx', h', k, he', hstop⟩
        · refine Or.inl ⟨ctx', h', by rw [hunfold, he'], ?_, ?_, ?_, ?_⟩
          · rw [hassoc]
            exact hdone.continues.after hr hs₁ hsize₁
          · exact hdone.refusals.trans hs₁.refusals
          · have hcosts := hcost₁.trans hdone.costs
            rw [hpos₁, hsize₁] at hcosts
            exact hcosts
          · rw [hassoc]
            exact hdone.length_le
        · refine Or.inr ⟨ctx', h', k + 1, by rw [hunfold, he'],
            Nat.succ_lt_succ hstop.lt_length, ?_, ?_, ?_⟩
          · rw [List.take_succ_cons, hassoc]
            exact hstop.continues.after hr hs₁ hsize₁
          · rw [List.take_succ_cons, hassoc]
            exact hstop.length_le
          · rw [hassoc]
            exact hstop.cause.imp_right
              fun hrefused => refused_cons hpos₁ hsize₁ hcost₁ hs₁.refusals hrefused
      · -- The callback returned 0 for a chunk that is not empty.
        have hpos := List.length_pos_of_ne_nil (hne hle)
        have hmis : toSize 0 ≠ chunk.bytes.length := by
          rw [toSize_zero]
          omega
        refine Or.inr ⟨ctx, h₁, 0, ?_, Nat.succ_pos _, by simpa using hc₁, by simpa using hle, ?_⟩
        · simp [curlEasyPerform, he, hmis]
        · cases hcause with
          | inl hover =>
              apply Or.inl
              rw [hassoc, List.length_append]
              omega
          | inr hrefused => exact Or.inr (hrefused chunks)

/-- `dynstringhttp_appendfromurl` on an empty context: the whole body and 0, or the
first chunks of it and -1. -/
theorem appendfromurl_spec (curl : Curl) (url : List UInt8) (hr : Represents h ctx []) :
    (∃ ctx' h', dynstringhttpAppendfromurl A curl ctx url h = .ok ⟨0, ctx', h'⟩ ∧
      Completes A (curl.chunks url) h ctx ctx' [] h') ∨
    (∃ ctx' h' k, dynstringhttpAppendfromurl A curl ctx url h = .ok ⟨-1, ctx', h'⟩ ∧
      Stops A (curl.chunks url) h ctx ctx' [] h' k) := by
  have hzero : ([] : List UInt8).length ≤ bodyLimit := Nat.zero_le _
  rcases perform_spec (A := A) (curl.chunks url) hr hzero with
    ⟨ctx', h', he, hdone⟩ | ⟨ctx', h', k, he, hstop⟩
  · exact Or.inl ⟨ctx', h', by simp [dynstringhttpAppendfromurl, he], hdone⟩
  · exact Or.inr ⟨ctx', h', k, by simp [dynstringhttpAppendfromurl, he], hstop⟩

/-- The allocator grants the requests of the download of `chunks`, and none of them can be
too large. -/
def DownloadGranted (A : Allocator UInt8) (chunks : List CBytes) (ctx : DynstringContext)
    (h : Heap UInt8) : Prop :=
  h.GrantsNext A (downloadCost chunks ctx.pos ctx.size) ∧
    ctx.size + (chunks.flatMap CBytes.bytes).length ≤ ptrdiffMax

/-- **The download does not depend on the chunks.**  From a context initialised with any
size the call terminates without a fault.  A body of at most 32768 bytes gives 0 and exactly
that content if no request is refused, and none is if the allocator grants those of the
download; a longer one gives -1, whatever the allocator answers, and the content of the
first chunks, at most 32768 bytes. -/
theorem appendfromurl_whole_body (A : Allocator UInt8) (curl : Curl) (url : List UInt8)
    {n : ℕ} {junk ctx : DynstringContext} {h₀ h : Heap UInt8}
    (hi : dynstringInitialise A junk n h₀ = ⟨0, ctx, h⟩) :
    ∃ rc ctx' h', dynstringhttpAppendfromurl A curl ctx url h = .ok ⟨rc, ctx', h'⟩ ∧
      ((curl.body url).length ≤ 32768 →
        h'.refusals = h.refusals ∨ DownloadGranted A (curl.chunks url) ctx h →
        rc = 0 ∧ Represents h' ctx' (curl.body url) ∧ h'.refusals = h.refusals) ∧
      (32768 < (curl.body url).length → rc = -1 ∧
        ∃ k, Represents h' ctx' (((curl.chunks url).take k).flatMap CBytes.bytes) ∧
          (((curl.chunks url).take k).flatMap CBytes.bytes).length ≤ 32768) := by
  have hr : Represents h ctx [] := (represents_of_initialise hi).1
  rcases appendfromurl_spec (A := A) curl url hr with
    ⟨ctx', h', he, hdone⟩ | ⟨ctx', h', k, he, hstop⟩
  · refine ⟨0, ctx', h', he, fun _ _ => ⟨rfl, hdone.continues.represents, hdone.refusals⟩, ?_⟩
    intro hlt
    have hle := hdone.length_le
    rw [List.nil_append, ← Curl.body, bodyLimit] at hle
    omega
  · refine ⟨-1, ctx', h', he, fun hle hgo => ?_, fun _ => ⟨rfl, k, ?_, ?_⟩⟩
    · cases hstop.cause with
      | inl hover =>
          rw [List.nil_append, ← Curl.body, bodyLimit] at hover
          omega
      | inr hrefused =>
          have hcounted := hrefused.counted
          cases hgo with
          | inl hsame => omega
          | inr hgranted => exact absurd hgranted.1 (hrefused.not_granted hgranted.2)
    · exact hstop.continues.represents
    · exact hstop.length_le

/-- A server whose body `abc` comes in three chunks, one of them empty. -/
def abcCurl : Curl where
  httpheader := []
  server := fun _ _ => [⟨[97, 98], by decide⟩, ⟨[], by decide⟩, ⟨[99], by decide⟩]

/-- Into a buffer of one byte, which has to grow twice, with an allocator that grants
everything: the whole body arrives. -/
theorem appendfromurl_abc :
    let start := dynstringInitialise (generous true 7) ⟨none, 0, 0⟩ 1 Heap.empty
    downloadCost (abcCurl.chunks []) start.ctx.pos start.ctx.size = 2 ∧
    ∃ ctx' h', dynstringhttpAppendfromurl (generous true 7) abcCurl start.ctx [] start.heap =
        .ok ⟨0, ctx', h'⟩ ∧
      Represents h' ctx' [97, 98, 99] ∧ h'.refusals = 0 := by
  intro start
  have hi : dynstringInitialise (generous true 7) ⟨none, 0, 0⟩ 1 Heap.empty =
      ⟨0, start.ctx, start.heap⟩ := rfl
  have hgranted : DownloadGranted (generous true 7) (abcCurl.chunks []) start.ctx start.heap :=
    ⟨Heap.grantsNext_generous _ _ _ _, by decide⟩
  obtain ⟨rc, ctx', h', he, hall, -⟩ := appendfromurl_whole_body (generous true 7) abcCurl [] hi
  obtain ⟨hrc, hbytes, hquiet⟩ := hall (by decide) (Or.inr hgranted)
  subst hrc
  exact ⟨rfl, ctx', h', he, hbytes, hquiet⟩

end AzureMetadata.Analysis
