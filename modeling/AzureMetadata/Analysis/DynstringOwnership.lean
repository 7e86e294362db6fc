import AzureMetadata.Clib.Ownership
import AzureMetadata.Model.Dynstringhttp

/-!
# A context owns its buffer

Every operation on a context is given the block of `buf` and leaves that of the new `buf`,
whether or not a request is refused: nothing is lost on the way.
-/

set_option autoImplicit false

namespace AzureMetadata.Analysis

open Clib AzureMetadata.Model

variable {A : Allocator UInt8} {ctx : DynstringContext} {h : Heap UInt8} {ο : Type}

/-- The position is in the buffer, and the buffer one that can be allocated. -/
def Fits (ctx : DynstringContext) : Prop := ctx.pos ≤ ctx.size ∧ ctx.size ≤ ptrdiffMax

/-- What the operations do to the blocks. -/
def Owned (ctx : DynstringContext) (h : Heap UInt8) (r : Done ο) : Prop :=
  Heap.Conserves [ctx.buf] [r.ctx.buf] h r.heap ∧ Fits r.ctx

/-- If the execution has no fault, what it leaves satisfies `P`. -/
abbrev Faultless {β : Type} (r : Except Fault β) (P : β → Prop) : Prop :=
  Yields (fun _ => True) r P

/-- `initialise` owns the block that it has made. -/
theorem initialise_owned (A : Allocator UInt8) (junk : DynstringContext) {n : ℕ}
    (hn : n ≤ ptrdiffMax) (h : Heap UInt8) :
    Heap.Conserves [] [(dynstringInitialise A junk n h).ctx.buf] h
        (dynstringInitialise A junk n h).heap ∧
      ((dynstringInitialise A junk n h).out = 0 → Fits (dynstringInitialise A junk n h).ctx) := by
  unfold dynstringInitialise
  cases hm : h.malloc A n with
  | mk p h' =>
      have hc := Heap.conserves_malloc hm
      cases p with
      | none => exact ⟨hc, fun hno => nomatch hno⟩
      | some b => exact ⟨hc, fun _ => ⟨Nat.zero_le _, hn⟩⟩

/-- Bytes are stored at `pos`, where the buffer has room for them, after it may have been
made larger. -/
theorem put_owned {src : List UInt8} {rc : ℤ} {p : Ptr} {n : ℕ} {h' : Heap UInt8}
    (hc : Heap.Conserves [ctx.buf] [p] h h') (hn : n ≤ ptrdiffMax)
    (hroom : ctx.pos + src.length ≤ n) :
    Faultless (do
      let h ← h'.write p ctx.pos src
      pure (⟨rc, { buf := p, size := n, pos := sizeAdd ctx.pos src.length }, h⟩ : Done ℤ))
      (Owned ctx h) := by
  refine Heap.conserves_write.bind fun h'' hc' => ⟨hc.trans hc', ?_, hn⟩
  exact (Nat.mod_le _ _).trans hroom

/-- What is owned after two calls is owned after both. -/
theorem Owned.after {ctx' : DynstringContext} {h' : Heap UInt8} {r : Done ο}
    (hc : Heap.Conserves [ctx.buf] [ctx'.buf] h h') (hr : Owned ctx' h' r) : Owned ctx h r :=
  ⟨hc.trans hr.1, hr.2⟩

/-- A character is appended to the block owned. -/
theorem appendchar_owned (hfits : Fits ctx) (c : ℤ) (h : Heap UInt8) :
    Faultless (dynstringAppendchar A ctx c h) (Owned ctx h) := by
  have h64 : sizeAdd ctx.size 64 = ctx.size + 64 :=
    sizeAdd_eq hfits.2 (by unfold ptrdiffMax; omega)
  unfold dynstringAppendchar
  by_cases hfull : ctx.pos ≥ ctx.size
  · dsimp only
    rw [if_pos hfull]
    rw [h64]
    refine (Heap.conserves_realloc (Nat.succ_ne_zero _)).bind ?_
    rintro ⟨newbuf, h'⟩ ⟨hc, hle⟩
    cases newbuf with
    | none => exact ⟨hc, hfits⟩
    | some b =>
        have hroom : ctx.pos + 1 ≤ ctx.size + 64 := by
          have hpos := hfits.1
          omega
        exact put_owned hc (hle (by simp)) hroom
  · dsimp only
    rw [if_neg hfull]
    exact put_owned (Heap.Conserves.refl _ _) hfits.2 (Nat.lt_of_not_ge hfull)

/-- So is a string. -/
theorem appendstring_owned (hfits : Fits ctx) {str : List UInt8} (hlen : str.length ≤ ptrdiffMax)
    (h : Heap UInt8) : Faultless (dynstringAppendstring A ctx str h) (Owned ctx h) := by
  obtain ⟨hpos, hsize⟩ := hfits
  have hgrow : sizeAdd ctx.size str.length = ctx.size + str.length :=
    sizeAdd_eq hsize (hlen.trans (Nat.le_succ _))
  have hneed : sizeAdd str.length ctx.pos = str.length + ctx.pos :=
    sizeAdd_eq hlen ((hpos.trans hsize).trans (Nat.le_succ _))
  unfold dynstringAppendstring
  dsimp only
  by_cases hempty : str.length = 0
  · rw [if_pos hempty]
    exact ⟨Heap.Conserves.refl _ _, hpos, hsize⟩
  · rw [if_neg hempty]
    by_cases hfull : sizeAdd str.length ctx.pos ≥ ctx.size
    · rw [if_pos hfull]
      rw [hgrow]
      refine (Heap.conserves_realloc (by omega)).bind ?_
      rintro ⟨newbuf, h'⟩ ⟨hc, hle⟩
      cases newbuf with
      | none => exact ⟨hc, hpos, hsize⟩
      | some b =>
          have hroom : ctx.pos + str.length ≤ ctx.size + str.length := by omega
          exact put_owned hc (hle (by simp)) hroom
    · rw [if_neg hfull]
      rw [hneed] at hfull
      exact put_owned (Heap.Conserves.refl _ _) hsize (by omega)

/-- So are several. -/
theorem appendstringzVa_owned (args : List CString) (hfits : Fits ctx) (rc : ℤ) (h : Heap UInt8) :
    Faultless (dynstringAppendstringzVa A ctx rc args h) (Owned ctx h) := by
  induction args generalizing ctx rc h with
  | nil => exact ⟨Heap.Conserves.refl _ _, hfits⟩
  | cons str args ih =>
      unfold dynstringAppendstringzVa
      refine (appendstring_owned hfits str.length_lt.le h).bind fun r hr => ?_
      by_cases hout : r.out ≠ 0
      · rw [if_pos hout]
        exact hr
      · rw [if_neg hout]
        exact (ih hr.2 r.out r.heap).mono fun r' hr' => hr'.after hr.1

/-- `compact` owns the block it has shrunk. -/
theorem compact_owned (hfits : Fits ctx) (h : Heap UInt8) :
    Faultless (dynstringCompact A ctx h) fun r =>
      Heap.Conserves [ctx.buf] [r.ctx.buf] h r.heap := by
  have hone : sizeAdd ctx.pos 1 = ctx.pos + 1 :=
    sizeAdd_eq (hfits.1.trans hfits.2) (Nat.le_add_left _ _)
  unfold dynstringCompact
  refine (Heap.conserves_realloc (by omega)).bind ?_
  rintro ⟨newbuf, h'⟩ ⟨hc, -⟩
  cases newbuf with
  | none => exact hc
  | some b => exact hc

/-- `free` owns nothing any more. -/
theorem free_owned (ctx : DynstringContext) (h : Heap UInt8) :
    Faultless (dynstringFree ctx h) fun r => Heap.Conserves [ctx.buf] [] h r.heap :=
  Heap.conserves_free.bind fun _ hc => hc

/-- The position has no part in it. -/
theorem reposition_owned {r : Done ℤ} (p : Ptr) (pos : ℕ)
    (hr : Heap.Conserves [ctx.buf] [r.ctx.buf] h r.heap) :
    Faultless (.ok (⟨p, { r.ctx with pos := pos }, r.heap⟩ : Done Ptr)) fun r =>
      Heap.Conserves [ctx.buf] [r.ctx.buf] h r.heap := hr

/-- `getcstring` keeps the block it returns. -/
theorem getcstring_owned (hfits : Fits ctx) (h : Heap UInt8) :
    Faultless (dynstringGetcstring A ctx h) fun r =>
      Heap.Conserves [ctx.buf] [r.ctx.buf] h r.heap := by
  have happend := appendchar_owned (A := A) hfits 0 h
  unfold dynstringGetcstring
  dsimp only
  cases he : dynstringAppendchar A ctx 0 h with
  | error e =>
      split
      · cases hread : h.read ctx.buf ctx.pos with
        | error e' => trivial
        | ok c =>
            rw [ok_bind]
            split
            · exact Heap.Conserves.refl _ _
            · trivial
      · trivial
  | ok r =>
      have hr := (happend.of_ok he).1
      rw [ok_bind]
      split
      · cases hread : h.read ctx.buf ctx.pos with
        | error e' => trivial
        | ok c =>
            rw [ok_bind]
            split
            · exact Heap.Conserves.refl _ _
            · exact reposition_owned ctx.buf _ hr
      · exact reposition_owned ctx.buf _ hr

/-- `dynstring_detachcstring` hands its buffer over. -/
theorem detachcstring_owned (hfits : Fits ctx) (h : Heap UInt8) :
    Faultless (dynstringDetachcstring A ctx h) fun r =>
      Heap.Conserves [ctx.buf] [r.out] h r.heap ∧ r.ctx.buf = none := by
  unfold dynstringDetachcstring
  refine (appendchar_owned hfits 0 h).bind fun r hr => ?_
  refine (compact_owned hr.2 r.heap).bind fun r' hr' => ?_
  exact ⟨hr.1.trans hr', rfl⟩

/-! ## The download -/

/-- The callback appends to the block owned. -/
theorem writedata_owned (hfits : Fits ctx) (ptr : CBytes) (h : Heap UInt8) :
    Faultless (dynstringhttpWritedatatodynstring A ptr ctx h) (Owned ctx h) := by
  unfold dynstringhttpWritedatatodynstring
  split
  · exact ⟨Heap.Conserves.refl _ _, hfits⟩
  · refine (appendstring_owned hfits ptr.length_le h).bind fun r hr => ?_
    split
    · exact hr
    · exact hr

/-- So does the transfer. -/
theorem perform_owned (chunks : List CBytes) (hfits : Fits ctx) (h : Heap UInt8) :
    Faultless (curlEasyPerform A chunks ctx h) (Owned ctx h) := by
  induction chunks generalizing ctx h with
  | nil => exact ⟨Heap.Conserves.refl _ _, hfits⟩
  | cons chunk chunks ih =>
      unfold curlEasyPerform
      refine (writedata_owned hfits chunk h).bind fun r hr => ?_
      split
      · exact (ih hr.2 r.heap).mono fun r' hr' => hr'.after hr.1
      · exact hr

/-- So does the download. -/
theorem appendfromurl_owned (curl : Curl) (hfits : Fits ctx) (url : List UInt8)
    (h : Heap UInt8) : Faultless (dynstringhttpAppendfromurl A curl ctx url h) (Owned ctx h) := by
  unfold dynstringhttpAppendfromurl
  refine (perform_owned (curl.chunks url) hfits h).bind fun r hr => ?_
  split
  · exact hr
  · exact hr

end AzureMetadata.Analysis
