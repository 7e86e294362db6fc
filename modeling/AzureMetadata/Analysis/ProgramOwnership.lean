import AzureMetadata.Analysis.DynstringOwnership
import AzureMetadata.Model.GetpfxfileMain

/-!
# What the program leaves allocated

Each request is given no block and leaves its caller the string it returns, whatever fails
on the way, and the program leaves nothing.
-/

set_option autoImplicit false

namespace AzureMetadata.Analysis

open Clib Clib.Heap AzureMetadata.Model

variable {A : Allocator UInt8} {h : Heap UInt8}

/-- At the end both buffers are released and the result is kept. -/
theorem finish_owned (buf hdr : DynstringContext) (p : Ptr) (h : Heap UInt8) :
    Faultless (finish buf hdr p h) fun r =>
      r.1 = p ∧ Conserves [buf.buf, hdr.buf] [] h r.2 := by
  unfold finish
  refine (free_owned hdr h).bind fun r hr => ?_
  refine (free_owned buf r.heap).bind fun r' hr' => ⟨rfl, ?_⟩
  have hframe := hr.frame [buf.buf]
  exact (hframe.trans hr').congr (fun b => by simp [or_comm]) fun _ => Iff.rfl

/-- The common first part leaves the blocks of its two contexts. -/
theorem fetchMember_owned (json_decode : JsonDecoder) (A : Allocator UInt8) (curl : Curl)
    (url name : List UInt8) (h : Heap UInt8) :
    Faultless (fetchMember json_decode A curl url name h) fun f =>
      Conserves [] [f.buf.buf, f.hdr.buf] h f.heap ∧ (f.value ≠ none → Fits f.hdr) := by
  have hmax : 8192 ≤ ptrdiffMax := by
    unfold ptrdiffMax
    omega
  obtain ⟨hbuf, hfits⟩ := initialise_owned A { buf := none, size := 0, pos := 0 } hmax h
  unfold fetchMember
  dsimp only
  generalize dynstringInitialise A { buf := none, size := 0, pos := 0 } 8192 h = r₁ at *
  by_cases hout : r₁.out ≠ 0
  · rw [if_pos hout]
    exact ⟨hbuf.congr (fun _ => Iff.rfl) (by simp), fun hno => absurd rfl hno⟩
  · rw [if_neg hout]
    obtain ⟨hhdr, hfits'⟩ := initialise_owned A { buf := none, size := 0, pos := 0 }
      ((by decide : 4096 ≤ 8192).trans hmax) r₁.heap
    generalize dynstringInitialise A { buf := none, size := 0, pos := 0 } 4096 r₁.heap = r₂ at *
    have hboth : Conserves [] [r₁.ctx.buf, r₂.ctx.buf] h r₂.heap := hbuf.trans (hhdr.behind _)
    by_cases hout' : r₂.out ≠ 0
    · rw [if_pos hout']
      exact ⟨hboth, fun hno => absurd rfl hno⟩
    · rw [if_neg hout']
      refine (appendfromurl_owned curl (hfits (not_not.mp hout)) url r₂.heap).bind fun r₃ hr₃ => ?_
      have hdown : Conserves [] [r₃.ctx.buf, r₂.ctx.buf] h r₃.heap :=
        hboth.trans (hr₃.1.frame [r₂.ctx.buf])
      by_cases hout'' : r₃.out ≠ 0
      · rw [if_pos hout'']
        exact ⟨hdown, fun hno => absurd rfl hno⟩
      · rw [if_neg hout'']
        refine (getcstring_owned hr₃.2 r₃.heap).bind fun r₄ hr₄ => ?_
        cases r₄.heap.cString r₄.out with
        | none => trivial
        | some json =>
            exact ⟨hdown.trans (hr₄.frame [r₂.ctx.buf]), fun _ => hfits' (not_not.mp hout')⟩

/-- The string is handed over, and the rest released. -/
theorem handover_owned {f : Fetched} {hdr : DynstringContext} {h' : Heap UInt8} {ps : List Ptr}
    (hfits : Fits hdr) (hc : Conserves ps [f.buf.buf, hdr.buf] h h') :
    Faultless (do
      let d ← dynstringDetachcstring A hdr h'
      finish f.buf d.ctx d.out d.heap) fun r => Conserves ps [r.1] h r.2 := by
  refine (detachcstring_owned hfits h').bind fun d hd => ?_
  refine (finish_owned f.buf d.ctx d.out d.heap).mono fun r hr => ?_
  have hfinish : Conserves [f.buf.buf, d.out] [d.out] d.heap r.2 :=
    (hr.2.frame [d.out]).congr (fun b => by simp [hd.2]) fun _ => Iff.rfl
  rw [hr.1]
  exact (hc.trans (hd.1.behind _)).trans hfinish

/-- The token's block is all that the call leaves. -/
theorem getmetadatatoken_owned (json_decode : JsonDecoder) (A : Allocator UInt8) (curl : Curl)
    (junk : ℤ) (h : Heap UInt8) :
    Faultless (getmetadatatoken json_decode A curl junk h) fun r => Conserves [] [r.1] h r.2 := by
  unfold getmetadatatoken
  refine (fetchMember_owned json_decode A _ metadataUrl _ h).bind fun f hf => ?_
  cases hv : f.value with
  | none =>
      refine (finish_owned f.buf f.hdr none f.heap).mono fun r hr => ?_
      rw [hr.1]
      exact (hf.1.trans hr.2).congr (fun _ => Iff.rfl) (by simp)
  | some string_ =>
      have hfits := hf.2 (by rw [hv]; simp)
      refine (appendstringzVa_owned [bearer, string_] hfits junk f.heap).bind fun r hr => ?_
      have hc : Conserves [] [f.buf.buf, r.ctx.buf] h r.heap :=
        hf.1.trans (hr.1.behind _)
      by_cases hout : r.out ≠ 0
      · rw [if_pos hout]
        refine (finish_owned f.buf r.ctx none r.heap).mono fun r' hr' => ?_
        rw [hr'.1]
        exact (hc.trans hr'.2).congr (fun _ => Iff.rfl) (by simp)
      · rw [if_neg hout]
        exact handover_owned hr.2 hc

/-- So is the document's. -/
theorem getpfxfile_owned (json_decode : JsonDecoder) (A : Allocator UInt8) (curl : Curl)
    (auth_header : List UInt8) (junk : ℤ) (h : Heap UInt8) :
    Faultless (getpfxfile json_decode A curl auth_header junk h) fun r =>
      Conserves [] [r.1] h r.2 := by
  unfold getpfxfile
  refine (fetchMember_owned json_decode A _ secretUrl _ h).bind fun f hf => ?_
  cases hv : f.value with
  | none =>
      refine (finish_owned f.buf f.hdr none f.heap).mono fun r hr => ?_
      rw [hr.1]
      exact (hf.1.trans hr.2).congr (fun _ => Iff.rfl) (by simp)
  | some string_ =>
      have hfits := hf.2 (by rw [hv]; simp)
      refine (appendstringzVa_owned [string_] hfits junk f.heap).bind fun r hr => ?_
      exact handover_owned hr.2 (hf.1.trans (hr.1.behind _))

/-- **The program leaves nothing allocated.** -/
theorem getpfxfileMain_owned (json_decode : JsonDecoder) (A : Allocator UInt8)
    (curl : Option Curl) (junk junk' : ℤ) (h : Heap UInt8) :
    Faultless (getpfxfileMain json_decode A curl junk junk' h) fun r =>
      Conserves [] [] h r.heap := by
  cases curl with
  | none => exact Conserves.refl _ _
  | some curl =>
      unfold getpfxfileMain
      refine (getmetadatatoken_owned json_decode A curl junk h).bind ?_
      rintro ⟨auth_hdr, h₁⟩ h₁c
      by_cases hnone : auth_hdr = none
      · subst hnone
        exact Conserves.congr h₁c (fun _ => Iff.rfl) (by simp)
      · dsimp only
        rw [if_neg hnone]
        cases hstr : stringAt auth_hdr h₁ with
        | error e => trivial
        | ok auth_header =>
            rw [ok_bind]
            refine (getpfxfile_owned json_decode A curl auth_header junk' h₁).bind ?_
            rintro ⟨pfx_b64, h₂⟩ h₂c
            have hboth : Conserves [] [auth_hdr, pfx_b64] h h₂ := h₁c.trans (h₂c.behind _)
            refine conserves_free.bind fun h₃ h₃c => ?_
            have hone : Conserves [] [pfx_b64] h h₃ := hboth.trans (h₃c.frame [pfx_b64])
            by_cases hnone' : pfx_b64 = none
            · rw [if_pos hnone']
              exact hone.congr (fun _ => Iff.rfl) (by simp [hnone'])
            · rw [if_neg hnone']
              cases hstr' : stringAt pfx_b64 h₃ with
              | error e => trivial
              | ok secret => exact conserves_free.bind fun h₄ h₄c => hone.trans h₄c

end AzureMetadata.Analysis
