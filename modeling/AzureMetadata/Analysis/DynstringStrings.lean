import AzureMetadata.Analysis.DynstringFailures

/-!
# Appending a list of strings

`dynstring_appendstringz` returns what its last append returned, and nothing is assigned to
what it returns when there is no string.  `Appended` and `appendstringzVa_stops` say how far
its loop comes; the order of the strings and the bytes they add follow from them.
-/

set_option autoImplicit false

namespace AzureMetadata.Analysis

open Clib AzureMetadata.Model AzureMetadata.Interface

variable {A : Allocator UInt8} {h h' : Heap UInt8} {ctx ctx' : DynstringContext}
  {t t' : List UInt8}

/-- A context stands for one byte string. -/
theorem represents_unique (hr : Represents h ctx t) (hr' : Represents h ctx t') : t = t' := by
  obtain ⟨cells, hh, hlen, htake⟩ := hr.buffer
  obtain ⟨cells', hh', hlen', htake'⟩ := hr'.buffer
  cases hbuf : ctx.buf with
  | none =>
      have hnil := (represents_none hr hbuf).2
      have hnil' := (represents_none hr' hbuf).2
      rw [hnil, hnil']
  | some b =>
      rw [hbuf] at hh hh'
      have hcells : cells = cells' := Option.some.inj (hh.2.symm.trans hh'.2)
      rw [← htake, ← htake', hcells]

/-- What a call of `dynstring_appendstringz` on a context that stands for `t` is to do: it
returns 0 exactly when all the strings are there, and else -1, with the strings before the
one whose append has failed. -/
def AppendsInOrder (A : Allocator UInt8) (h : Heap UInt8) (ctx : DynstringContext)
    (t : List UInt8) (args : List CString) (r : Except Fault (Done ℤ)) : Prop :=
  ∃ rc ctx' h' t', r = .ok ⟨rc, ctx', h'⟩ ∧ Represents h' ctx' t' ∧
    (rc = 0 ↔ t' = t ++ args.flatMap CString.bytes) ∧
    (rc ≠ 0 → rc = -1 ∧ ∃ before str after ctx₁ h₁, args = before ++ str :: after ∧
      Appended A ctx h before ctx₁ h₁ ∧
      dynstringAppendstring A ctx₁ str.bytes h₁ = .ok ⟨-1, ctx', h'⟩ ∧
      t' = t ++ before.flatMap CString.bytes)

/-- The bytes of a string that was not appended are missing. -/
theorem before_ne_all {before after : List CString} {str : CString} (hne : str.bytes ≠ []) :
    t ++ before.flatMap CString.bytes ≠
      t ++ (before ++ str :: after).flatMap CString.bytes := by
  intro hsame
  rw [List.flatMap_append, List.flatMap_cons] at hsame
  have hlen := congrArg List.length hsame
  have hpos := List.length_pos_of_ne_nil hne
  simp only [List.length_append] at hlen
  omega

/-- With at least one string the call keeps its contract. -/
theorem appendsInOrder_strings (hr : Represents h ctx t) {args : List CString} (hargs : args ≠ [])
    (junk : ℤ) : AppendsInOrder A h ctx t args (dynstringAppendstringz A junk ctx args h) := by
  rcases appendstringzVa_stops (A := A) args junk hr with
    ⟨ctx', h', happended, he⟩ |
    ⟨before, str, after, ctx', h', hsplit, happended, hne, -, hfail, he⟩
  · rw [if_neg hargs] at he
    have hall := (happended.succeeds hr).1.represents
    exact ⟨0, ctx', h', _, he, hall, iff_of_true rfl rfl, fun hcode => absurd rfl hcode⟩
  · have hbefore := represents_refuse (happended.succeeds hr).1.represents
    refine ⟨-1, ctx', h'.refuse, _, he, hbefore, ?_, ?_⟩
    · rw [hsplit]
      exact iff_of_false (by decide) (before_ne_all hne)
    · intro _
      exact ⟨rfl, before, str, after, ctx', h', hsplit, happended, hfail, rfl⟩

/-- Without a string the result is what the local variable `rc` held. -/
theorem appendsInOrder_nil_iff (hr : Represents h ctx t) (junk : ℤ) :
    AppendsInOrder A h ctx t [] (dynstringAppendstringz A junk ctx [] h) ↔ junk = 0 := by
  constructor
  · rintro ⟨rc, ctx', h', t', he, hr', hcode, -⟩
    cases he
    rw [List.flatMap_nil, List.append_nil] at hcode
    exact hcode.mpr (represents_unique hr' hr)
  · intro hjunk
    refine ⟨junk, ctx, h, t, rfl, hr, ?_, fun hcode => absurd hjunk hcode⟩
    rw [List.flatMap_nil, List.append_nil]
    exact iff_of_true hjunk rfl

/-- **A list of strings is appended in order, up to the first failure.**  The result says
which exactly when there is a string, or the variable that is not assigned holds 0. -/
theorem appendstringz_in_order_iff (A : Allocator UInt8) {ctx : DynstringContext}
    {t : List UInt8} {h : Heap UInt8} (hr : Represents h ctx t) (junk : ℤ)
    (args : List CString) :
    AppendsInOrder A h ctx t args (dynstringAppendstringz A junk ctx args h) ↔
      args ≠ [] ∨ junk = 0 := by
  cases args with
  | nil =>
      rw [appendsInOrder_nil_iff hr]
      exact (or_iff_right (not_not_intro rfl)).symm
  | cons str args =>
      have hargs := List.cons_ne_nil str args
      exact iff_of_true (appendsInOrder_strings hr hargs junk) (Or.inl hargs)

/-- Two strings on a context without a buffer, where memory for the second is refused. -/
theorem appendstringz_in_order_iff_refused :
    ∃ a b : CString, a.bytes = ascii "a" ∧ b.bytes = ascii "b" ∧
      AppendsInOrder onlyFirst Heap.empty ⟨none, 0, 0⟩ [] [a, b]
        (dynstringAppendstringz onlyFirst 7 ⟨none, 0, 0⟩ [a, b] Heap.empty) := by
  refine ⟨⟨ascii "a", by decide, by decide +kernel⟩, ⟨ascii "b", by decide, by decide +kernel⟩,
    rfl, rfl, ?_⟩
  apply (appendstringz_in_order_iff onlyFirst (represents_null Heap.empty) 7 _).mpr
  exact Or.inl (List.cons_ne_nil _ _)

/-- Without a string nothing fails and nothing is missing, and the call returns the 5 that
happened to be in `rc`. -/
theorem appendstringz_nothing_returns_junk :
    dynstringAppendstringz (generous true 7) 5 ⟨none, 0, 0⟩ [] Heap.empty =
        .ok ⟨5, ⟨none, 0, 0⟩, Heap.empty⟩ ∧
      ¬ AppendsInOrder (generous true 7) Heap.empty ⟨none, 0, 0⟩ [] []
        (dynstringAppendstringz (generous true 7) 5 ⟨none, 0, 0⟩ [] Heap.empty) := by
  refine ⟨rfl, ?_⟩
  intro h
  have hzero := (appendsInOrder_nil_iff (represents_null Heap.empty) 5).mp h
  cases hzero

end AzureMetadata.Analysis
