import AzureMetadata.Clib.Blocks
import Mathlib.Logic.Function.Basic

/-!
# A C heap with a demonic allocator

Blocks have numbers, and a pointer is `NULL` or the number of a block: every
pointer of the programs modelled over this heap is the start of a block.  What the
allocator does is fixed in advance by an `Allocator`: its `k`-th answer says whether
the `k`-th request is granted, whether `realloc` moves the block, and what the cells
it adds hold.  A request over `PTRDIFF_MAX` is never granted.  A read or a write
through `NULL`, in a released block or past a block's end is a `Fault`.

`Heap.Holds h p cells` says what a pointer points to, and `Heap.Evolves p p' h h'`
what an operation may do to the heap when it is given the block of `p` and leaves
that of `p'`: all the other blocks are as they were.  `realloc_granted`,
`realloc_refused` and `write_ok` are the rules a proof over this heap uses.
-/

set_option autoImplicit false

namespace Clib

/-- The undefined behaviour an execution stops at. -/
inductive Fault
  | nullPointer
  | releasedBlock
  | outOfBounds
  | signedOverflow
deriving DecidableEq, Repr

section Bind

variable {β γ : Type}

/-- A call that is no fault goes on with its result. -/
@[simp] theorem ok_bind (b : β) (f : β → Except Fault γ) : (Except.ok b >>= f) = f b := rfl

/-- To return a value is no fault. -/
@[simp] theorem pure_eq_ok (b : β) : (pure b : Except Fault β) = .ok b := rfl

end Bind

/-- A pointer: `NULL`, or the start of the block with that number. -/
abbrev Ptr := Option ℕ

/-- What the allocator does with one request. -/
structure Answer (α : Type) where
  granted : Bool
  moved : Bool
  fill : ℕ → α

/-- The answers to all requests of a run, in the order the requests are made. -/
abbrev Allocator (α : Type) := ℕ → Answer α

/-- The allocator that grants every request, fills new cells with `x`, and moves
resized blocks as `moved` says. -/
def generous {α : Type} (moved : Bool) (x : α) : Allocator α := fun _ => ⟨true, moved, fun _ => x⟩

/-- The blocks that are live, and how many requests were made and refused so far.
No block with number `next` or above has been handed out. -/
structure Heap (α : Type) where
  blocks : ℕ → Option (List α)
  next : ℕ
  requests : ℕ
  refusals : ℕ

namespace Heap

variable {α : Type}

/-- The heap of a program that has not allocated yet. -/
def empty : Heap α := ⟨fun _ => none, 0, 0, 0⟩

/-- Whether a request for `n` cells would be granted now. -/
def grants (A : Allocator α) (n : ℕ) (h : Heap α) : Bool :=
  (A h.requests).granted && decide (n ≤ ptrdiffMax)

/-- The heap after a request was refused. -/
def refuse (h : Heap α) : Heap α :=
  { h with requests := h.requests + 1, refusals := h.refusals + 1 }

/-- The heap after block `b` was given the cells `cells`. -/
def put (b : ℕ) (cells : List α) (h : Heap α) : Heap α :=
  { h with blocks := Function.update h.blocks b (some cells) }

/-- The heap after block `b` was released. -/
def release (b : ℕ) (h : Heap α) : Heap α :=
  { h with blocks := Function.update h.blocks b none }

/-- `malloc(n)`. -/
def malloc (A : Allocator α) (n : ℕ) (h : Heap α) : Ptr × Heap α :=
  if h.grants A n then
    (some h.next, { h.put h.next (resize (A h.requests).fill [] n) with
      next := h.next + 1, requests := h.requests + 1 })
  else
    (none, h.refuse)

/-- `realloc(p, n)`; of size 0 it releases the block, as the C library does. -/
def realloc (A : Allocator α) (p : Ptr) (n : ℕ) (h : Heap α) : Except Fault (Ptr × Heap α) :=
  match p with
  | none => .ok (h.malloc A n)
  | some b =>
    match h.blocks b with
    | none => .error .releasedBlock
    | some old =>
      if n = 0 then
        .ok (none, { h.release b with requests := h.requests + 1 })
      else if h.grants A n then
        let cells := resize (A h.requests).fill old n
        if (A h.requests).moved then
          .ok (some h.next, { (h.release b).put h.next cells with
            next := h.next + 1, requests := h.requests + 1 })
        else
          .ok (some b, { h.put b cells with requests := h.requests + 1 })
      else
        .ok (none, h.refuse)

/-- `free(p)`. -/
def free (p : Ptr) (h : Heap α) : Except Fault (Heap α) :=
  match p with
  | none => .ok h
  | some b =>
    match h.blocks b with
    | none => .error .releasedBlock
    | some _ => .ok (h.release b)

/-- Store `src` in the cells of the block of `p` from `i` on (`memcpy`, or an
assignment when `src` is one cell). -/
def write (p : Ptr) (i : ℕ) (src : List α) (h : Heap α) : Except Fault (Heap α) :=
  match p with
  | none => .error .nullPointer
  | some b =>
    match h.blocks b with
    | none => .error .releasedBlock
    | some cells =>
      if i + src.length ≤ cells.length then .ok (h.put b (overwrite cells i src))
      else .error .outOfBounds

/-- Load cell `i` of the block of `p`. -/
def read (p : Ptr) (i : ℕ) (h : Heap α) : Except Fault α :=
  match p with
  | none => .error .nullPointer
  | some b =>
    match h.blocks b with
    | none => .error .releasedBlock
    | some cells =>
      match cells[i]? with
      | none => .error .outOfBounds
      | some v => .ok v

/-- The NUL-terminated string at `p`; `none` if there is no block or nothing in it
ends the string. -/
def cString [Zero α] [DecidableEq α] (p : Ptr) (h : Heap α) : Option (List α) :=
  (p.bind h.blocks).bind Clib.cString

/-! ## What a pointer points to -/

/-- `p` points to a live block with these cells; `NULL` counts as a block of none. -/
def Holds (h : Heap α) (p : Ptr) (cells : List α) : Prop :=
  match p with
  | none => cells = []
  | some b => b < h.next ∧ h.blocks b = some cells

/-- The null pointer holds the empty block only. -/
@[simp] theorem holds_none {h : Heap α} {cells : List α} : h.Holds none cells ↔ cells = [] :=
  Iff.rfl

/-- The heap has gone from `h` to `h'` by an operation that owned the block of `p`
before and owns that of `p'` after: the other blocks are untouched, and `p'` is
`p` or is new. -/
structure Evolves (p p' : Ptr) (h h' : Heap α) : Prop where
  next_le : h.next ≤ h'.next
  untouched : ∀ b, b < h.next → some b ≠ p → h'.blocks b = h.blocks b
  same_or_new : ∀ b, p' = some b → some b = p ∨ h.next ≤ b

/-- A heap that is left as it is has evolved. -/
theorem Evolves.refl (p : Ptr) (h : Heap α) : Evolves p p h h :=
  ⟨le_rfl, fun _ _ _ => rfl, fun _ hb => Or.inl hb.symm⟩

/-- Two operations on the same block, one after the other. -/
theorem Evolves.trans {p q r : Ptr} {h₁ h₂ h₃ : Heap α} (h : Evolves p q h₁ h₂)
    (h' : Evolves q r h₂ h₃) : Evolves p r h₁ h₃ := by
  refine ⟨h.next_le.trans h'.next_le, ?_, ?_⟩
  · intro b hb hne
    have hq : some b ≠ q := by
      intro he
      cases h.same_or_new b he.symm with
      | inl hp => exact hne hp
      | inr hnew => omega
    rw [h'.untouched b (hb.trans_le h.next_le) hq, h.untouched b hb hne]
  · intro b hb
    cases h'.same_or_new b hb with
    | inl hq => exact h.same_or_new b hq.symm
    | inr hnew => exact Or.inr (h.next_le.trans hnew)

/-- The two pointers do not point to one block; `NULL` is apart from everything. -/
def Apart (p q : Ptr) : Prop := ∀ b, p = some b → q ≠ some b

/-- The null pointer is apart from every pointer. -/
@[simp] theorem apart_none_right (p : Ptr) : Apart p none := fun _ _ hq => nomatch hq

/-- Pointers are apart from each other. -/
theorem Apart.symm {p q : Ptr} (hap : Apart p q) : Apart q p := fun b hq hp => hap b hp hq

/-- The frame rule: what another pointer points to is as it was. -/
theorem Evolves.frame {p q c : Ptr} {h h' : Heap α} (he : Evolves p q h h') {cells : List α}
    (hap : Apart c p) (hc : h.Holds c cells) : h'.Holds c cells := by
  cases c with
  | none => exact hc
  | some b =>
      obtain ⟨hlt, hcells⟩ := hc
      have hne : some b ≠ p := fun hp => hap b rfl hp.symm
      exact ⟨hlt.trans_le he.next_le, by rw [he.untouched b hlt hne, hcells]⟩

/-- The block an operation ends with is not another one that was live before. -/
theorem Evolves.apart {p q c : Ptr} {h h' : Heap α} (he : Evolves p q h h') {cells : List α}
    (hap : Apart c p) (hc : h.Holds c cells) : Apart c q := by
  rintro b rfl hq
  cases he.same_or_new b hq with
  | inl hp => exact hap b rfl hp.symm
  | inr hnew =>
      have hlt := hc.1
      omega

/-! ## Requests -/

/-- The allocator grants the next `k` requests that are not too large. -/
def GrantsNext (A : Allocator α) (k : ℕ) (h : Heap α) : Prop :=
  ∀ i < k, (A (h.requests + i)).granted = true

/-- From `h` to `h'` there were `k` requests, and each was granted. -/
structure Costs (A : Allocator α) (k : ℕ) (h h' : Heap α) : Prop where
  requests : h'.requests = h.requests + k
  granted : h.GrantsNext A k

section Requests

variable {A : Allocator α} {h h' h'' : Heap α} {k l n : ℕ}

/-- A call that requests nothing costs nothing. -/
theorem costs_zero (hreq : h'.requests = h.requests) : Costs A 0 h h' :=
  ⟨hreq, fun _ hi => absurd hi (Nat.not_lt_zero _)⟩

/-- A request that is granted costs one. -/
theorem costs_one (hg : h.grants A n = true) (hreq : h'.requests = h.requests + 1) :
    Costs A 1 h h' := by
  refine ⟨hreq, ?_⟩
  intro i hi
  rw [Nat.lt_one_iff.mp hi]
  simp only [grants, Bool.and_eq_true] at hg
  exact hg.1

/-- The costs of two calls add up. -/
theorem Costs.trans (hc : Costs A k h h') (hc' : Costs A l h' h'') : Costs A (k + l) h h'' := by
  refine ⟨by rw [hc'.requests, hc.requests, Nat.add_assoc], ?_⟩
  intro i hi
  by_cases hik : i < k
  · exact hc.granted i hik
  · have hlater := hc'.granted (i - k) (by omega)
    rwa [hc.requests, Nat.add_assoc, Nat.add_sub_of_le (Nat.le_of_not_lt hik)] at hlater

/-- What is granted for both calls is granted for the second. -/
theorem GrantsNext.rest (hg : h.GrantsNext A (k + l)) (hreq : h'.requests = h.requests + k) :
    h'.GrantsNext A l := by
  intro i hi
  rw [hreq, Nat.add_assoc]
  exact hg (k + i) (by omega)

/-- What is granted for more requests is granted for fewer. -/
theorem GrantsNext.mono (hg : h.GrantsNext A k) (hl : l ≤ k) : h.GrantsNext A l :=
  fun i hi => hg i (hi.trans_le hl)

/-- A request that is granted and not too large is not refused. -/
theorem GrantsNext.grants (hg : h.GrantsNext A k) (hn : n ≤ ptrdiffMax) (hk : 0 < k) :
    h.grants A n = true := by
  have hfirst := hg 0 hk
  rw [Nat.add_zero] at hfirst
  simp only [Heap.grants, hfirst, hn, decide_true, Bool.and_true]

/-- A refused request that is not too large is one that the allocator did not grant. -/
theorem not_grantsNext (hg : h.grants A n = false) (hn : n ≤ ptrdiffMax) (hk : 0 < k) :
    ¬ h.GrantsNext A k := by
  intro hnext
  rw [hnext.grants hn hk] at hg
  cases hg

/-- The generous allocator grants any number of requests. -/
theorem grantsNext_generous (moved : Bool) (x : α) (k : ℕ) (h : Heap α) :
    h.GrantsNext (generous moved x) k := fun _ _ => rfl

end Requests

/-! ## The rules of the operations -/

/-- A refusal leaves every block. -/
@[simp] theorem refuse_holds {h : Heap α} {p : Ptr} {cells : List α} :
    h.refuse.Holds p cells ↔ h.Holds p cells := by
  cases p <;> rfl

/-- So the heap has evolved. -/
theorem evolves_refuse (p : Ptr) (h : Heap α) : Evolves p p h h.refuse :=
  ⟨le_rfl, fun _ _ _ => rfl, fun _ hb => Or.inl hb.symm⟩

/-- A request that is granted is not above `PTRDIFF_MAX`. -/
theorem le_ptrdiffMax_of_grants {A : Allocator α} {n : ℕ} {h : Heap α}
    (hg : h.grants A n = true) : n ≤ ptrdiffMax := by
  simp only [grants, Bool.and_eq_true, decide_eq_true_eq] at hg
  exact hg.2

/-- `malloc`, granted: a new block of `n` cells. -/
theorem malloc_granted {A : Allocator α} {n : ℕ} {h : Heap α} (hg : h.grants A n = true) :
    ∃ b cells h', h.malloc A n = (some b, h') ∧ h'.Holds (some b) cells ∧
      cells.length = n ∧ Evolves none (some b) h h' ∧
      h'.requests = h.requests + 1 ∧ h'.refusals = h.refusals := by
  refine ⟨h.next, resize (A h.requests).fill [] n,
    { h.put h.next (resize (A h.requests).fill [] n) with
      next := h.next + 1, requests := h.requests + 1 },
    if_pos hg, ?_, by simp, ?_, rfl, rfl⟩
  · exact ⟨Nat.lt_succ_self _, Function.update_self ..⟩
  · refine ⟨Nat.le_succ _, ?_, ?_⟩
    · intro b hb _
      exact Function.update_of_ne (by omega) ..
    · intro b hb
      cases hb
      exact Or.inr le_rfl

/-- A `malloc` that is refused returns `NULL`. -/
theorem malloc_refused {A : Allocator α} {n : ℕ} {h : Heap α} (hg : h.grants A n = false) :
    h.malloc A n = (none, h.refuse) := by
  simp [malloc, hg]

/-- `realloc`, granted: a block of `n` cells that begins as the old one did.  It is
the old block exactly when there was one and the allocator did not move it. -/
theorem realloc_granted {A : Allocator α} {p : Ptr} {n : ℕ} {h : Heap α} {old : List α}
    (hold : h.Holds p old) (hn : n ≠ 0) (hg : h.grants A n = true) :
    ∃ b cells h', h.realloc A p n = .ok (some b, h') ∧ h'.Holds (some b) cells ∧
      cells.length = n ∧ (∀ k, k ≤ old.length → k ≤ n → cells.take k = old.take k) ∧
      Evolves p (some b) h h' ∧ h'.requests = h.requests + 1 ∧ h'.refusals = h.refusals ∧
      (some b = p ↔ p ≠ none ∧ (A h.requests).moved = false) := by
  cases p with
  | none =>
      obtain ⟨b, cells, h', hm, hh, hlen, hev, hreq, href⟩ := malloc_granted hg
      rw [holds_none] at hold
      subst hold
      refine ⟨b, cells, h', by rw [realloc, hm], hh, hlen, ?_, hev, hreq, href, by simp⟩
      intro k hk _
      simp only [List.length_nil, Nat.le_zero] at hk
      simp [hk]
  | some c =>
      obtain ⟨hlt, hc⟩ := hold
      set cells := resize (A h.requests).fill old n with hcells
      have htake : ∀ k, k ≤ old.length → k ≤ n → cells.take k = old.take k :=
        fun k hk hkn => take_resize _ hk hkn
      cases hm : (A h.requests).moved with
      | true =>
          refine ⟨h.next, cells, { (h.release c).put h.next cells with
              next := h.next + 1, requests := h.requests + 1 },
            by simp [realloc, hc, hn, hg, hm, hcells],
            ⟨Nat.lt_succ_self _, Function.update_self ..⟩, length_resize .., htake, ?_, rfl,
            rfl, ?_⟩
          · refine ⟨Nat.le_succ _, ?_, ?_⟩
            · intro b hb hne
              have hbc : b ≠ c := fun he => hne (by rw [he])
              have hbn : b ≠ h.next := by omega
              simp [put, release, Function.update_of_ne hbn, Function.update_of_ne hbc]
            · intro b hb
              cases hb
              exact Or.inr le_rfl
          · simp only [Option.some.injEq, ne_eq, reduceCtorEq, not_false_eq_true, true_and,
              Bool.true_eq_false, iff_false]
            omega
      | false =>
          refine ⟨c, cells, { h.put c cells with requests := h.requests + 1 },
            by simp [realloc, hc, hn, hg, hm, hcells],
            ⟨hlt, Function.update_self ..⟩, length_resize .., htake, ?_, rfl, rfl, by simp⟩
          refine ⟨le_rfl, ?_, fun b hb => Or.inl hb.symm⟩
          intro b hb hne
          have hbc : b ≠ c := fun he => hne (by rw [he])
          simp [put, Function.update_of_ne hbc]

/-- A `realloc` that is refused returns `NULL` and leaves the block. -/
theorem realloc_refused {A : Allocator α} {p : Ptr} {n : ℕ} {h : Heap α} {old : List α}
    (hold : h.Holds p old) (hn : n ≠ 0) (hg : h.grants A n = false) :
    h.realloc A p n = .ok (none, h.refuse) := by
  cases p with
  | none => rw [realloc, malloc_refused hg]
  | some c =>
      obtain ⟨-, hc⟩ := hold
      simp [realloc, hc, hn, hg]

/-- A write inside the block overwrites its cells. -/
theorem write_ok {b : ℕ} {cells : List α} {h : Heap α} (i : ℕ) (src : List α)
    (hc : h.Holds (some b) cells)
    (hi : i + src.length ≤ cells.length) :
    ∃ h', h.write (some b) i src = .ok h' ∧ h'.Holds (some b) (overwrite cells i src) ∧
      Evolves (some b) (some b) h h' ∧ h'.requests = h.requests ∧ h'.refusals = h.refusals := by
  obtain ⟨hlt, hcells⟩ := hc
  refine ⟨h.put b (overwrite cells i src), by simp [write, hcells, hi],
    ⟨hlt, Function.update_self ..⟩, ?_, rfl, rfl⟩
  refine ⟨le_rfl, ?_, fun c hb => Or.inl hb.symm⟩
  intro c hlt' hne
  have hcb : c ≠ b := fun he => hne (by rw [he])
  simp [put, Function.update_of_ne hcb]

/-- A read inside the block gives its cell. -/
theorem read_ok {b i : ℕ} {cells : List α} {h : Heap α} (hc : h.Holds (some b) cells)
    (hi : i < cells.length) : h.read (some b) i = .ok cells[i] := by
  obtain ⟨-, hcells⟩ := hc
  simp [read, hcells, hi]

/-- A live block, or `NULL`, can be released. -/
theorem free_ok {p : Ptr} {cells : List α} {h : Heap α} (hc : h.Holds p cells) :
    ∃ h', h.free p = .ok h' ∧ Evolves p none h h' ∧ h'.requests = h.requests ∧
      h'.refusals = h.refusals := by
  cases p with
  | none => exact ⟨h, rfl, Evolves.refl none h, rfl, rfl⟩
  | some b =>
      obtain ⟨hlt, hcells⟩ := hc
      refine ⟨h.release b, by simp [free, hcells], ⟨le_rfl, ?_, fun _ hb => nomatch hb⟩, rfl, rfl⟩
      intro c _ hne
      have hcb : c ≠ b := fun he => hne (by rw [he])
      simp [release, Function.update_of_ne hcb]

/-- The string at a pointer is that of its block. -/
theorem cString_of_holds [Zero α] [DecidableEq α] {b : ℕ} {cells : List α} {h : Heap α}
    (hc : h.Holds (some b) cells) : h.cString (some b) = Clib.cString cells := by
  simp [cString, hc.2]

end Heap

end Clib
