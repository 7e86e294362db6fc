import AzureMetadata.Clib.Outcome

/-!
# Who owns the blocks of a heap

`Heap.Conserves ps ps' h h'` says of an operation that is given the blocks of the pointers
`ps` and leaves its caller those of `ps'` that the rest of the heap is as it was: no other
block was written or released, and none was allocated and lost.  Operations compose, and
the blocks that one of them has no part in stay out of it (`Conserves.frame`).  Between
nothing and nothing it says that the heap is the same.
-/

set_option autoImplicit false

namespace Clib

namespace Heap

variable {α : Type} {h h' h'' : Heap α} {p q : Ptr} {ps ps' qs qs' : List Ptr} {n : ℕ}
  {A : Allocator α}

/-- No block that is to be handed out next is live. -/
def Fresh (h : Heap α) : Prop := ∀ b, h.next ≤ b → h.blocks b = none

/-- The blocks but for those of some pointers. -/
def without (h : Heap α) (ps : List Ptr) (b : ℕ) : Option (List α) :=
  if some b ∈ ps then none else h.blocks b

/-- An operation that is given the blocks of `ps` and leaves those of `ps'`. -/
structure Conserves (ps ps' : List Ptr) (h h' : Heap α) : Prop where
  fresh : h.Fresh → h'.Fresh
  others : h.Fresh → h'.without ps' = h.without ps
  refusals_le : h.refusals ≤ h'.refusals

/-- No block of the empty heap is above the next one. -/
theorem fresh_empty : (empty : Heap α).Fresh := fun _ _ => rfl

/-- Without no pointer at all the heap has all its blocks. -/
theorem without_nil : h.without [] = h.blocks := funext fun _ => if_neg List.not_mem_nil

/-- To leave out two lists is to leave out one after the other. -/
theorem without_append :
    h.without (ps ++ qs) = fun b => if some b ∈ qs then none else h.without ps b := by
  funext b
  unfold without
  by_cases hq : some b ∈ qs
  · simp [hq]
  · simp [hq]

/-- Only the pointers count, not their order. -/
theorem without_congr (hps : ∀ b, some b ∈ ps ↔ some b ∈ qs) : h.without ps = h.without qs := by
  funext b
  unfold without
  simp only [hps]

/-- A heap that is left as it is has been conserved. -/
theorem Conserves.refl (ps : List Ptr) (h : Heap α) : Conserves ps ps h h :=
  ⟨id, fun _ => rfl, le_rfl⟩

/-- Two calls in a row conserve what both conserve. -/
theorem Conserves.trans (h₁ : Conserves ps ps' h h') (h₂ : Conserves ps' qs h' h'') :
    Conserves ps qs h h'' :=
  ⟨fun hf => h₂.fresh (h₁.fresh hf), fun hf => (h₂.others (h₁.fresh hf)).trans (h₁.others hf),
    h₁.refusals_le.trans h₂.refusals_le⟩

/-- The blocks of `qs` have no part in it. -/
theorem Conserves.frame (hc : Conserves ps ps' h h') (qs : List Ptr) :
    Conserves (ps ++ qs) (ps' ++ qs) h h' where
  fresh := hc.fresh
  others hf := by rw [without_append, without_append, hc.others hf]
  refusals_le := hc.refusals_le

/-- The order of the pointers does not matter, nor does `NULL` among them. -/
theorem Conserves.congr (hc : Conserves ps ps' h h') (hps : ∀ b, some b ∈ ps ↔ some b ∈ qs)
    (hps' : ∀ b, some b ∈ ps' ↔ some b ∈ qs') : Conserves qs qs' h h' where
  fresh := hc.fresh
  others hf := by rw [← without_congr hps, ← without_congr hps', hc.others hf]
  refusals_le := hc.refusals_le

/-- A pointer that neither call knows may be added on both sides. -/
theorem Conserves.behind (hc : Conserves ps ps' h h') (q : Ptr) :
    Conserves (q :: ps) (q :: ps') h h' :=
  (hc.frame [q]).congr (fun b => by simp [or_comm]) fun b => by simp [or_comm]

/-- An operation that leaves nothing behind leaves the heap as it was. -/
theorem Conserves.blocks_eq (hc : Conserves [] [] h h') (hf : h.Fresh) : h'.blocks = h.blocks := by
  rw [← without_nil, ← without_nil (h := h), hc.others hf]

/-! ## The operations -/

/-- A refusal conserves every block. -/
theorem conserves_refuse (ps : List Ptr) : Conserves ps ps h h.refuse :=
  ⟨id, fun _ => rfl, Nat.le_succ _⟩

/-- What has to be shown of an operation. -/
theorem conserves_of (hnext : h.next ≤ h'.next)
    (hps' : h.Fresh → ∀ b, some b ∈ ps' → b < h'.next)
    (hsame : h.Fresh → ∀ b, h'.without ps' b = h.without ps b)
    (hrefusals : h.refusals ≤ h'.refusals) : Conserves ps ps' h h' where
  fresh hf b hb := by
    have hb' : some b ∉ ps' := fun hmem => absurd (hps' hf b hmem) (not_lt.mpr hb)
    have hsame := hsame hf b
    rw [without, if_neg hb', without, hf b (hnext.trans hb), ite_self] at hsame
    exact hsame
  others hf := funext (hsame hf)
  refusals_le := hrefusals

/-- A live block is below the next one. -/
theorem lt_next_of_live {b : ℕ} {cells : List α} (hf : h.Fresh) (hb : h.blocks b = some cells) :
    b < h.next := by
  by_contra hle
  rw [hf b (not_lt.mp hle)] at hb
  cases hb

/-- Without one pointer the others are as they were. -/
theorem without_singleton (b : ℕ) : h.without [p] b = if some b = p then none else h.blocks b := by
  simp only [without, List.mem_singleton]

/-- A `malloc` conserves all blocks and adds its own. -/
theorem conserves_malloc (hm : h.malloc A n = (p, h')) : Conserves [] [p] h h' := by
  unfold malloc at hm
  split at hm
  · cases hm
    refine conserves_of (Nat.le_succ _) ?_ ?_ le_rfl
    · intro _ b hb
      obtain rfl := Option.some.inj (List.mem_singleton.mp hb)
      exact Nat.lt_succ_self _
    · intro hf b
      rw [without_singleton, without_nil]
      by_cases hb : b = h.next
      · rw [if_pos (congrArg some hb), hb, hf _ le_rfl]
      · rw [if_neg fun he => hb (Option.some.inj he)]
        exact Function.update_of_ne hb _ _
  · cases hm
    exact (conserves_refuse []).congr (by simp) (by simp)

/-- Only the block `c` has changed. -/
theorem conserves_block {c : ℕ} {old : List α} (hc : h.blocks c = some old)
    (hnext : h'.next = h.next) (hblocks : ∀ b, b ≠ c → h'.blocks b = h.blocks b)
    (hrefusals : h.refusals ≤ h'.refusals) : Conserves [some c] [some c] h h' := by
  refine conserves_of hnext.ge ?_ ?_ hrefusals
  · intro hf b hb
    obtain rfl := Option.some.inj (List.mem_singleton.mp hb)
    rw [hnext]
    exact lt_next_of_live hf hc
  · intro _ b
    rw [without_singleton, without_singleton]
    by_cases hb : b = c
    · rw [if_pos (congrArg some hb), if_pos (congrArg some hb)]
    · have hne : some b ≠ some c := fun he => hb (Option.some.inj he)
      rw [if_neg hne, if_neg hne, hblocks b hb]

/-- What `realloc` leaves: the new block, or the old one if it was refused. -/
theorem conserves_realloc (hn : n ≠ 0) : Yields (fun _ => True) (h.realloc A p n) fun r =>
    Conserves [p] [r.1.or p] h r.2 ∧ (r.1 ≠ none → n ≤ ptrdiffMax) := by
  cases p with
  | none =>
      cases hm : h.malloc A n with
      | mk q h' =>
          rw [realloc, hm]
          refine ⟨(conserves_malloc hm).congr (by simp) fun b => ?_, fun hq => ?_⟩
          · cases q <;> rfl
          · have hg : h.grants A n = true := by
              by_contra hno
              rw [malloc, if_neg hno] at hm
              cases hm
              exact hq rfl
            exact le_ptrdiffMax_of_grants hg
  | some c =>
      cases hold : h.blocks c with
      | none =>
          rw [realloc, hold]
          trivial
      | some old =>
          rw [realloc, hold]
          dsimp only
          rw [if_neg hn]
          by_cases hg : h.grants A n = true
          · rw [if_pos hg]
            by_cases hmoved : (A h.requests).moved = true
            · rw [if_pos hmoved]
              refine ⟨?_, fun _ => le_ptrdiffMax_of_grants hg⟩
              change Conserves [some c] [some h.next] h _
              refine conserves_of (Nat.le_succ _) ?_ ?_ le_rfl
              · intro _ b hb
                obtain rfl := Option.some.inj (List.mem_singleton.mp hb)
                exact Nat.lt_succ_self _
              · intro hf b
                have hlt := lt_next_of_live hf hold
                rw [without_singleton, without_singleton]
                by_cases hb : b = h.next
                · have hbc : some b ≠ some c := fun he => by
                    have he := Option.some.inj he
                    omega
                  rw [if_pos (congrArg some hb), if_neg hbc, hb, hf _ le_rfl]
                · refine (if_neg fun he => hb (Option.some.inj he)).trans ?_
                  refine (Function.update_of_ne hb _ _).trans ?_
                  by_cases hbc : b = c
                  · rw [if_pos (congrArg some hbc), hbc]
                    exact Function.update_self ..
                  · rw [if_neg fun he => hbc (Option.some.inj he)]
                    exact Function.update_of_ne hbc _ _
            · rw [if_neg hmoved]
              exact ⟨conserves_block hold rfl (fun b hb => Function.update_of_ne hb _ _) le_rfl,
                fun _ => le_ptrdiffMax_of_grants hg⟩
          · rw [if_neg hg]
            exact ⟨conserves_refuse [some c], fun hno => absurd rfl hno⟩

/-- A write conserves all blocks but the one written. -/
theorem conserves_write {i : ℕ} {src : List α} :
    Yields (fun _ => True) (h.write p i src) fun h' => Conserves [p] [p] h h' := by
  cases p with
  | none => trivial
  | some c =>
      cases hold : h.blocks c with
      | none =>
          rw [write, hold]
          trivial
      | some old =>
          rw [write, hold]
          dsimp only
          by_cases hroom : i + src.length ≤ old.length
          · rw [if_pos hroom]
            exact conserves_block hold rfl (fun b hb => Function.update_of_ne hb _ _) le_rfl
          · rw [if_neg hroom]
            trivial

/-- A `free` conserves all blocks but the one released. -/
theorem conserves_free : Yields (fun _ => True) (h.free p) fun h' => Conserves [p] [] h h' := by
  cases p with
  | none => exact (Conserves.refl [] h).congr (by simp) (by simp)
  | some c =>
      cases hold : h.blocks c with
      | none =>
          rw [free, hold]
          trivial
      | some old =>
          rw [free, hold]
          refine conserves_of le_rfl (fun _ b hb => absurd hb List.not_mem_nil) (fun _ b => ?_)
            le_rfl
          rw [without_nil, without_singleton]
          by_cases hb : b = c
          · rw [if_pos (congrArg some hb), hb]
            exact Function.update_self ..
          · rw [if_neg fun he => hb (Option.some.inj he)]
            exact Function.update_of_ne hb _ _

end Heap

end Clib
