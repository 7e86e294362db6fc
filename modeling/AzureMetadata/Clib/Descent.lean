import Mathlib.Data.Fintype.Card
import Mathlib.Data.Set.Basic
import Mathlib.Logic.Relation

/-!
# Below a node

The nodes below a node are those that its children lead to, itself among them.  `Height`
says how many nodes can be below each other, which is the stack that a recursion over
children takes.  Where each node has at most one parent, nothing leads from a node without
one back to it, and so finitely many nodes bound the height below it.
-/

set_option autoImplicit false

namespace Clib

open Relation

variable {ι : Type} {children children' : ι → List ι} {n m c p : ι} {k : ℕ}

/-- `m` is `n` or a child of a node below `n`. -/
def Below (children : ι → List ι) : ι → ι → Prop := ReflTransGen fun p c => c ∈ children p

/-- No more than `k` nodes are below each other from `n` on. -/
def Height (children : ι → List ι) : ℕ → ι → Prop
  | 0, _ => False
  | k + 1, n => ∀ c ∈ children n, Height children k c

/-- Each node is a child of one node at most. -/
def UniqueParents (children : ι → List ι) : Prop :=
  ∀ p q c, c ∈ children p → c ∈ children q → p = q

/-- The node is no child. -/
def Root (children : ι → List ι) (n : ι) : Prop := ∀ p, n ∉ children p

/-- A node is below itself. -/
theorem below_self : Below children n n := .refl

/-- What is below a node has its children there as well. -/
theorem Below.child (h : Below children n m) (hc : c ∈ children m) : Below children n c :=
  .tail h hc

/-- More children leave below a node what was there. -/
theorem Below.mono (h : Below children n m) (hsub : ∀ p, ∀ c ∈ children p, c ∈ children' p) :
    Below children' n m := by
  induction h with
  | refl => exact below_self
  | tail _ hc ih => exact ih.child (hsub _ _ hc)

/-- What is below a node of a set that has all children of its nodes is in the set. -/
theorem Below.mem_of_closed {l : List ι} (h : Below children n m) (hn : n ∈ l)
    (hclosed : ∀ p ∈ l, ∀ c ∈ children p, c ∈ l) : m ∈ l := by
  induction h with
  | refl => exact hn
  | tail _ hc ih => exact hclosed _ ih _ hc

/-- What lies below a child lies below its parent. -/
theorem Below.of_child (hc : c ∈ children n) (h : Below children c m) : Below children n m :=
  ReflTransGen.head hc h

/-- A root is below itself only. -/
theorem Below.eq_of_root (h : Below children n m) (hroot : Root children m) : n = m := by
  cases h with
  | refl => rfl
  | tail _ hm => exact absurd hm (hroot _)

/-- From a sibling to a sibling leads no way but round through their parent. -/
theorem sibling_notBelow {d : ι} (hunique : UniqueParents children) (hroot : Root children n)
    (hc : c ∈ children n) (hd : d ∈ children n) (hne : d ≠ c) : ¬ Below children c d := by
  intro h
  cases h with
  | refl => exact hne rfl
  | @tail p _ hp hpd =>
      obtain rfl := hunique p n d hpd hd
      obtain rfl : c = p := Below.eq_of_root hp hroot
      exact hroot c hc

/-- Fewer children leave a bound on the height. -/
theorem Height.mono (h : Height children k n) (hsub : ∀ p, ∀ c ∈ children' p, c ∈ children p) :
    Height children' k n := by
  induction k generalizing n with
  | zero => exact h
  | succ k ih => exact fun c hc => ih (h c (hsub n c hc))

/-- A larger number bounds the height as well. -/
theorem Height.le (h : Height children k n) {l : ℕ} (hle : k ≤ l) : Height children l n := by
  induction k generalizing n l with
  | zero => exact h.elim
  | succ k ih =>
      cases l with
      | zero => omega
      | succ l => exact fun c hc => ih (h c hc) (by omega)

/-- Where there is a height there is no way back. -/
theorem Height.notBelow (h : Height children k n) (hc : c ∈ children n) :
    ¬ Below children c n := by
  intro hbelow
  induction k generalizing n c with
  | zero => exact h.elim
  | succ k ih =>
      rcases hbelow.cases_head with rfl | ⟨d, hd, hrest⟩
      · exact ih (h c hc) hc below_self
      · exact ih (h c hc) hd (Below.child hrest hc)

/-! ## Finitely many nodes -/

/-- The node that so many parents lead to. -/
def ancestor (parent : ι → Option ι) : ℕ → ι → Option ι
  | 0, n => some n
  | k + 1, n => (parent n).bind (ancestor parent k)

/-- The ancestor further up is an ancestor of the ancestor. -/
theorem ancestor_add {parent : ι → Option ι} (j : ℕ) (h : ancestor parent k n = some m) :
    ancestor parent (k + j) n = ancestor parent j m := by
  induction k generalizing n with
  | zero =>
      cases h
      rw [Nat.zero_add]
  | succ k ih =>
      rw [ancestor] at h
      obtain ⟨p, hp, hm⟩ := Option.bind_eq_some_iff.mp h
      rw [Nat.add_right_comm, ancestor, hp]
      exact ih hm

/-- Where there is no height of `k`, there is a node so far below for each distance up to
`k`. -/
theorem exists_descendant {parent : ι → Option ι} {j : ℕ} (hchild : ∀ p c, c ∈ children p →
    parent c = some p) (h : ¬ Height children k n) (hj : j ≤ k) :
    ∃ m, Below children n m ∧ ancestor parent j m = some n := by
  induction j generalizing n k with
  | zero => exact ⟨n, below_self, rfl⟩
  | succ j ih =>
      cases k with
      | zero => omega
      | succ k =>
          rw [Height] at h
          push Not at h
          obtain ⟨c, hc, hheight⟩ := h
          obtain ⟨m, hm, hanc⟩ := ih hheight (by omega)
          refine ⟨m, hm.of_child hc, ?_⟩
          rw [ancestor_add 1 hanc, ancestor, hchild n c hc]
          rfl

/-- **Below a root there is no more height than there are nodes.** -/
theorem height_of_root {parent : ι → Option ι} {S : Finset ι}
    (hchild : ∀ p c, c ∈ children p → parent c = some p) (hroot : parent n = none)
    (hbound : ∀ m, Below children n m → m ∈ S) : Height children S.card n := by
  by_contra hheight
  -- One node for each distance; two distances to one node would lead above the root.
  choose f hbelow hanc using fun j : Fin (S.card + 1) =>
    exists_descendant (j := j) hchild hheight (Nat.lt_succ_iff.mp j.isLt)
  have hinj : Function.Injective fun j => (⟨f j, hbound _ (hbelow j)⟩ : S) := by
    have habove : ∀ i j : Fin (S.card + 1), i < j → f i ≠ f j := by
      intro i j hij heq
      have hj : ancestor parent (i + (j - i)) (f i) = some n := by
        rw [heq]
        have hsum : (i : ℕ) + (j - i) = j := by omega
        rw [hsum]
        exact hanc j
      rw [ancestor_add _ (hanc i)] at hj
      obtain ⟨d, hd⟩ : ∃ d, (j : ℕ) - i = d + 1 := ⟨j - i - 1, by omega⟩
      rw [hd, ancestor, hroot] at hj
      cases hj
    intro i j heq
    have heq' : f i = f j := congrArg Subtype.val heq
    rcases lt_trichotomy i j with hlt | he | hlt
    · exact absurd heq' (habove i j hlt)
    · exact he
    · exact absurd heq'.symm (habove j i hlt)
  have hcard := Fintype.card_le_of_injective _ hinj
  rw [Fintype.card_fin, Fintype.card_coe] at hcard
  omega

/-! ## Taking nodes away -/

section Drop

open Classical

/-- The children without the nodes of a set. -/
noncomputable def dropNodes (children : ι → List ι) (S : Set ι) : ι → List ι := fun p =>
  if p ∈ S then [] else (children p).filter fun c => c ∉ S

variable {S T : Set ι}

/-- The children that are left are those of the nodes that are left. -/
theorem mem_dropNodes : c ∈ dropNodes children S p ↔ c ∈ children p ∧ p ∉ S ∧ c ∉ S := by
  unfold dropNodes
  split
  · next hp => simp [hp]
  · next hp => simp [hp]

/-- To drop two sets one after the other is to drop their union. -/
theorem dropNodes_dropNodes :
    dropNodes (dropNodes children S) T = dropNodes children (S ∪ T) := by
  funext p
  unfold dropNodes
  by_cases hT : p ∈ T
  · simp [hT]
  · by_cases hS : p ∈ S
    · simp [hS]
    · simp only [hS, hT, Set.mem_union, or_self, if_false, not_or, List.filter_filter]
      refine List.filter_congr fun c _ => ?_
      simp [Bool.and_comm]

/-- A node that is left and has no child in the set keeps its children. -/
theorem dropNodes_eq_self (hp : p ∉ S) (h : ∀ c ∈ children p, c ∉ S) :
    dropNodes children S p = children p := by
  rw [dropNodes, if_neg hp, List.filter_eq_self]
  exact fun c hc => decide_eq_true (h c hc)

/-- Without nodes to drop nothing changes. -/
@[simp] theorem dropNodes_empty : dropNodes children ∅ = children :=
  funext fun p => dropNodes_eq_self (Set.notMem_empty p) fun c _ => Set.notMem_empty c

/-- Only the first child is taken away. -/
theorem dropNodes_cons {ds : List ι} (hp : p ∉ S) (hkids : children p = c :: ds) (hc : c ∈ S)
    (hds : ∀ d ∈ ds, d ∉ S) : dropNodes children S p = ds := by
  rw [dropNodes, if_neg hp, hkids, List.filter_cons_of_neg (by simpa using hc),
    List.filter_eq_self]
  exact fun d hd => decide_eq_true (hds d hd)

/-- A node is taken away after its parent has lost it and all its children are gone. -/
theorem dropNodes_erase [DecidableEq ι] (hnodup : ∀ p, (children p).Nodup) (hn : n ∉ S)
    (hkids : ∀ c ∈ (children n).erase n, c ∈ S) (hT : ∀ m, m ∈ T ↔ m = n ∨ m ∈ S) :
    dropNodes (fun p => (children p).erase n) S = dropNodes children T := by
  funext p
  unfold dropNodes
  beta_reduce
  by_cases hp : p = n
  · subst hp
    rw [if_neg hn, if_pos ((hT p).mpr (.inl rfl)), List.filter_eq_nil_iff]
    exact fun c hc => by simpa using hkids c hc
  · by_cases hS : p ∈ S
    · rw [if_pos hS, if_pos ((hT p).mpr (.inr hS))]
    · rw [if_neg hS, if_neg fun h => ((hT p).mp h).elim hp hS, (hnodup p).erase_eq_filter,
        List.filter_filter]
      refine List.filter_congr fun c _ => ?_
      simp [hT, Bool.and_comm, bne, Bool.beq_eq_decide_eq]

end Drop

end Clib
