import AzureMetadata.Analysis.JsonNodeCalls

/-!
# The pointers of JSON nodes describe a forest

Making, linking and unlinking a node keep a forest sound, and the pointers describe the
forest before and after: `linkChild_describes` and `removeFromParent_describes`.
-/

set_option autoImplicit false

namespace AzureMetadata.Analysis

open Clib Clib.Links AzureMetadata.Model AzureMetadata.Model.Nodes AzureMetadata.Interface

variable {double : Type} {f : Forest double} {st : JsonNodes double} {p q c n x : ℕ}

/-! ## Sound forests -/

section Sound

/-- A node that was not yet made has no children. -/
theorem children_count (h : f.Sound) : f.children f.count = [] := by
  rw [List.eq_nil_iff_forall_not_mem]
  exact fun c hc => absurd (h.bound _ (h.live _ _ hc).1) (lt_irrefl _)

/-- Only containers have children. -/
theorem children_leaf (h : f.Sound) (harray : (f.content n).tag ≠ .JSON_ARRAY)
    (hobject : (f.content n).tag ≠ .JSON_OBJECT) : f.children n = [] := by
  rw [List.eq_nil_iff_forall_not_mem]
  exact fun c hc => (h.container n c hc).elim harray hobject

/-- Nor is it a child. -/
theorem root_count (h : f.Sound) : Root f.children f.count := fun _ hc =>
  absurd (h.bound _ (h.live _ _ hc).2) (lt_irrefl _)

/-- A new node leaves a forest sound. -/
theorem sound_make (h : f.Sound) (content : JsonContent double) : (f.make content).Sound := by
  have hchild : ∀ {p c}, c ∈ f.children p → p ≠ f.count ∧ c ≠ f.count := by
    intro p c hc
    obtain ⟨hp, hcl⟩ := h.live p c hc
    exact ⟨(h.bound p hp).ne, (h.bound c hcl).ne⟩
  constructor
  case bound =>
    intro n hn
    by_cases he : n = f.count
    · exact he.trans_lt (Nat.lt_succ_self _)
    · exact (h.bound n (by simpa [Forest.make, he] using hn)).trans (Nat.lt_succ_self _)
  case live =>
    intro p c hc
    obtain ⟨hp, hcne⟩ := hchild hc
    simpa [Forest.make, hp, hcne] using h.live p c hc
  case container =>
    intro p c hc
    simpa [Forest.make, (hchild hc).1] using h.container p c hc
  case element =>
    intro p c hc
    obtain ⟨hp, hcne⟩ := hchild hc
    simpa [Forest.make, hp, hcne] using h.element p c hc
  case member =>
    intro p c hc
    obtain ⟨hp, hcne⟩ := hchild hc
    simpa [Forest.make, hp, hcne] using h.member p c hc
  case root =>
    intro c hc
    by_cases he : c = f.count
    · simp [Forest.make, he]
    · simpa [Forest.make, he] using h.root c hc

/-- A link makes one node a child of the other. -/
theorem mem_link {key : Option CString} {cs : List ℕ}
    (hcs : ∀ x, x ∈ cs ↔ x ∈ f.children p ∨ x = c) :
    x ∈ (f.link p c key cs).children q ↔ x ∈ f.children q ∨ q = p ∧ x = c := by
  by_cases hq : q = p
  · subst hq
    simp [Forest.link, hcs]
  · simp [Forest.link, hq]

/-- The key that a child of `p` is to have. -/
def KeyFits (f : Forest double) (p : ℕ) (key : Option CString) : Prop :=
  (f.content p).tag = .JSON_ARRAY ∧ key = none ∨
    (f.content p).tag = .JSON_OBJECT ∧ key.isSome = true

/-- Linking a root leaves a forest sound. -/
theorem sound_link (h : f.Sound) (hp : f.live p = true) (hc : f.live c = true)
    (hroot : Root f.children c) {key : Option CString} (hkey : KeyFits f p key) {cs : List ℕ}
    (hcs : ∀ x, x ∈ cs ↔ x ∈ f.children p ∨ x = c) : (f.link p c key cs).Sound := by
  have hne : ∀ {q x}, x ∈ f.children q → x ≠ c := by
    rintro q _ hx rfl
    exact hroot q hx
  constructor
  case bound => exact h.bound
  case live =>
    intro q x hx
    rcases (mem_link hcs).mp hx with hx | ⟨rfl, rfl⟩
    · exact h.live q x hx
    · exact ⟨hp, hc⟩
  case container =>
    intro q x hx
    rcases (mem_link hcs).mp hx with hx | ⟨rfl, rfl⟩
    · exact h.container q x hx
    · exact hkey.imp And.left And.left
  case element =>
    intro q x hx htag
    rcases (mem_link hcs).mp hx with hx | ⟨rfl, rfl⟩
    · exact (Function.update_of_ne (hne hx) _ _).trans (h.element q x hx htag)
    · refine (Function.update_self ..).trans ?_
      rcases hkey with ⟨-, hnone⟩ | ⟨hobject, -⟩
      · exact hnone
      · exact absurd (hobject.symm.trans htag) (by decide)
  case member =>
    intro q x hx htag
    rcases (mem_link hcs).mp hx with hx | ⟨rfl, rfl⟩
    · exact (congrArg _ (Function.update_of_ne (hne hx) _ _)).trans (h.member q x hx htag)
    · refine (congrArg _ (Function.update_self ..)).trans ?_
      rcases hkey with ⟨harray, -⟩ | ⟨-, hsome⟩
      · exact absurd (harray.symm.trans htag) (by decide)
      · exact hsome
  case root =>
    intro x hx
    have hxc : x ≠ c := by
      rintro rfl
      exact hx p ((mem_link hcs).mpr (.inr ⟨rfl, rfl⟩))
    refine (Function.update_of_ne hxc _ _).trans (h.root x fun q hq => ?_)
    exact hx q ((mem_link hcs).mpr (.inl hq))

/-- A node that is detached is no one's child, and the others stay where they were. -/
theorem mem_detach (hnodup : ∀ p, (f.children p).Nodup) :
    x ∈ (f.detach n).children q ↔ x ≠ n ∧ x ∈ f.children q :=
  (hnodup q).mem_erase_iff

/-- So it is a root. -/
theorem root_detach (hnodup : ∀ p, (f.children p).Nodup) : Root (f.detach n).children n :=
  fun _ h => ((mem_detach hnodup).mp h).1 rfl

/-- Unlinking a node leaves a forest sound. -/
theorem sound_detach (h : f.Sound) (hnodup : ∀ p, (f.children p).Nodup) (n : ℕ) :
    (f.detach n).Sound := by
  constructor
  case bound => exact h.bound
  case live => exact fun q x hx => h.live q x ((mem_detach hnodup).mp hx).2
  case container => exact fun q x hx => h.container q x ((mem_detach hnodup).mp hx).2
  case element =>
    intro q x hx htag
    obtain ⟨hne, hx⟩ := (mem_detach hnodup).mp hx
    exact (Function.update_of_ne hne _ _).trans (h.element q x hx htag)
  case member =>
    intro q x hx htag
    obtain ⟨hne, hx⟩ := (mem_detach hnodup).mp hx
    exact (congrArg _ (Function.update_of_ne hne _ _)).trans (h.member q x hx htag)
  case root =>
    intro x hx
    by_cases hne : x = n
    · subst hne
      exact Function.update_self ..
    · refine (Function.update_of_ne hne _ _).trans (h.root x fun q hq => ?_)
      exact hx q ((mem_detach hnodup).mpr ⟨hne, hq⟩)

end Sound

end AzureMetadata.Analysis

/-! ## What the pointers say -/

namespace AzureMetadata.Interface

open Clib Clib.Links AzureMetadata.Model AzureMetadata.Model.Nodes AzureMetadata.Analysis

variable {double : Type} {f : Forest double} {st : JsonNodes double} {p c n : ℕ}

section Pointers

variable (h : Describes st f)

include h

/-- The roots are the nodes without a parent. -/
theorem Describes.root_iff : st.links.parent c = none ↔ Root f.children c := by
  refine ⟨h.linked.notMem_of_root, fun hroot => ?_⟩
  cases hc : st.links.parent c with
  | none => rfl
  | some p => exact absurd (h.linked.parent_iff.mp hc) (hroot p)

/-- No node has two parents. -/
theorem Describes.unique : UniqueParents f.children := fun _ _ _ => h.linked.parent_unique

/-- The live nodes are those of the forest. -/
theorem Describes.live_iff : st.live n = f.live n := by rw [h.live]

/-- The tags are those of the forest. -/
theorem Describes.tag_eq : getTag st n = (f.content n).tag := by rw [getTag, h.content]

/-- The nodes that a live node points to are live. -/
theorem Describes.live_child (hc : c ∈ f.children p) : st.live p = true ∧ st.live c = true := by
  rw [h.live]
  exact h.sound.live p c hc

/-- The last child of a node is live. -/
theorem Describes.live_tail : ∀ t ∈ st.links.tail p, st.live t = true := by
  intro t ht
  rw [h.linked.tail] at ht
  exact (h.live_child (List.mem_of_getLast? ht)).2

/-- So is the first. -/
theorem Describes.live_head : ∀ t ∈ st.links.head p, st.live t = true := by
  intro t ht
  rw [h.linked.head] at ht
  exact (h.live_child (List.mem_of_mem_head? ht)).2

/-- The siblings of a child. -/
theorem Describes.siblings (hc : c ∈ f.children p) :
    (∀ x ∈ st.links.prev c, x ≠ c ∧ st.live x = true) ∧
      ∀ x ∈ st.links.next c, st.live x = true := by
  obtain ⟨xs, ys, hsplit⟩ := List.append_of_mem hc
  obtain ⟨hprev, hnext⟩ := h.linked.siblings hsplit
  have hnodup := h.linked.nodup p
  rw [hsplit] at hnodup
  constructor
  · intro x hx
    rw [hprev] at hx
    have hmem : x ∈ xs := List.mem_of_getLast? hx
    refine ⟨?_, (h.live_child (p := p) (by simp [hsplit, hmem])).2⟩
    exact (List.nodup_append.mp hnodup).2.2 x hmem c (by simp)
  · intro x hx
    rw [hnext] at hx
    exact (h.live_child (p := p) (by simp [hsplit, List.mem_of_mem_head? hx])).2

/-- A root has no key. -/
theorem Describes.key_root (hroot : Root f.children c) :
    Function.update st.key c none = st.key := by
  rw [← h.sound.root c hroot, ← h.key, Function.update_eq_self]

end Pointers

section Linking

/-- The nodes after a root was linked. -/
theorem Describes.link (h : Describes st f) (hp : f.live p = true) (hc : f.live c = true)
    (hroot : Root f.children c) {key : Option CString} (hkey : KeyFits f p key) {cs : List ℕ}
    (hcs : ∀ x, x ∈ cs ↔ x ∈ f.children p ∨ x = c) {L : Links ℕ}
    (hlinked : Linked L (Function.update f.children p cs)) :
    Describes { st with links := L, key := Function.update st.key c key } (f.link p c key cs) where
  count := h.count
  live := h.live
  key := by rw [h.key]; rfl
  content := h.content
  linked := hlinked
  sound := sound_link h.sound hp hc hroot hkey hcs

/-- A root that is linked at the end is the last child. -/
theorem Describes.append (h : Describes st f) (hp : f.live p = true) (hc : f.live c = true)
    (hroot : Root f.children c) {key : Option CString} (hkey : KeyFits f p key) :
    Describes { st with links := st.links.append p c, key := Function.update st.key c key }
      (f.append p c key) :=
  h.link hp hc hroot hkey (fun x => by simp) (h.linked.append (h.root_iff.mpr hroot) p)

/-- A root that is linked in front is the first child. -/
theorem Describes.prepend (h : Describes st f) (hp : f.live p = true) (hc : f.live c = true)
    (hroot : Root f.children c) {key : Option CString} (hkey : KeyFits f p key) :
    Describes { st with links := st.links.prepend p c, key := Function.update st.key c key }
      (f.prepend p c key) :=
  h.link hp hc hroot hkey (fun x => by simp [or_comm]) (h.linked.prepend (h.root_iff.mpr hroot) p)

end Linking

end AzureMetadata.Interface

/-! ## The calls -/

namespace AzureMetadata.Analysis

open Clib Clib.Links AzureMetadata.Model AzureMetadata.Model.Nodes AzureMetadata.Interface

variable {double : Type} {f : Forest double} {st : JsonNodes double} {n : ℕ}

/-- The program ends because that request is refused. -/
def ExitsAt (A : Allocator UInt8) (k : ℕ) (e : Stop) : Prop :=
  e = .exit ∧ (A k).granted = false

/-- A request that is not too large changes no node. -/
theorem allocate_describes (A : Allocator UInt8) (h : Describes st f) (size : ℕ)
    (hsize : size ≤ ptrdiffMax) :
    Yields (ExitsAt A st.requests) ((allocate A size).run st) fun r =>
      r.2.requests = st.requests + 1 ∧ Describes r.2 f := by
  by_cases hgrant : (A st.requests).granted ∧ size ≤ ptrdiffMax
  · rw [show (allocate A size).run st = _ from if_pos hgrant]
    exact ⟨rfl, h.count, h.live, h.key, h.content, h.linked, h.sound⟩
  · rw [show (allocate A size).run st = _ from if_neg hgrant]
    exact ⟨rfl, Bool.eq_false_iff.mpr fun hgranted => hgrant ⟨hgranted, hsize⟩⟩

/-- `mknode` makes a node. -/
theorem mknode_describes (A : Allocator UInt8) (h : Describes st f) (content : JsonContent double) :
    Yields (ExitsAt A st.requests) ((mknode A content).run st) fun r =>
      r.1 = some f.count ∧ Describes r.2 (f.make content) := by
  unfold mknode
  rw [StateT.run_bind]
  refine (allocate_describes A h 56 (by unfold ptrdiffMax; omega)).bind ?_
  rintro ⟨_, st⟩ ⟨-, h⟩
  have hclear : clearLinks st.links st.count = st.links := by
    have hkids := children_count h.sound
    have hparent := h.root_iff.mpr (root_count h.sound)
    rw [← h.count] at hkids hparent
    have hhead : st.links.head st.count = none := by rw [h.linked.head, hkids]; rfl
    have htail : st.links.tail st.count = none := by rw [h.linked.tail, hkids]; rfl
    have hprev := h.linked.prev_root _ hparent
    have hnext := h.linked.next_root _ hparent
    have hself : ∀ g : ℕ → Ptr, g st.count = none → Function.update g st.count none = g :=
      fun g hg => by rw [← hg, Function.update_eq_self]
    simp only [clearLinks, setParent, setPrev, setNext, setHead, setTail, hself _ hparent,
      hself _ hprev, hself _ hnext, hself _ hhead, hself _ htail]
  refine ⟨congrArg some h.count, ?_⟩
  constructor
  case count => exact congrArg (· + 1) h.count
  case live => exact congrArg₂ (Function.update · · true) h.live h.count
  case key => exact congrArg₂ (Function.update · · none) h.key h.count
  case content => exact congrArg₂ (Function.update · · content) h.content h.count
  case linked =>
    have hlinked : Linked (clearLinks st.links st.count) f.children := by
      rw [hclear]
      exact h.linked
    exact hlinked
  case sound => exact sound_make h.sound content

/-- **What `json_remove_from_parent` does.** -/
theorem removeFromParent_describes (h : Describes st f) (hn : f.live n = true) :
    ∃ st', (jsonRemoveFromParent (some n)).run st = .ok ((), st') ∧ Describes st' (f.detach n) := by
  have hlive : st.live n = true := h.live_iff.trans hn
  cases hparent : st.links.parent n with
  | none =>
      refine ⟨st, run_removeFromParent_root hlive hparent, ?_⟩
      have hroot := h.root_iff.mp hparent
      have hsame : f.detach n = f := by
        have hkids : (fun q => (f.children q).erase n) = f.children :=
          funext fun q => List.erase_of_not_mem (hroot q)
        have hkey : Function.update f.key n none = f.key := by
          rw [← h.key]
          exact h.key_root hroot
        rw [Forest.detach, hkids, hkey]
      rw [hsame]
      exact h
  | some p =>
      have hc := h.linked.parent_iff.mp hparent
      obtain ⟨hprev, hnext⟩ := h.siblings hc
      refine ⟨_, run_removeFromParent hlive hparent (h.live_child hc).1 hprev hnext, ?_⟩
      have hkids : Function.update f.children p ((f.children p).erase n) =
          (f.detach n).children := by
        funext q
        by_cases hq : q = p
        · subst hq
          exact Function.update_self ..
        · rw [Function.update_of_ne hq]
          exact (List.erase_of_not_mem fun hmem => hq (h.linked.parent_unique hmem hc)).symm
      exact {
        count := h.count
        live := h.live
        key := by rw [h.key]; rfl
        content := h.content
        linked := hkids ▸ h.linked.detach hparent
        sound := sound_detach h.sound h.linked.nodup n }

end AzureMetadata.Analysis
