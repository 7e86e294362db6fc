import AzureMetadata.Analysis.JsonForest

/-!
# What `json_delete` releases

The node is unlinked first, and so nothing above it leads to it while its children are
deleted: `jsonDelete_yields` says that exactly the nodes below it are released, and each
of them once, even if it was below itself.
-/

set_option autoImplicit false

namespace AzureMetadata.Analysis

open Clib Clib.Links AzureMetadata.Model AzureMetadata.Model.Nodes AzureMetadata.Interface

variable {double : Type} {f g : Forest double} {st : JsonNodes double} {c n m : ℕ}

/-! ## Dropping nodes of a forest -/

section Drop

variable {S T : Set ℕ}

/-- The nodes that are left are live as before. -/
theorem drop_live : (f.drop S).live m = true ↔ f.live m = true ∧ m ∉ S := by
  simp [Forest.drop]

/-- They have their keys. -/
theorem drop_key (hm : m ∉ S) : (f.drop S).key m = f.key m := if_neg hm

/-- A node that is dropped has none. -/
theorem drop_key_of_mem (hm : m ∈ S) : (f.drop S).key m = none := if_pos hm

/-- Without nodes to drop nothing changes. -/
theorem drop_empty : f.drop ∅ = f := by
  have hlive : (f.drop ∅).live = f.live :=
    funext fun m => Bool.eq_iff_iff.mpr (drop_live.trans (and_iff_left (Set.notMem_empty m)))
  have hkey : (f.drop ∅).key = f.key := funext fun m => drop_key (Set.notMem_empty m)
  exact Forest.ext rfl hlive dropNodes_empty hkey rfl

/-- To drop two sets one after the other is to drop their union. -/
theorem drop_drop : (f.drop S).drop T = f.drop (S ∪ T) := by
  have hlive : ((f.drop S).drop T).live = (f.drop (S ∪ T)).live := by
    funext m
    rw [Bool.eq_iff_iff, drop_live, drop_live, drop_live, Set.mem_union, not_or, and_assoc]
  have hkey : ((f.drop S).drop T).key = (f.drop (S ∪ T)).key := by
    funext m
    by_cases hT : m ∈ T
    · rw [drop_key_of_mem hT, drop_key_of_mem (Set.mem_union_right S hT)]
    · rw [drop_key hT]
      by_cases hS : m ∈ S
      · rw [drop_key_of_mem hS, drop_key_of_mem (Set.mem_union_left T hS)]
      · rw [drop_key hS, drop_key fun h => h.elim hS hT]
  exact Forest.ext rfl hlive dropNodes_dropNodes hkey rfl

/-- Dropping nodes with all that is below them leaves a forest sound. -/
theorem sound_drop (h : f.Sound) (hclosed : ∀ p ∈ S, ∀ c ∈ f.children p, c ∈ S) :
    (f.drop S).Sound := by
  have hkey : ∀ {p c}, c ∈ (f.drop S).children p → (f.drop S).key c = f.key c :=
    fun hc => if_neg (mem_dropNodes.mp hc).2.2
  constructor
  case bound => exact fun n hn => h.bound n (drop_live.mp hn).1
  case live =>
    intro p c hc
    obtain ⟨hc, hp, hcS⟩ := mem_dropNodes.mp hc
    obtain ⟨hpl, hcl⟩ := h.live p c hc
    exact ⟨drop_live.mpr ⟨hpl, hp⟩, drop_live.mpr ⟨hcl, hcS⟩⟩
  case container => exact fun p c hc => h.container p c (mem_dropNodes.mp hc).1
  case element =>
    exact fun p c hc htag => (hkey hc).trans (h.element p c (mem_dropNodes.mp hc).1 htag)
  case member =>
    intro p c hc htag
    rw [hkey hc]
    exact h.member p c (mem_dropNodes.mp hc).1 htag
  case root =>
    intro c hroot
    by_cases hc : c ∈ S
    · exact if_pos hc
    · refine (if_neg hc).trans (h.root c fun p hp => ?_)
      exact hroot p (mem_dropNodes.mpr ⟨hp, fun hpS => hc (hclosed p hpS c hp), hc⟩)

end Drop

/-! ## What is below a node -/

section Descent

/-- What is below a node is the node and what is below its children, while it is no child. -/
theorem below_detach (hnodup : ∀ p, (f.children p).Nodup) : Below f.children n m ↔
    m = n ∨ ∃ d ∈ (f.detach n).children n, Below (f.detach n).children d m := by
  constructor
  · intro h
    induction h with
    | refl => exact .inl rfl
    | @tail p m _ hm ih =>
        by_cases he : m = n
        · exact .inl he
        · have hm' := (mem_detach (q := p) hnodup).mpr ⟨he, hm⟩
          rcases ih with rfl | ⟨d, hd, hp⟩
          · exact .inr ⟨m, hm', below_self⟩
          · exact .inr ⟨d, hd, hp.child hm'⟩
  · rintro (rfl | ⟨d, hd, hm⟩)
    · exact below_self
    · refine Below.of_child ((mem_detach hnodup).mp hd).2 (hm.mono fun p c hc => ?_)
      exact ((mem_detach hnodup).mp hc).2

/-- What is below a child or its siblings, after the child was deleted. -/
theorem below_siblings {ds : List ℕ} :
    {m | Below f.children c m} ∪ {m | ∃ d ∈ ds, Below (f.delete c).children d m} =
      {m | ∃ d ∈ c :: ds, Below f.children d m} := by
  ext m
  constructor
  · rintro (hm | ⟨d, hd, hm⟩)
    · exact ⟨c, by simp, hm⟩
    · exact ⟨d, by simp [hd], hm.mono fun p x hx => (mem_dropNodes.mp hx).1⟩
  · rintro ⟨d, hd, hm⟩
    rcases List.mem_cons.mp hd with rfl | hd
    · exact .inl hm
    · induction hm with
      | refl => exact .inr ⟨d, hd, below_self⟩
      | @tail p m _ hm ih =>
          -- A step into the deleted nodes is never taken back.
          by_cases hp : Below f.children c p
          · exact .inl (hp.child hm)
          · by_cases hmc : Below f.children c m
            · exact .inl hmc
            · obtain ⟨d', hd', hp'⟩ := ih.resolve_left hp
              exact .inr ⟨d', hd', hp'.child (mem_dropNodes.mpr ⟨hm, hp, hmc⟩)⟩

/-- The live nodes bound the stack that `json_delete` takes. -/
theorem height_detach (h : Describes st f) (hn : f.live n = true) :
    Height (f.detach n).children f.nodes.card n := by
  obtain ⟨st', -, h'⟩ := removeFromParent_describes h hn
  refine height_of_root (fun p c hc => h'.linked.parent_iff.mpr hc) ?_ ?_
  · exact h'.root_iff.mpr (root_detach h.linked.nodup)
  · intro m hm
    have hlive : f.live m = true := by
      cases hm with
      | refl => exact hn
      | tail _ hm => exact (h'.sound.live _ _ hm).2
    exact Finset.mem_filter.mpr ⟨Finset.mem_range.mpr (h.sound.bound m hlive), hlive⟩

/-- A node has no more children than there are nodes. -/
theorem length_children_le (h : f.Sound) (hnodup : ∀ p, (f.children p).Nodup) :
    (f.children n).length ≤ f.count := by
  have hsub : f.children n ⊆ List.range f.count := fun c hc =>
    List.mem_range.mpr (h.bound c (h.live n c hc).2)
  have hle := (List.subperm_of_subset (hnodup n) hsub).length_le
  rwa [List.length_range] at hle

end Descent

/-! ## The recursion -/

section Delete

/-- `json_delete` releases what is below a node, if the stack has room for its height. -/
def Deletes (double : Type) (frames : ℕ) : Prop :=
  ∀ (st : JsonNodes double) (f : Forest double) (n : ℕ), Describes st f → f.live n = true →
    Yields (fun e => e = .stackOverflow ∧ ¬ Height (f.detach n).children frames n)
      ((jsonDelete frames (some n)).run st) fun r => Describes r.2 (f.delete n)

/-- The loop over the children: they are deleted one after the other. -/
theorem deleteChildren_yields {frames : ℕ} (hdelete : Deletes double frames) {ds : List ℕ}
    {rounds : ℕ} (h : Describes st g) (hroot : Root g.children n) (hds : g.children n = ds)
    (hrounds : ds.length ≤ rounds) :
    Yields (fun e => e = .stackOverflow ∧ ∃ d ∈ ds, ¬ Height g.children frames d)
      ((deleteChildren (fun child => jsonDelete frames child) rounds ds.head?).run st)
      fun r => Describes r.2 (g.drop {m | ∃ d ∈ ds, Below g.children d m}) := by
  induction ds generalizing st g rounds with
  | nil =>
      have hnone : {m | ∃ d ∈ ([] : List ℕ), Below g.children d m} = ∅ := by simp
      rw [hnone, drop_empty]
      cases rounds with
      | zero => exact h
      | succ rounds => exact h
  | cons c ds ih =>
      cases rounds with
      | zero => simp at hrounds
      | succ rounds =>
          have hc : c ∈ g.children n := by simp [hds]
          have hcl := h.live_child hc
          have hsplit : g.children n = [] ++ c :: ds := hds
          have hnext : getNext st c = ds.head? := (h.linked.siblings hsplit).2
          have hsub : ∀ p, ∀ x ∈ (g.delete c).children p, x ∈ g.children p :=
            fun p x hx => (mem_dropNodes.mp hx).1
          have hnodup := h.linked.nodup n
          rw [hds] at hnodup
          have hds₁ : (g.delete c).children n = ds := by
            have hn : ¬ Below g.children c n := by
              intro hbelow
              obtain rfl : c = n := Below.eq_of_root hbelow hroot
              exact hroot c hc
            have hsiblings : ∀ d ∈ ds, ¬ Below g.children c d := by
              intro d hd
              refine sibling_notBelow h.unique hroot hc (by simp [hds, hd]) ?_
              rintro rfl
              exact (List.nodup_cons.mp hnodup).1 hd
            exact dropNodes_cons hn hds below_self hsiblings
          rw [List.head?_cons, deleteChildren, run_load_bind hcl.2, hnext, StateT.run_bind]
          refine ((hdelete st g c h (h.live_iff.symm.trans hcl.2)).allow ?_).bind ?_
          · rintro e ⟨he, hheight⟩
            refine ⟨he, c, by simp, fun hfits => hheight (hfits.mono fun p x hx => ?_)⟩
            exact ((mem_detach h.linked.nodup).mp hx).2
          · intro r h₁
            refine ((ih h₁ (fun p hp => hroot p (hsub p n hp)) hds₁
              (by simpa using hrounds)).allow ?_).mono ?_
            · rintro e ⟨he, d, hd, hheight⟩
              exact ⟨he, d, by simp [hd], fun hfits => hheight (hfits.mono hsub)⟩
            · intro r' h₂
              rw [Forest.delete, drop_drop, ← Forest.delete, below_siblings] at h₂
              exact h₂

/-- The forest after its children and then the node itself were released. -/
theorem describes_release {S : Set ℕ} {st' : JsonNodes double} (h : Describes st f)
    (hS : ∀ m, Below f.children n m ↔ m = n ∨ m ∈ S) (hn : n ∉ S)
    (hkids : ∀ c ∈ (f.detach n).children n, c ∈ S) (h' : Describes st' ((f.detach n).drop S)) :
    Describes { st' with live := Function.update st'.live n false } (f.delete n) := by
  have hmem : ∀ m, m ∈ {m | Below f.children n m} ↔ m = n ∨ m ∈ S := hS
  constructor
  case count => exact h'.count
  case live =>
    funext m
    rw [Bool.eq_iff_iff, Forest.delete, drop_live, hmem, not_or]
    change (Function.update st'.live n false m = true ↔ _)
    by_cases hm : m = n
    · subst hm
      simp
    · rw [Function.update_of_ne hm, h'.live, drop_live]
      exact and_congr_right fun _ => (and_iff_right hm).symm
  case key =>
    funext m
    rw [h'.key, Forest.delete]
    by_cases hm : m = n ∨ m ∈ S
    · rw [drop_key_of_mem ((hmem m).mpr hm)]
      by_cases hmS : m ∈ S
      · exact drop_key_of_mem hmS
      · obtain rfl := hm.resolve_right hmS
        exact (drop_key hmS).trans (Function.update_self ..)
    · rw [drop_key fun hmS => hm (.inr hmS), drop_key fun h => hm ((hmem m).mp h)]
      exact Function.update_of_ne (fun he => hm (.inl he)) _ _
  case content => exact h'.content
  case linked =>
    have hdrop : ((f.detach n).drop S).children = (f.delete n).children :=
      dropNodes_erase h.linked.nodup hn hkids hmem
    rw [← hdrop]
    exact h'.linked
  case sound => exact sound_drop h.sound fun p hp c hc => Below.child hp hc

/-- After its children are deleted the node itself is released. -/
theorem freeNode_yields {Allowed : Stop → Prop} (h : Describes st f) (hn : f.live n = true)
    {st' : JsonNodes double} (h' : Describes st' ((f.detach n).drop
      {m | ∃ d ∈ (f.detach n).children n, Below (f.detach n).children d m})) :
    Yields Allowed ((freeNode (some n)).run st') fun r => Describes r.2 (f.delete n) := by
  have hself : n ∉ {m | ∃ d ∈ (f.detach n).children n, Below (f.detach n).children d m} := by
    rintro ⟨d, hd, hbelow⟩
    have hroot := root_detach (n := n) h.linked.nodup
    obtain rfl : d = n := Below.eq_of_root hbelow hroot
    exact hroot d hd
  have hlive : st'.live n = true := by
    rw [h'.live]
    exact drop_live.mpr ⟨hn, hself⟩
  rw [run_freeNode hlive]
  refine describes_release h (fun m => below_detach h.linked.nodup) hself ?_ h'
  exact fun c hc => ⟨c, hc, below_self⟩

/-- **What `json_delete` does.** -/
theorem jsonDelete_yields (frames : ℕ) : Deletes double frames := by
  induction frames with
  | zero => exact fun st f n _ _ => ⟨rfl, id⟩
  | succ frames ih =>
      intro st f n h hn
      obtain ⟨st₁, hrun₁, h₁⟩ := removeFromParent_describes h hn
      have hn₁ : st₁.live n = true := h₁.live_iff.trans hn
      rw [jsonDelete]
      rw [run_bind_ok hrun₁, run_load_bind hn₁]
      by_cases htag : getTag st₁ n = .JSON_ARRAY ∨ getTag st₁ n = .JSON_OBJECT
      · have hhead : getHead st₁ n = ((f.detach n).children n).head? := h₁.linked.head n
        have hrounds : ((f.detach n).children n).length ≤ st₁.count := by
          rw [h₁.count]
          exact length_children_le h₁.sound h₁.linked.nodup
        rw [if_pos htag, run_load_bind hn₁, hhead]
        refine Yields.bind ((deleteChildren_yields ih h₁ (root_detach h.linked.nodup) rfl
          hrounds).allow ?_) fun r h₂ => freeNode_yields h hn h₂
        rintro e ⟨he, d, hd, hheight⟩
        exact ⟨he, fun hfits => hheight (hfits d hd)⟩
      · have hkids : (f.detach n).children n = [] := by
          rw [h₁.tag_eq, not_or] at htag
          exact children_leaf h₁.sound htag.1 htag.2
        have hnone : {m | ∃ d ∈ (f.detach n).children n, Below (f.detach n).children d m} = ∅ := by
          simp [hkids]
        rw [if_neg htag]
        refine freeNode_yields h hn ?_
        rw [hnone, drop_empty]
        exact h₁

end Delete

end AzureMetadata.Analysis
