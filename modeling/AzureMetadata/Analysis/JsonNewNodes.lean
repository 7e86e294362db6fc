import AzureMetadata.Analysis.JsonDelete
import AzureMetadata.Analysis.JsonNodeRuns
import AzureMetadata.Analysis.JsonNodeTrees

/-!
# New nodes

What a function that makes nodes does to the others, which is nothing, and to the new ones:
`Built` says that they are those of one tree, `Discarded` that none of them is left.  A tree
is linked to a container that was built before it, or deleted, and these calls request no
memory.
-/

set_option autoImplicit false

namespace AzureMetadata.Analysis

open Clib Clib.Links AzureMetadata.Model AzureMetadata.Model.Nodes AzureMetadata.Interface

/-! ## The forest while nodes are made -/

section Forests

variable {double : Type} {f f' f₁ f₂ : Forest double} {k n m c : ℕ} {v v' w : JsonTree double}

/-- The nodes of a forest are as they were; there may be new ones. -/
structure Kept (f f' : Forest double) : Prop where
  count : f.count ≤ f'.count
  live : ∀ m < f.count, f'.live m = f.live m
  children : ∀ m < f.count, f'.children m = f.children m
  key : ∀ m < f.count, f'.key m = f.key m
  content : ∀ m < f.count, f'.content m = f.content m

/-- The new nodes are those below `n`, where the tree is. -/
structure Built (f f' : Forest double) (k n : ℕ) (v : JsonTree double) : Prop where
  kept : Kept f f'
  root : Root f'.children n
  tree : f'.tree k n = some v
  below : ∀ m, Below f'.children n m ↔ f.count ≤ m ∧ f'.live m = true

/-- No new node is left. -/
structure Discarded (f f' : Forest double) : Prop where
  kept : Kept f f'
  released : ∀ m, f.count ≤ m → f'.live m = false

/-- A forest keeps its own nodes. -/
theorem Kept.refl (f : Forest double) : Kept f f :=
  ⟨le_rfl, fun _ _ => rfl, fun _ _ => rfl, fun _ _ => rfl, fun _ _ => rfl⟩

/-- What is kept by two calls is kept by both. -/
theorem Kept.trans (h : Kept f f₁) (h₁ : Kept f₁ f₂) : Kept f f₂ where
  count := h.count.trans h₁.count
  live m hm := (h₁.live m (hm.trans_le h.count)).trans (h.live m hm)
  children m hm := (h₁.children m (hm.trans_le h.count)).trans (h.children m hm)
  key m hm := (h₁.key m (hm.trans_le h.count)).trans (h.key m hm)
  content m hm := (h₁.content m (hm.trans_le h.count)).trans (h.content m hm)

/-- A forest without new nodes has discarded them all. -/
theorem discarded_self (h : f.Sound) : Discarded f f where
  kept := .refl f
  released m hm := by
    by_contra hlive
    exact absurd (h.bound m (Bool.eq_true_of_not_eq_false hlive)) (by omega)

/-- What is below a live node is live. -/
theorem live_of_below (h : f.Sound) (hn : f.live n = true) (hm : Below f.children n m) :
    f.live m = true := by
  cases hm with
  | refl => exact hn
  | tail _ hm => exact (h.live _ _ hm).2

/-- Below a node that is kept there are the same nodes. -/
theorem Kept.below (hk : Kept f f') (h : f.Sound) (hn : f.live n = true) :
    Below f'.children n m ↔ Below f.children n m := by
  constructor
  · intro hm
    induction hm with
    | refl => exact below_self
    | @tail p m _ hm ih =>
        rw [hk.children p (h.bound p (live_of_below h hn ih))] at hm
        exact ih.child hm
  · intro hm
    induction hm with
    | refl => exact below_self
    | @tail p m hp hm ih =>
        rw [← hk.children p (h.bound p (live_of_below h hn hp))] at hm
        exact ih.child hm

/-- It has the same tree. -/
theorem Kept.tree (hk : Kept f f') (h : f.Sound) (hn : f.live n = true) :
    f'.tree k n = f.tree k n := by
  refine tree_congr fun m hm => ?_
  have hlt : m < f.count := h.bound m (live_of_below h hn hm)
  exact ⟨hk.content m hlt, hk.children m hlt, fun d hd => hk.key d (h.bound d (h.live m d hd).2)⟩

/-- The node that is built is a new one. -/
theorem Built.new (hb : Built f f' k n v) : f.count ≤ n ∧ f'.live n = true :=
  (hb.below n).mp below_self

/-- A node that was just made is one without children. -/
theorem built_make (h : f.Sound) {content : JsonContent double}
    (htree : (f.make content).tree (k + 1) f.count = some v) :
    Built f (f.make content) (k + 1) f.count v where
  kept := {
    count := Nat.le_succ _
    live := fun m hm => Function.update_of_ne hm.ne _ _
    children := fun _ _ => rfl
    key := fun m hm => Function.update_of_ne hm.ne _ _
    content := fun m hm => Function.update_of_ne hm.ne _ _ }
  root := root_count h
  tree := htree
  below m := by
    constructor
    · intro hm
      have he : m = f.count := by
        induction hm with
        | refl => rfl
        | tail _ hm ih =>
            subst ih
            exact absurd (children_count h ▸ hm : _ ∈ []) List.not_mem_nil
      exact ⟨he.ge, he ▸ Function.update_self ..⟩
    · rintro ⟨hm, hlive⟩
      by_cases he : m = f.count
      · exact he ▸ below_self
      · rw [show (f.make content).live m = f.live m from Function.update_of_ne he _ _] at hlive
        exact absurd (h.bound m hlive) (by omega)

/-- What was built stays when what was made after it is discarded. -/
theorem Built.of_discarded (hb : Built f f₁ k n v) (h₁ : f₁.Sound) (h₂ : f₂.Sound)
    (hd : Discarded f₁ f₂) : Built f f₂ k n v where
  kept := hb.kept.trans hd.kept
  root p hp := by
    by_cases hlt : p < f₁.count
    · rw [hd.kept.children p hlt] at hp
      exact hb.root p hp
    · have hlive := (h₂.live p n hp).1
      rw [hd.released p (by omega)] at hlive
      cases hlive
  tree := (hd.kept.tree h₁ hb.new.2).trans hb.tree
  below m := by
    rw [hd.kept.below h₁ hb.new.2, hb.below]
    refine and_congr_right fun _ => ?_
    by_cases hlt : m < f₁.count
    · rw [hd.kept.live m hlt]
    · rw [hd.released m (by omega)]
      exact iff_of_false (fun hlive => hlt (h₁.bound m hlive)) Bool.false_ne_true

/-- A value that was built last is linked to the container that was built before it. -/
theorem Built.append (hb : Built f f₁ (k + 1) n v) (hc : Built f₁ f₂ k c w) (h₁ : f₁.Sound)
    (h₂ : f₂.Sound) {key : Option CString}
    (htree : (f₂.append n c key).tree (k + 1) n = some v') :
    Built f (f₂.append n c key) (k + 1) n v' := by
  have hn : n < f₁.count := h₁.bound n hb.new.2
  have hmem : ∀ {q x}, x ∈ (f₂.append n c key).children q ↔
      x ∈ f₂.children q ∨ q = n ∧ x = c := mem_link fun x => by simp
  have hold : ∀ {q x}, x ∈ f₁.children q → x ∈ (f₂.append n c key).children q := by
    intro q x hx
    rw [← hc.kept.children q (h₁.bound q (h₁.live q x hx).1)] at hx
    exact hmem.mpr (.inl hx)
  constructor
  case kept =>
    have hk := hb.kept.trans hc.kept
    have hnew : f.count ≤ n ∧ f.count ≤ c := ⟨hb.new.1, hb.kept.count.trans hc.new.1⟩
    refine ⟨hk.count, hk.live, fun m hm => ?_, fun m hm => ?_, hk.content⟩
    · exact (Function.update_of_ne (by omega) _ _).trans (hk.children m hm)
    · exact (Function.update_of_ne (by omega) _ _).trans (hk.key m hm)
  case root =>
    intro p hp
    rcases hmem.mp hp with hp | ⟨-, he⟩
    · by_cases hlt : p < f₁.count
      · rw [hc.kept.children p hlt] at hp
        exact hb.root p hp
      · have hpc : Below f₂.children c p := (hc.below p).mpr ⟨by omega, (h₂.live p n hp).1⟩
        have := ((hc.below n).mp (hpc.child hp)).1
        omega
    · have := hc.new.1
      omega
  case tree => exact htree
  case below =>
    intro m
    constructor
    · intro hm
      induction hm with
      | refl => exact ⟨hb.new.1, (hc.kept.live n hn).trans hb.new.2⟩
      | @tail p m _ hm ih =>
          rcases hmem.mp hm with hm | ⟨-, rfl⟩
          · refine ⟨?_, (h₂.live p m hm).2⟩
            -- The container's part and the value's part have no node in common.
            by_cases hlt : p < f₁.count
            · have hp : Below f₁.children n p :=
                (hb.below p).mpr ⟨ih.1, (hc.kept.live p hlt).symm.trans ih.2⟩
              rw [hc.kept.children p hlt] at hm
              exact ((hb.below m).mp (hp.child hm)).1
            · have hp : Below f₂.children c p := (hc.below p).mpr ⟨by omega, ih.2⟩
              exact (hb.kept.count.trans ((hc.below m).mp (hp.child hm)).1)
          · exact ⟨hb.kept.count.trans hc.new.1, hc.new.2⟩
    · rintro ⟨hm, hlive⟩
      by_cases hlt : m < f₁.count
      · have hm₁ : Below f₁.children n m :=
          (hb.below m).mpr ⟨hm, (hc.kept.live m hlt).symm.trans hlive⟩
        exact hm₁.mono fun _ _ => hold
      · have hm₂ : Below f₂.children c m := (hc.below m).mpr ⟨by omega, hlive⟩
        refine Below.of_child (hmem.mpr (.inr ⟨rfl, rfl⟩)) (hm₂.mono fun _ _ hx => ?_)
        exact hmem.mpr (.inl hx)

/-- What was built is deleted. -/
theorem Built.delete (hb : Built f f' k n v) (h : f.Sound) : Discarded f (f'.delete n) := by
  have hold : ∀ {m}, m < f.count → m ∉ {m | Below f'.children n m} := by
    intro m hm hbelow
    have := ((hb.below m).mp hbelow).1
    omega
  constructor
  case kept =>
    constructor
    case count => exact hb.kept.count
    case live =>
      intro m hm
      rw [← hb.kept.live m hm, Bool.eq_iff_iff, Forest.delete, drop_live]
      exact and_iff_left (hold hm)
    case children =>
      intro m hm
      rw [← hb.kept.children m hm]
      refine dropNodes_eq_self (hold hm) fun c hc => ?_
      rw [hb.kept.children m hm] at hc
      exact hold (h.bound c (h.live m c hc).2)
    case key => exact fun m hm => (drop_key (hold hm)).trans (hb.kept.key m hm)
    case content => exact hb.kept.content
  case released =>
    intro m hm
    rw [Bool.eq_false_iff]
    intro hlive
    obtain ⟨hlive, hbelow⟩ := drop_live.mp hlive
    exact hbelow ((hb.below m).mpr ⟨hm, hlive⟩)

end Forests

/-! ## Calls of the parser -/

section Calls

variable {double α β : Type} {f f' f₁ : Forest double} {st : JsonNodes double} {k n c : ℕ}
  {v : JsonTree double} {A : Allocator UInt8}

/-- A call that requests no memory. -/
def Quiet (call : NodeCall double α) : Prop :=
  ∀ st a st', call.run st = .ok (a, st') → st'.requests = st.requests

/-- To return a value makes no request. -/
theorem quiet_pure (a : α) : Quiet (pure a : NodeCall double α) := by
  rintro st _ st' ⟨⟩
  rfl

/-- Nor do two calls that make none. -/
theorem Quiet.bind {call : NodeCall double α} {g : α → NodeCall double β} (h : Quiet call)
    (hg : ∀ a, Quiet (g a)) : Quiet (call >>= g) := by
  intro st b st' hrun
  rw [StateT.run_bind] at hrun
  cases hcall : call.run st with
  | error e =>
      rw [hcall] at hrun
      cases hrun
  | ok r =>
      rw [hcall] at hrun
      exact (hg r.1 r.2 b st' hrun).trans (h st r.1 r.2 hcall)

/-- To look at a node makes none. -/
theorem quiet_nodeAt (p : Ptr) : Quiet (nodeAt p : NodeCall double ℕ) := by
  intro st a st' hrun
  cases p with
  | none => cases hrun
  | some n =>
      cases hn : st.live n with
      | false =>
          rw [nodeAt_released hn] at hrun
          cases hrun
      | true =>
          rw [nodeAt_run hn] at hrun
          cases hrun
          rfl

/-- Nor does a load of a field. -/
theorem quiet_load (g : JsonNodes double → ℕ → α) (p : Ptr) : Quiet (load g p) := by
  refine (quiet_nodeAt p).bind fun n => Quiet.bind ?_ fun st => quiet_pure _
  rintro st _ _ ⟨⟩
  rfl

/-- Nor does an assignment to one. -/
theorem quiet_assign (g : Links ℕ → ℕ → Links ℕ) (p : Ptr) :
    Quiet (assign g p : NodeCall double Unit) := by
  refine (quiet_nodeAt p).bind fun n => ?_
  rintro st _ _ ⟨⟩
  rfl

/-- Nor does a choice between calls that make none. -/
theorem quiet_ite {b : Prop} [Decidable b] {call call' : NodeCall double α} (h : Quiet call)
    (h' : Quiet call') : Quiet (if b then call else call') := by
  split
  · exact h
  · exact h'

/-- So `json_remove_from_parent` makes none. -/
theorem quiet_removeFromParent (p : Ptr) :
    Quiet (jsonRemoveFromParent p : NodeCall double Unit) := by
  have hkey : Quiet (assignKey none p : NodeCall double Unit) := by
    refine (quiet_nodeAt p).bind fun n => ?_
    rintro st _ _ ⟨⟩
    rfl
  have hset : ∀ (field : Ptr → Links ℕ → ℕ → Links ℕ) (get : JsonNodes double → ℕ → Ptr)
      (q : Ptr) {rest : NodeCall double Unit}, Quiet rest → Quiet (do
        assign (field (← load get p)) q
        rest) :=
    fun field get q _ h => (quiet_load get p).bind fun r => (quiet_assign _ q).bind fun _ => h
  have hend : Quiet (do
      assign (setParent none) p
      assign (setPrev none) p
      assign (setNext none) p
      assignKey none p : NodeCall double Unit) :=
    (quiet_assign _ p).bind fun _ => (quiet_assign _ p).bind fun _ =>
      (quiet_assign _ p).bind fun _ => hkey
  unfold jsonRemoveFromParent
  refine (quiet_load _ p).bind fun parent => quiet_ite ?_ (quiet_pure ())
  refine (quiet_load _ p).bind fun prev => quiet_ite (hset _ _ _ ?_) (hset _ _ _ ?_)
  · exact (quiet_load _ p).bind fun next => quiet_ite (hset _ _ _ hend) (hset _ _ _ hend)
  · exact (quiet_load _ p).bind fun next => quiet_ite (hset _ _ _ hend) (hset _ _ _ hend)

/-- Nor does the loop over the children, if what deletes them makes none. -/
theorem quiet_deleteChildren {delete : Ptr → NodeCall double Unit}
    (hdelete : ∀ p, Quiet (delete p)) (rounds : ℕ) (p : Ptr) :
    Quiet (deleteChildren delete rounds p) := by
  induction rounds generalizing p with
  | zero =>
      cases p with
      | none => exact quiet_pure ()
      | some c => exact fun _ _ _ hrun => nomatch hrun
  | succ rounds ih =>
      cases p with
      | none => exact quiet_pure ()
      | some c => exact (quiet_load _ _).bind fun next => (hdelete _).bind fun _ => ih next

/-- So `json_delete` makes none. -/
theorem quiet_delete (deletes : ℕ) (p : Ptr) :
    Quiet (jsonDelete deletes p : NodeCall double Unit) := by
  have hfree : ∀ n, Quiet (freeNode (some n) : NodeCall double Unit) := by
    refine fun n => (quiet_nodeAt _).bind fun n => ?_
    rintro st _ _ ⟨⟩
    rfl
  induction deletes generalizing p with
  | zero => exact fun _ _ _ hrun => nomatch hrun
  | succ deletes ih =>
      cases p with
      | none => exact quiet_pure ()
      | some n =>
          rw [jsonDelete]
          refine (quiet_removeFromParent _).bind fun _ => (quiet_load _ _).bind fun tag => ?_
          refine quiet_ite ((quiet_load _ _).bind fun head => ?_) (hfree n)
          refine Quiet.bind ?_ fun st => (quiet_deleteChildren ih _ _).bind fun _ => hfree n
          rintro st _ _ ⟨⟩
          rfl

/-- The number of requests, and a forest that satisfies `P`. -/
def NodesAre (P : Forest double → Prop) (requests : ℕ) (st : JsonNodes double) : Prop :=
  st.requests = requests ∧ ∃ f, Describes st f ∧ P f

/-- A pointer to a node with the tree that was returned. -/
def Makes (f : Forest double) (k : ℕ) (r : Option (JsonTree double)) (p : Ptr)
    (f' : Forest double) : Prop :=
  ∃ v n, r = some v ∧ p = some n ∧ Built f f' k n v

/-- The count of requests is no part of the forest. -/
theorem describes_withRequests (h : Describes st f) (requests : ℕ) :
    Describes { st with requests := requests } f :=
  ⟨h.count, h.live, h.key, h.content, h.linked, h.sound⟩

/-- Both parsers may go on from another count of requests. -/
theorem NodesAre.withRequests {P : Forest double → Prop} {q : ℕ} (h : NodesAre P q st) (q' : ℕ) :
    NodesAre P q' { st with requests := q' } :=
  ⟨rfl, h.2.imp fun _ hf => ⟨describes_withRequests hf.1 q', hf.2⟩⟩

/-- What is known of the forest may be forgotten. -/
theorem NodesAre.mono {P Q : Forest double → Prop} {q : ℕ} (h : NodesAre P q st)
    (hP : ∀ f, P f → Q f) : NodesAre Q q st := ⟨h.1, h.2.imp fun f hf => ⟨hf.1, hP f hf.2⟩⟩

/-- `mknode` that finds memory. -/
theorem run_mknode (hgrant : (A st.requests).granted = true) (content : JsonContent double) :
    ∃ st', (Nodes.mknode A content).run st = .ok (some st.count, st') ∧
      st'.requests = st.requests + 1 := by
  have hallocate : (allocate A 56).run st = .ok ((), { st with requests := st.requests + 1 }) :=
    if_pos ⟨hgrant, by decide⟩
  unfold Nodes.mknode
  rw [StateT.run_bind, hallocate]
  exact ⟨_, rfl, rfl⟩

/-- A refused request for a node exits. -/
theorem run_mknode_refused (hgrant : ¬ (A st.requests).granted = true)
    (content : JsonContent double) : (Nodes.mknode A content).run st = .error .exit := by
  have hallocate : (allocate A 56).run st = .error .exit := if_neg fun h => hgrant h.1
  unfold Nodes.mknode
  rw [StateT.run_bind, hallocate]
  rfl

/-- `json_append_element` on nodes that may be linked. -/
theorem run_appendElement (h : Describes st f) (hn : f.live n = true) (hc : f.live c = true)
    (htag : (f.content n).tag = .JSON_ARRAY) (hroot : Root f.children c) :
    ∃ st', (jsonAppendElement (some n) (some c)).run st = .ok ((), st') ∧
      st'.requests = st.requests ∧ Describes st' (f.append n c none) := by
  have hnl : st.live n = true := h.live_iff.trans hn
  have hcl : st.live c = true := h.live_iff.trans hc
  have hparent : getParent st c = none := h.root_iff.mpr hroot
  unfold jsonAppendElement
  rw [run_load_bind hnl, h.tag_eq, run_assert_bind htag, run_load_bind hcl,
    run_assert_bind hparent, run_appendNode hnl hcl h.live_tail]
  refine ⟨_, rfl, rfl, describes_without_key h hroot ?_⟩
  exact h.append hn hc hroot (.inl ⟨htag, rfl⟩)

/-- `append_member` on nodes that may be linked. -/
theorem run_appendMember (h : Describes st f) (hn : f.live n = true) (hc : f.live c = true)
    (htag : (f.content n).tag = .JSON_OBJECT) (hroot : Root f.children c) (key : CString) :
    ∃ st', (appendMember (some n) key (some c)).run st = .ok ((), st') ∧
      st'.requests = st.requests ∧ Describes st' (f.append n c (some key)) := by
  have hnl : st.live n = true := h.live_iff.trans hn
  have hcl : st.live c = true := h.live_iff.trans hc
  unfold appendMember
  rw [run_assignKey_bind hcl]
  exact ⟨_, run_appendNode hnl hcl h.live_tail, rfl, h.append hn hc hroot (.inr ⟨htag, rfl⟩)⟩

/-- A failure after which what was built is deleted. -/
theorem delete_built {deletes q : ℕ} (hf : f.Sound) (hk : k ≤ deletes)
    (h : NodesAre (fun f' => Built f f' k n v) q st) :
    ∃ st', (jsonDelete deletes (some n)).run st = .ok ((), st') ∧ NodesAre (Discarded f) q st' := by
  obtain ⟨hq, f', h', hb⟩ := h
  have hyields := jsonDelete_yields deletes st f' n h' hb.new.2
  cases hrun : (jsonDelete deletes (some n)).run st with
  | error e =>
      have hheight : Height f'.children k n := (tree_ne_none h'.sound).mp (by simp [hb.tree])
      refine absurd ((hheight.mono fun p c hc => ?_).le hk) (hyields.of_error hrun).2
      exact ((mem_detach h'.linked.nodup).mp hc).2
  | ok r =>
      refine ⟨r.2, rfl, (quiet_delete deletes _ st () r.2 hrun).trans hq, _,
        hyields.of_ok hrun, hb.delete hf⟩

end Calls

end AzureMetadata.Analysis
