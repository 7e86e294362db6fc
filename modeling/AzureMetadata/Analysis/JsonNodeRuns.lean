import AzureMetadata.Analysis.JsonDelete

/-!
# Runs of calls on JSON nodes

`nodeStep_yields` says of each call what it does to the forest, and why it does not return
if it does not; a run of any calls is then a run of the forest.
-/

set_option autoImplicit false

namespace AzureMetadata.Analysis

open Clib Clib.Links AzureMetadata.Model AzureMetadata.Model.Nodes AzureMetadata.Interface

variable {double α : Type} {f : Forest double} {st : JsonNodes double} {p c n frames : ℕ}
  {A : Allocator UInt8} {op : NodeOp double}

/-! ## Linking a node -/

section Link

/-- The two assertions in front of a call that links a node. -/
theorem asserted_yields (h : Describes st f) {tag : JsonTag} {rest : NodeCall double α}
    {P : α × JsonNodes double → Prop} (hp : p ∈ op.nodes) (hc : c ∈ op.nodes)
    (hassert : op.Asserted f → (f.content p).tag = tag ∧ Root f.children c)
    (hrest : f.live p = true → f.live c = true → (f.content p).tag = tag → Root f.children c →
      Yields (op.Prevents A st.requests f frames) (rest.run st) P) :
    Yields (op.Prevents A st.requests f frames) (StateT.run (do
      assert ((← load getTag (some p)) = tag)
      assert ((← load getParent (some c)) = none)
      rest) st) P := by
  cases hpl : st.live p with
  | false =>
      rw [run_load_released hpl]
      exact ⟨rfl, p, hp, h.live_iff.symm.trans hpl⟩
  | true =>
      rw [run_load_bind hpl, h.tag_eq]
      by_cases htag : (f.content p).tag = tag
      · rw [run_assert_bind htag]
        cases hcl : st.live c with
        | false =>
            rw [run_load_released hcl]
            exact ⟨rfl, c, hc, h.live_iff.symm.trans hcl⟩
        | true =>
            rw [run_load_bind hcl]
            by_cases hparent : getParent st c = none
            · rw [run_assert_bind hparent]
              exact hrest (h.live_iff.symm.trans hpl) (h.live_iff.symm.trans hcl) htag
                (h.root_iff.mp hparent)
            · rw [run_assert_fails hparent]
              exact fun hasserted => hparent (h.root_iff.mpr (hassert hasserted).2)
      · rw [run_assert_fails htag]
        exact fun hasserted => htag (hassert hasserted).1

/-- A node that was linked without a key. -/
theorem describes_without_key (h : Describes st f) (hroot : Root f.children c) {L : Links ℕ}
    {f' : Forest double}
    (h' : Describes { st with links := L, key := Function.update st.key c none } f') :
    Describes { st with links := L } f' := by
  rw [h.key_root hroot] at h'
  exact h'

/-- `json_append_element` appends the child without a key. -/
theorem jsonAppendElement_yields (h : Describes st f) :
    Yields ((NodeOp.appendElement p c).Prevents A st.requests f frames)
      ((jsonAppendElement (some p) (some c)).run st) fun r =>
        Describes r.2 (f.append p c none) := by
  refine asserted_yields h (by simp [NodeOp.nodes]) (by simp [NodeOp.nodes]) id ?_
  intro hp hc htag hroot
  rw [run_appendNode (h.live_iff.trans hp) (h.live_iff.trans hc) h.live_tail]
  exact describes_without_key h hroot (h.append hp hc hroot (.inl ⟨htag, rfl⟩))

/-- `json_prepend_element` puts it in front. -/
theorem jsonPrependElement_yields (h : Describes st f) :
    Yields ((NodeOp.prependElement p c).Prevents A st.requests f frames)
      ((jsonPrependElement (some p) (some c)).run st) fun r =>
        Describes r.2 (f.prepend p c none) := by
  refine asserted_yields h (by simp [NodeOp.nodes]) (by simp [NodeOp.nodes]) id ?_
  intro hp hc htag hroot
  rw [run_prependNode (h.live_iff.trans hp) (h.live_iff.trans hc) h.live_head]
  exact describes_without_key h hroot (h.prepend hp hc hroot (.inl ⟨htag, rfl⟩))

/-- `json_strdup` returns its argument. -/
theorem jsonStrdup_describes (A : Allocator UInt8) (h : Describes st f) (key : CString) :
    Yields (ExitsAt A st.requests) ((jsonStrdup A key).run st) fun r =>
      r.1 = key ∧ r.2.requests = st.requests + 1 ∧ Describes r.2 f := by
  unfold jsonStrdup
  rw [StateT.run_bind]
  exact (allocate_describes A h _ (Nat.succ_le_of_lt key.length_lt)).bind fun r hr => ⟨rfl, hr⟩

/-- A refused request is what prevents a call. -/
theorem prevents_exit {i : ℕ} (hi : i < op.requests) {e : Stop}
    (he : ExitsAt A (st.requests + i) e) : op.Prevents A st.requests f frames e := by
  obtain ⟨rfl, hrefused⟩ := he
  exact ⟨i, hi, hrefused⟩

/-- `json_append_member` appends it with the key. -/
theorem jsonAppendMember_yields (h : Describes st f) (key : CString) :
    Yields ((NodeOp.appendMember p key c).Prevents A st.requests f frames)
      ((jsonAppendMember A (some p) key (some c)).run st) fun r =>
        Describes r.2 (f.append p c (some key)) := by
  refine asserted_yields h (by simp [NodeOp.nodes]) (by simp [NodeOp.nodes]) id ?_
  intro hp hc htag hroot
  rw [StateT.run_bind]
  refine ((jsonStrdup_describes A h key).allow fun e he => prevents_exit Nat.one_pos he).bind ?_
  rintro ⟨_, st'⟩ ⟨rfl, -, h' : Describes st' f⟩
  have hcl := h'.live_iff.trans hc
  rw [appendMember, run_assignKey_bind hcl]
  refine Yields.of_eq (run_appendNode (h'.live_iff.trans hp) hcl h'.live_tail) ?_
  exact h'.append hp hc hroot (.inr ⟨htag, rfl⟩)

/-- `json_prepend_member` puts it in front. -/
theorem jsonPrependMember_yields (h : Describes st f) (key : CString) :
    Yields ((NodeOp.prependMember p key c).Prevents A st.requests f frames)
      ((jsonPrependMember A (some p) key (some c)).run st) fun r =>
        Describes r.2 (f.prepend p c (some key)) := by
  refine asserted_yields h (by simp [NodeOp.nodes]) (by simp [NodeOp.nodes]) id ?_
  intro hp hc htag hroot
  rw [StateT.run_bind]
  refine ((jsonStrdup_describes A h key).allow fun e he => prevents_exit Nat.one_pos he).bind ?_
  rintro ⟨_, st'⟩ ⟨rfl, -, h' : Describes st' f⟩
  have hcl := h'.live_iff.trans hc
  rw [run_assignKey_bind hcl]
  refine Yields.of_eq (run_prependNode (h'.live_iff.trans hp) hcl h'.live_head) ?_
  exact h'.prepend hp hc hroot (.inr ⟨htag, rfl⟩)

end Link

/-! ## One call -/

section Step

/-- A released node is the fault of the call that is given it. -/
theorem prevents_released (hn : n ∈ op.nodes) (hlive : ¬ f.live n = true) :
    op.Prevents A st.requests f frames (.fault .releasedBlock) :=
  ⟨rfl, n, hn, Bool.eq_false_iff.mpr hlive⟩

/-- A released node cannot be removed. -/
theorem removeFromParent_released (hn : st.live n = false) :
    (jsonRemoveFromParent (some n)).run st = .error (.fault .releasedBlock) := by
  unfold jsonRemoveFromParent
  exact run_load_released hn _ _

/-- **What a call does**: it does what its effect on the forest says, or it was given a
released node, fails an assertion, finds no memory, or finds the stack too small. -/
theorem nodeStep_yields (A : Allocator UInt8) (frames : ℕ) (h : Describes st f)
    (op : NodeOp double) :
    Yields (op.Prevents A st.requests f frames) ((nodeStep A frames op).run st) fun r =>
      r.1 = op.result f ∧ Describes r.2 (forestEffect f op) := by
  have hmake : ∀ {op : NodeOp double} (content : JsonContent double), 0 < op.requests →
      Yields (op.Prevents A st.requests f frames) ((mknode A content).run st) fun r =>
        r.1 = some f.count ∧ Describes r.2 (f.make content) := by
    exact fun content hop => (mknode_describes A h content).allow fun e he => prevents_exit hop he
  have hvoid : ∀ {call : NodeCall double Unit} {f' : Forest double} {Allowed : Stop → Prop},
      Yields Allowed (call.run st) (fun r => Describes r.2 f') →
        Yields Allowed ((call >>= fun _ => pure none : NodeCall double Ptr).run st) fun r =>
          r.1 = none ∧ Describes r.2 f' := by
    intro call f' Allowed hcall
    rw [StateT.run_bind]
    exact hcall.bind fun r hr => ⟨rfl, hr⟩
  cases op with
  | mknull => exact hmake .JSON_NULL Nat.one_pos
  | mkbool b => exact hmake (.JSON_BOOL b) Nat.one_pos
  | mkstring s =>
      unfold nodeStep jsonMkstring
      rw [StateT.run_bind]
      refine ((jsonStrdup_describes A h s).allow
        fun e he => prevents_exit Nat.two_pos he).bind ?_
      rintro ⟨_, st'⟩ ⟨rfl, hreq : st'.requests = st.requests + 1, h' : Describes st' f⟩
      refine (mknode_describes A h' (.JSON_STRING _)).allow fun e he => ?_
      rw [hreq] at he
      exact prevents_exit Nat.one_lt_two he
  | mknumber n => exact hmake (.JSON_NUMBER n) Nat.one_pos
  | mkarray => exact hmake .JSON_ARRAY Nat.one_pos
  | mkobject => exact hmake .JSON_OBJECT Nat.one_pos
  | appendElement array element => exact hvoid (jsonAppendElement_yields h)
  | prependElement array element => exact hvoid (jsonPrependElement_yields h)
  | appendMember object key value => exact hvoid (jsonAppendMember_yields h key)
  | prependMember object key value => exact hvoid (jsonPrependMember_yields h key)
  | removeFromParent node =>
      refine hvoid ?_
      by_cases hn : f.live node = true
      · obtain ⟨st', hrun, h'⟩ := removeFromParent_describes h hn
        rw [hrun]
        exact h'
      · rw [removeFromParent_released (h.live_iff.trans (Bool.eq_false_iff.mpr hn))]
        exact yields_error.mpr (prevents_released (by simp [NodeOp.nodes]) hn)
  | delete node =>
      refine hvoid ?_
      cases node with
      | none =>
          cases frames with
          | zero => exact ⟨.inl rfl, _, rfl⟩
          | succ frames => exact h
      | some node =>
          by_cases hn : f.live node = true
          · refine (jsonDelete_yields frames st f node h hn).allow ?_
            rintro e ⟨rfl, hheight⟩
            refine ⟨.inr ?_, _, rfl⟩
            by_contra hframes
            exact hheight ((height_detach h hn).le (by omega))
          · have hreleased := h.live_iff.trans (Bool.eq_false_iff.mpr hn)
            cases frames with
            | zero => exact ⟨.inl rfl, _, rfl⟩
            | succ frames =>
                rw [jsonDelete, StateT.run_bind, removeFromParent_released hreleased]
                exact yields_error.mpr (prevents_released (by simp [NodeOp.nodes]) hn)

/-- Before any call no pointer is set. -/
theorem noNodes_describes (content : JsonContent double) (requests : ℕ) :
    Describes (noNodes content requests) (noForest content) where
  count := rfl
  live := rfl
  key := rfl
  content := rfl
  linked := linked_nil (fun _ => rfl) (fun _ => rfl) (fun _ => rfl) (fun _ => rfl) fun _ => rfl
  sound := {
    bound := fun _ h => nomatch h
    live := fun _ _ h => nomatch h
    container := fun _ _ h => nomatch h
    element := fun _ _ h => nomatch h
    member := fun _ _ h => nomatch h
    root := fun _ _ => rfl }

/-- **A run of calls on JSON nodes is a run of the forest.** -/
theorem nodeSystem_reach (A : Allocator UInt8) (frames : ℕ) (content : JsonContent double)
    {ops : List (NodeOp double)} (hr : (nodeSystem A frames content).Reach ops st) :
    Describes st (ops.foldl forestEffect (noForest content)) := by
  have hsim : Transition.Simulation (nodeSystem A frames content) (forestSystem content)
      Describes := by
    constructor
    case start =>
      rintro _ ⟨requests, rfl⟩
      exact ⟨_, rfl, noNodes_describes content requests⟩
    case step =>
      rintro st f op st' h ⟨out, hrun⟩
      exact ⟨_, rfl, ((nodeStep_yields A frames h op).of_ok hrun).2⟩
  obtain ⟨f, hf, h⟩ := hsim.reach hr
  rw [← Transition.reach_ofEffect hf]
  exact h

end Step

end AzureMetadata.Analysis
