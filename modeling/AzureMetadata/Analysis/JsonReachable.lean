import AzureMetadata.Analysis.JsonCheckedTrees

/-!
# What holds of nodes in use

Results for every state that a run of calls can lead to.  The run itself says what the
pointers describe: the forest after the effects of the calls, in their order.
-/

set_option autoImplicit false

namespace AzureMetadata.Analysis

open Clib Clib.Links AzureMetadata.Model AzureMetadata.Model.Nodes AzureMetadata.Interface

variable {double : Type} {A : Allocator UInt8} {frames k n p c : ℕ}
  {content : JsonContent double} {ops : List (NodeOp double)} {st : JsonNodes double}
  {f : Forest double}

/-- The forest after some calls. -/
noncomputable def forestAfter (content : JsonContent double) (ops : List (NodeOp double)) :
    Forest double := ops.foldl forestEffect (noForest content)

/-- The last call acts on the forest of the calls before it. -/
theorem forestAfter_concat (op : NodeOp double) :
    forestAfter content (ops ++ [op]) = forestEffect (forestAfter content ops) op := by
  rw [forestAfter, List.foldl_append]
  rfl

/-- A call that returns prolongs the run. -/
theorem reach_next {out : Ptr} {st' : JsonNodes double} (op : NodeOp double)
    (hr : (nodeSystem A frames content).Reach ops st)
    (hrun : (nodeStep A frames op).run st = .ok (out, st')) :
    (nodeSystem A frames content).Reach (ops ++ [op]) st' := .step hr ⟨out, hrun⟩

/-! ## A run that links strings -/

section Sample

/-- The state after some calls, if all of them return. -/
def runCalls (A : Allocator UInt8) (frames : ℕ) :
    List (NodeOp double) → JsonNodes double → Except Stop (JsonNodes double)
  | [], st => .ok st
  | op :: ops, st =>
    match (nodeStep A frames op).run st with
    | .error e => .error e
    | .ok (_, st') => runCalls A frames ops st'

/-- Calls that all return go on with a run. -/
theorem reach_runCalls {more : List (NodeOp double)} {st' : JsonNodes double}
    (hr : (nodeSystem A frames content).Reach ops st)
    (hrun : runCalls A frames more st = .ok st') :
    (nodeSystem A frames content).Reach (ops ++ more) st' := by
  induction more generalizing ops st with
  | nil =>
      cases hrun
      rwa [List.append_nil]
  | cons op more ih =>
      rw [runCalls] at hrun
      cases hstep : (nodeStep A frames op).run st with
      | error e =>
          rw [hstep] at hrun
          cases hrun
      | ok r =>
          rw [hstep] at hrun
          rw [List.append_cons]
          exact ih (reach_next op hr hstep) hrun

/-- A string of one character. -/
def letter (c : UInt8) (hc : c ≠ 0) : CString where
  bytes := [c]
  noNul := fun h => hc (List.mem_singleton.mp h).symm
  length_lt := by
    unfold ptrdiffMax
    rw [List.length_singleton]
    omega

/-- An object with the members `"a": "s"` and `"b": [null, "t"]`, and one with the member
`"c"`, a byte that is no text. -/
def linkedCalls : List (NodeOp digitNumbers.double) :=
  [.mkobject, .mkstring (letter 115 (by decide)), .mkarray, .mkstring (letter 116 (by decide)),
    .mkobject, .mkstring (letter 255 (by decide)), .mknull, .appendElement 2 3,
    .prependElement 2 6, .appendMember 0 (letter 97 (by decide)) 1,
    .appendMember 0 (letter 98 (by decide)) 2, .appendMember 4 (letter 99 (by decide)) 5]

/-- The state that those calls leave. -/
def stateAfterCalls (ops : List (NodeOp digitNumbers.double))
    (st : JsonNodes digitNumbers.double) : JsonNodes digitNumbers.double :=
  match runCalls (generous true 0) 7 ops st with
  | .ok st => st
  | .error _ => st

/-- The calls lead to that state where all return. -/
theorem runCalls_stateAfterCalls {ops : List (NodeOp digitNumbers.double)}
    {st : JsonNodes digitNumbers.double}
    (hreturns : (runCalls (generous true 0) 7 ops st).isOk = true) :
    runCalls (generous true 0) 7 ops st = .ok (stateAfterCalls ops st) := by
  unfold stateAfterCalls
  cases hrun : runCalls (generous true 0) 7 ops st with
  | error e =>
      rw [hrun] at hreturns
      cases hreturns
  | ok st' => rfl

def linkedState : JsonNodes digitNumbers.double :=
  stateAfterCalls linkedCalls (noNodes .JSON_NULL 0)

/-- The calls are a run. -/
theorem linkedState_reach :
    (nodeSystem (generous true 0) 7 .JSON_NULL).Reach linkedCalls linkedState :=
  reach_runCalls (.start ⟨0, rfl⟩) (runCalls_stateAfterCalls (by decide +kernel))

/-- Further calls from that state. -/
theorem reach_linkedState (ops : List (NodeOp digitNumbers.double))
    (hreturns : (runCalls (generous true 0) 7 ops linkedState).isOk = true) :
    (nodeSystem (generous true 0) 7 .JSON_NULL).Reach (linkedCalls ++ ops)
      (stateAfterCalls ops linkedState) :=
  reach_runCalls linkedState_reach (runCalls_stateAfterCalls hreturns)

/-- The value of the first object. -/
def linkedValue : JsonTree digitNumbers.double :=
  .JSON_OBJECT [(letter 97 (by decide), .JSON_STRING (letter 115 (by decide))),
    (letter 98 (by decide), .JSON_ARRAY [.JSON_NULL, .JSON_STRING (letter 116 (by decide))])]

/-- They build the object. -/
theorem linkedState_tree : (forestAfter .JSON_NULL linkedCalls).tree 3 0 = some linkedValue := rfl

/-- `json_check` accepts it. -/
theorem linkedState_check :
    (jsonCheck 3 (some 0)).run linkedState = .ok (none, linkedState) := rfl

/-- It complains about the other object. -/
theorem linkedState_complains : (jsonCheck 3 (some 4)).run linkedState =
    .ok (some "string_ contains invalid UTF-8", linkedState) := rfl

end Sample

/-! ## The next call -/

/-- **The pointers are those of the forest**, after any calls, and the next call does what
it does to the forest; it does not return only for a reason that the forest shows, or because
the allocator refuses one of its requests. -/
theorem nodes_refine_forest (hr : (nodeSystem A frames content).Reach ops st)
    (op : NodeOp double) : Describes st (forestAfter content ops) ∧
      Yields (op.Prevents A st.requests (forestAfter content ops) frames)
        ((nodeStep A frames op).run st) fun r => r.1 = op.result (forestAfter content ops) ∧
          Describes r.2 (forestAfter content (ops ++ [op])) := by
  have h : Describes st (forestAfter content ops) := nodeSystem_reach A frames content hr
  refine ⟨h, ?_⟩
  rw [forestAfter_concat]
  exact nodeStep_yields A frames h op

/-- The string in the array is unlinked and the `null` in it is deleted; the next call links the
string to the other object, which has two members then, and the array no element. -/
theorem nodes_refine_forest_relinked :
    let ops := linkedCalls ++ [.removeFromParent 3, .delete (some 6)]
    let st := stateAfterCalls [.removeFromParent 3, .delete (some 6)] linkedState
    let op := .appendMember 4 (letter 100 (by decide)) 3
    let st' := stateAfterCalls [op] st
    Describes st (forestAfter .JSON_NULL ops) ∧
      (nodeStep (generous true 0) 7 op).run st = .ok (none, st') ∧
        Describes st' (forestAfter .JSON_NULL (ops ++ [op])) ∧
          st'.live 6 = false ∧ st'.links.head 2 = none ∧ st'.links.head 4 = some 5 ∧
            st'.links.next 5 = some 3 ∧ st'.links.parent 3 = some 4 := by
  intro ops st op st'
  have hr : (nodeSystem (generous true 0) 7 .JSON_NULL).Reach ops st :=
    reach_linkedState _ (by decide +kernel)
  obtain ⟨h, hnext⟩ := nodes_refine_forest hr op
  have hcall : runCalls (generous true 0) 7 [op] st = .ok st' :=
    runCalls_stateAfterCalls (by decide +kernel)
  rw [runCalls] at hcall
  cases hrun : (nodeStep (generous true 0) 7 op).run st with
  | error e =>
      rw [hrun] at hcall
      cases hcall
  | ok r =>
      rw [hrun] at hcall
      have hst' : r.2 = st' := Except.ok.inj hcall
      obtain ⟨hout, h'⟩ := hnext.of_ok hrun
      rw [hst'] at h'
      refine ⟨h, congrArg Except.ok (Prod.ext hout hst'), h', ?_⟩
      decide +kernel

/-! ## Two calls that return -/

/-- The call returns, unless one of its requests is refused, and has its effect. -/
theorem step_returns (A : Allocator UInt8) (frames : ℕ) (h : Describes st f) {op : NodeOp double}
    (hlive : ∀ n ∈ op.nodes, f.live n = true) (hassert : op.Asserted f)
    (hdelete : ∀ n, op ≠ .delete n) :
    Yields (fun e => e = .exit ∧ op.Refused A st.requests) ((nodeStep A frames op).run st)
      fun r => r.1 = op.result f ∧ Describes r.2 (forestEffect f op) := by
  refine (nodeStep_yields A frames h op).allow ?_
  intro e he
  cases e with
  | fault fault =>
      obtain ⟨-, n, hn, hdead⟩ := he
      rw [hlive n hn] at hdead
      cases hdead
  | assertion => exact absurd hassert he
  | exit => exact ⟨rfl, he⟩
  | stackOverflow => exact absurd he.2.choose_spec (hdelete _)
  | loopLimit => exact he.elim

/-- The calls that link `c` to `p`. -/
inductive LinksNode (p c : ℕ) : NodeOp double → Prop
  | append : LinksNode p c (.appendElement p c)
  | prepend : LinksNode p c (.prependElement p c)
  | appendMember (key : CString) : LinksNode p c (.appendMember p key c)
  | prependMember (key : CString) : LinksNode p c (.prependMember p key c)

/-- What links `c`, with the tree `w`, to `p`, and makes one tree of another there. -/
inductive LinksTree (p c : ℕ) (w : JsonTree double) :
    NodeOp double → JsonTree double → JsonTree double → Prop
  | append (vs : List (JsonTree double)) :
      LinksTree p c w (.appendElement p c) (.JSON_ARRAY vs) (.JSON_ARRAY (vs ++ [w]))
  | prepend (vs : List (JsonTree double)) :
      LinksTree p c w (.prependElement p c) (.JSON_ARRAY vs) (.JSON_ARRAY (w :: vs))
  | appendMember (key : CString) (ms : List (CString × JsonTree double)) :
      LinksTree p c w (.appendMember p key c) (.JSON_OBJECT ms) (.JSON_OBJECT (ms ++ [(key, w)]))
  | prependMember (key : CString) (ms : List (CString × JsonTree double)) :
      LinksTree p c w (.prependMember p key c) (.JSON_OBJECT ms) (.JSON_OBJECT ((key, w) :: ms))

section Linking

variable {w v v' : JsonTree double} {op : NodeOp double}

/-- A call that links works on the two nodes. -/
theorem LinksNode.nodes (h : LinksNode p c op) : op.nodes = [p, c] := by
  cases h <;> rfl

/-- It deletes none. -/
theorem LinksNode.ne_delete (h : LinksNode p c op) (n : Ptr) : op ≠ .delete n := by
  cases h <;> exact fun he => nomatch he

/-- The assertions include that `c` is no child. -/
theorem LinksNode.root (h : LinksNode p c op) (hassert : op.Asserted f) : Root f.children c := by
  cases h <;> exact hassert.2

/-- The effect links `c` among the children of `p`. -/
theorem LinksNode.effect (h : LinksNode p c op) : ∃ key cs,
    forestEffect f op = f.link p c key cs ∧
      (cs = f.children p ++ [c] ∨ cs = c :: f.children p) := by
  cases h with
  | append => exact ⟨none, _, rfl, .inl rfl⟩
  | prepend => exact ⟨none, _, rfl, .inr rfl⟩
  | appendMember key => exact ⟨some key, _, rfl, .inl rfl⟩
  | prependMember key => exact ⟨some key, _, rfl, .inr rfl⟩

/-- The call returns, unless its request is refused. -/
theorem LinksNode.returns (hlink : LinksNode p c op) (A : Allocator UInt8) (frames : ℕ)
    (h : Describes st f) (hp : f.live p = true) (hc : f.live c = true)
    (hassert : op.Asserted f) :
    Yields (fun e => e = .exit ∧ op.Refused A st.requests) ((nodeStep A frames op).run st)
      fun r => r.1 = op.result f ∧ Describes r.2 (forestEffect f op) := by
  refine step_returns A frames h ?_ hassert fun n => hlink.ne_delete n
  rw [hlink.nodes]
  simp [hp, hc]

/-- A call that links two values links their nodes. -/
theorem LinksTree.node (h : LinksTree p c w op v v') : LinksNode p c op := by
  cases h with
  | append vs => exact .append
  | prepend vs => exact .prepend
  | appendMember key ms => exact .appendMember key
  | prependMember key ms => exact .prependMember key

/-- A container with a tree has the tag that is asserted. -/
theorem LinksTree.asserted (h : LinksTree p c w op v v') (hroot : Root f.children c)
    (hv : f.tree (k + 1) p = some v) : op.Asserted f := by
  have harray : ∀ vs, f.tree (k + 1) p = some (.JSON_ARRAY vs) →
      (f.content p).tag = .JSON_ARRAY := fun vs hvs => by
    rw [(tree_eq_array.mp hvs).1]
    rfl
  have hobject : ∀ ms, f.tree (k + 1) p = some (.JSON_OBJECT ms) →
      (f.content p).tag = .JSON_OBJECT := fun ms hms => by
    rw [(tree_eq_object.mp hms).1]
    rfl
  cases h with
  | append vs => exact ⟨harray _ hv, hroot⟩
  | prepend vs => exact ⟨harray _ hv, hroot⟩
  | appendMember key ms => exact ⟨hobject _ hv, hroot⟩
  | prependMember key ms => exact ⟨hobject _ hv, hroot⟩

/-- The tree of the container after the call. -/
theorem LinksTree.tree (h : LinksTree p c w op v v') (hsound : f.Sound) (hroot : Root f.children c)
    (hcycle : ¬ Below f.children c p) (hv : f.tree (k + 1) p = some v)
    (hw : f.tree k c = some w) : (forestEffect f op).tree (k + 1) p = some v' := by
  cases h with
  | append vs => exact (tree_link_array hsound hroot hcycle hv hw).1
  | prepend vs => exact (tree_link_array hsound hroot hcycle hv hw).2
  | appendMember key ms => exact (tree_link_object hsound hroot hcycle hv hw).1
  | prependMember key ms => exact (tree_link_object hsound hroot hcycle hv hw).2

/-- **Linking a node is putting its tree into a list**, at the end or in front, and no
other tree changes: of the calls on arrays and on objects, whatever was done before. -/
theorem linked_reachable (hr : (nodeSystem A frames content).Reach ops st)
    (hlink : LinksTree p c w op v v') (hp : (forestAfter content ops).live p = true)
    (hc : (forestAfter content ops).live c = true)
    (hroot : Root (forestAfter content ops).children c)
    (hcycle : ¬ Below (forestAfter content ops).children c p)
    (hv : (forestAfter content ops).tree (k + 1) p = some v)
    (hw : (forestAfter content ops).tree k c = some w) :
    Yields (fun e => e = .exit ∧ op.Refused A st.requests) ((nodeStep A frames op).run st)
      fun r => Describes r.2 (forestAfter content (ops ++ [op])) ∧
        (forestAfter content (ops ++ [op])).tree (k + 1) p = some v' ∧
          ∀ m, ¬ Below (forestAfter content ops).children m p → ∀ j,
            (forestAfter content (ops ++ [op])).tree j m = (forestAfter content ops).tree j m := by
  have h : Describes st (forestAfter content ops) := nodeSystem_reach A frames content hr
  rw [forestAfter_concat]
  refine (hlink.node.returns A frames h hp hc (hlink.asserted hroot hv)).mono
    fun r hr => ⟨hr.2, ?_, fun m hm j => ?_⟩
  · exact hlink.tree h.sound hroot hcycle hv hw
  · obtain ⟨key, cs, heffect, -⟩ := hlink.node.effect (f := forestAfter content ops)
    rw [heffect]
    exact tree_link hroot hm

/-- The second object becomes a member of the first, in front. -/
theorem linked_reachable_member :
    let key := letter 107 (by decide)
    let op := .prependMember 0 key 4
    (nodeStep (generous true 0) 7 op).run linkedState =
        .ok (none, stateAfterCalls [op] linkedState) ∧
      (forestAfter .JSON_NULL (linkedCalls ++ [op])).tree 3 0 = some (.JSON_OBJECT
        [(key, .JSON_OBJECT [(letter 99 (by decide), .JSON_STRING (letter 255 (by decide)))]),
          (letter 97 (by decide), .JSON_STRING (letter 115 (by decide))),
          (letter 98 (by decide),
            .JSON_ARRAY [.JSON_NULL, .JSON_STRING (letter 116 (by decide))])]) := by
  intro key op
  have hrun : (nodeStep (generous true 0) 7 op).run linkedState =
      .ok (none, stateAfterCalls [op] linkedState) := rfl
  have h := nodeSystem_reach _ _ _ linkedState_reach
  have hroots : ∀ n, linkedState.links.parent n = none →
      Root (forestAfter .JSON_NULL linkedCalls).children n := fun n hn => h.root_iff.mp hn
  have hcycle : ¬ Below (forestAfter .JSON_NULL linkedCalls).children 4 0 := fun hbelow =>
    absurd (hbelow.eq_of_root (hroots 0 rfl)) (by decide)
  let w : JsonTree digitNumbers.double :=
    .JSON_OBJECT [(letter 99 (by decide), .JSON_STRING (letter 255 (by decide)))]
  have hlink : LinksTree 0 4 w op linkedValue _ := .prependMember key _
  have hyields := linked_reachable linkedState_reach hlink rfl rfl (hroots 4 rfl) hcycle
    (k := 2) linkedState_tree rfl
  exact ⟨hrun, (hyields.of_ok hrun).2.1⟩

/-- Removing a node that was just linked undoes the link. -/
theorem detach_link {key : Option CString} {cs : List ℕ} (hsound : f.Sound)
    (hroot : Root f.children c) (hcs : cs = f.children p ++ [c] ∨ cs = c :: f.children p) :
    (f.link p c key cs).detach c = f := by
  have herase : cs.erase c = f.children p := by
    rcases hcs with rfl | rfl
    · rw [List.erase_append_right _ (hroot p), List.erase_cons_head, List.append_nil]
    · exact List.erase_cons_head c (f.children p)
  have hkey : Function.update (Function.update f.key c key) c none = f.key := by
    rw [Function.update_idem, ← hsound.root c hroot, Function.update_eq_self]
  refine Forest.ext rfl rfl (funext fun q => ?_) hkey rfl
  show (Function.update f.children p cs q).erase c = f.children q
  by_cases hq : q = p
  · subst hq
    rw [Function.update_self, herase]
  · rw [Function.update_of_ne hq, List.erase_of_not_mem (hroot q)]

/-- **`json_remove_from_parent` undoes a link** to a container, whatever is below that: all
pointers and keys are as before. -/
theorem linked_removed_reachable (hr : (nodeSystem A frames content).Reach ops st)
    (hlink : LinksNode p c op) (hp : (forestAfter content ops).live p = true)
    (hc : (forestAfter content ops).live c = true)
    (hassert : op.Asserted (forestAfter content ops)) :
    Yields (fun e => e = .exit ∧ op.Refused A st.requests) (StateT.run (do
        let _ ← nodeStep A frames op
        jsonRemoveFromParent (some c)) st) fun r =>
      Describes r.2 (forestAfter content ops) := by
  have h : Describes st (forestAfter content ops) := nodeSystem_reach A frames content hr
  have hstep := hlink.returns A frames h hp hc hassert
  obtain ⟨key, cs, heffect, hcs⟩ := hlink.effect (f := forestAfter content ops)
  rw [heffect] at hstep
  rw [StateT.run_bind]
  refine hstep.bind ?_
  rintro ⟨_, st₁⟩ ⟨-, h₁⟩
  obtain ⟨st₂, hrun, h₂⟩ := removeFromParent_describes h₁ hc
  rw [detach_link h.sound (hlink.root hassert) hcs] at h₂
  dsimp only
  rw [hrun]
  exact h₂

/-- The second object becomes a member of the first and is taken out again; and an array that
is appended to itself, which has no tree then, still gives an element back. -/
theorem linked_removed_reachable_cycle :
    Yields (fun _ => False) (StateT.run (do
        let _ ← nodeStep (generous true 0) 7 (.prependMember 0 (letter 107 (by decide)) 4)
        jsonRemoveFromParent (some 4)) linkedState) (fun r =>
      Describes r.2 (forestAfter .JSON_NULL linkedCalls)) ∧
    let selfCalls := [.mkarray, .appendElement 7 7, .mknull]
    (forestAfter .JSON_NULL (linkedCalls ++ selfCalls)).children 7 = [7] ∧
    Yields (fun _ => False) (StateT.run (do
        let _ ← nodeStep (generous true 0) 7 (.prependElement 7 8)
        jsonRemoveFromParent (some 8)) (stateAfterCalls selfCalls linkedState)) (fun r =>
      Describes r.2 (forestAfter .JSON_NULL (linkedCalls ++ selfCalls))) := by
  have hgranted : ∀ {op : NodeOp digitNumbers.double} {k : ℕ} {e : Stop},
      e = .exit ∧ op.Refused (generous true 0) k → False := by
    rintro op k e ⟨-, i, -, hrefused⟩
    cases hrefused
  constructor
  · have h := nodeSystem_reach _ _ _ linkedState_reach
    exact (linked_removed_reachable linkedState_reach (.prependMember _) rfl rfl
      ⟨rfl, h.root_iff.mp rfl⟩).allow fun e => hgranted
  · intro selfCalls
    have hr := reach_linkedState selfCalls (by decide +kernel)
    have h := nodeSystem_reach _ _ _ hr
    exact ⟨rfl, (linked_removed_reachable hr .prepend rfl rfl
      ⟨rfl, h.root_iff.mp rfl⟩).allow fun e => hgranted⟩

end Linking

/-! ## Releasing nodes -/

/-- The trees that share no node with what is released. -/
theorem tree_delete {m j : ℕ}
    (hapart : ∀ d, Below f.children m d → ¬ Below f.children n d) :
    (f.delete n).tree j m = f.tree j m := by
  refine tree_congr fun q hq => ⟨rfl, ?_, fun d hd => ?_⟩
  · exact dropNodes_eq_self (hapart q hq) fun d hd => hapart d (hq.child hd)
  · exact drop_key (hapart d (hq.child hd))

/-- **`json_delete` releases a node and what is below it**, and nothing else: with a stack
that has room for as many calls as there are live nodes it returns, also for a node that has
a parent, and no tree changes that shares no node with the released one. -/
theorem deleted_reachable (hr : (nodeSystem A frames content).Reach ops st)
    (hn : (forestAfter content ops).live n = true) (hk : (forestAfter content ops).nodes.card ≤ k) :
    ∃ st', (jsonDelete k (some n)).run st = .ok ((), st') ∧
      Describes st' ((forestAfter content ops).delete n) ∧
        (∀ m, st'.live m = true ↔
          st.live m = true ∧ ¬ Below (forestAfter content ops).children n m) ∧
          ∀ m, (∀ d, Below (forestAfter content ops).children m d →
            ¬ Below (forestAfter content ops).children n d) → ∀ j,
              ((forestAfter content ops).delete n).tree j m =
                (forestAfter content ops).tree j m := by
  have h : Describes st (forestAfter content ops) := nodeSystem_reach A frames content hr
  have hyields := jsonDelete_yields k st _ n h hn
  cases hrun : (jsonDelete k (some n)).run st with
  | error e =>
      exact absurd ((height_detach h hn).le hk) (hyields.of_error hrun).2
  | ok r =>
      have h' := hyields.of_ok hrun
      refine ⟨r.2, rfl, h', fun m => ?_, fun m hapart j => tree_delete hapart⟩
      rw [h'.live, h.live]
      exact drop_live

/-- The array in the first object is deleted with its two elements, by as many calls as there
are live nodes; the second object keeps its tree. -/
theorem deleted_reachable_array :
    let f := forestAfter .JSON_NULL linkedCalls
    f.nodes.card = 7 ∧ f.children 0 = [1, 2] ∧ f.children 2 = [6, 3] ∧
    ∃ st', (jsonDelete 7 (some 2)).run linkedState = .ok ((), st') ∧
      Describes st' (f.delete 2) ∧ (f.delete 2).children 0 = [1] ∧
        st'.live 0 = true ∧ st'.live 2 = false ∧ st'.live 3 = false ∧ st'.live 6 = false ∧
          (f.delete 2).tree 3 4 = some (.JSON_OBJECT
            [(letter 99 (by decide), .JSON_STRING (letter 255 (by decide)))]) := by
  intro f
  have hcard : f.nodes.card = 7 := by decide +kernel
  obtain ⟨st', hrun, h', hlive, htrees⟩ :=
    deleted_reachable linkedState_reach (n := 2) (k := 7) rfl hcard.le
  have hbelow : ∀ m, Below f.children 2 m → m ∈ [2, 6, 3] := fun m hm =>
    hm.mem_of_closed (by decide) (by decide +kernel)
  have hother : ∀ d, Below f.children 4 d → d ∈ [4, 5] := fun d hd =>
    hd.mem_of_closed (by decide) (by decide +kernel)
  have hkids : f.children 0 = [1, 2] := rfl
  have hnot₀ : ¬ Below f.children 2 0 := fun hm => absurd (hbelow 0 hm) (by decide)
  have hnot₁ : ¬ Below f.children 2 1 := fun hm => absurd (hbelow 1 hm) (by decide)
  have hdead : ∀ m, Below f.children 2 m → st'.live m = false := fun m hm =>
    Bool.eq_false_iff.mpr fun halive => ((hlive m).mp halive).2 hm
  have h₃ : 3 ∈ f.children 2 := by decide +kernel
  have h₆ : 6 ∈ f.children 2 := by decide +kernel
  refine ⟨hcard, hkids, rfl, st', hrun, h', ?_, (hlive 0).mpr ⟨rfl, hnot₀⟩, hdead 2 below_self,
    hdead 3 (below_self.child h₃), hdead 6 (below_self.child h₆), ?_⟩
  · show dropNodes f.children {m | Below f.children 2 m} 0 = [1]
    simp [dropNodes, hkids, hnot₀, hnot₁, below_self]
  · have hapart : ∀ d, Below f.children 4 d → ¬ Below f.children 2 d := by
      intro d hd hd'
      have hin := hother d hd
      have hin' := hbelow d hd'
      simp only [List.mem_cons, List.not_mem_nil, or_false] at hin hin'
      omega
    exact (htrees 4 hapart 3).trans rfl

/-! ## Lookup -/

/-- **`json_check` is exact**, whatever was done before: it returns true iff the node has a
tree that the stack has room for and all strings and keys in it are Unicode; what it
complains of is there; and only a node without such a tree can exhaust the stack. -/
theorem checked_reachable (hr : (nodeSystem A frames content).Reach ops st)
    (hn : (forestAfter content ops).live n = true) (k : ℕ) :
    Yields (fun e => e = .stackOverflow ∧ (forestAfter content ops).tree k n = none)
      ((jsonCheck k (some n)).run st) fun r => r.2 = st ∧
        (r.1 = none ↔ KeyIsText (forestAfter content ops) n ∧
          ∃ v, (forestAfter content ops).tree k n = some v ∧ HasTexts v) ∧
        ∀ problem, r.1 = some problem → Complaint (forestAfter content ops) n problem := by
  have h : Describes st (forestAfter content ops) := nodeSystem_reach A frames content hr
  refine ((jsonCheck_yields h k n hn).allow ?_).mono ?_
  · rintro e ⟨rfl, hheight⟩
    refine ⟨rfl, ?_⟩
    by_contra hno
    exact hheight ((tree_ne_none h.sound).mp hno)
  · rintro ⟨answer, st'⟩ ⟨hst, hanswer⟩
    rw [← checked_iff h.sound]
    cases answer with
    | none => exact ⟨hst, iff_of_true rfl hanswer, fun problem he => nomatch he⟩
    | some problem =>
        refine ⟨hst, iff_of_false (by simp) hanswer.not_checked, ?_⟩
        rintro _ ⟨⟩
        exact hanswer

/-- Of the two objects the first is good, and has its tree, and the second is not: the string
in it is not Unicode. -/
theorem checked_reachable_linked :
    (jsonCheck 3 (some 0)).run linkedState = .ok (none, linkedState) ∧
    (∃ v, (forestAfter .JSON_NULL linkedCalls).tree 3 0 = some v ∧ HasTexts v) ∧
    (jsonCheck 3 (some 4)).run linkedState =
      .ok (some "string_ contains invalid UTF-8", linkedState) ∧
    Complaint (forestAfter .JSON_NULL linkedCalls) 4 "string_ contains invalid UTF-8" ∧
    ¬ ∃ v, (forestAfter .JSON_NULL linkedCalls).tree 3 4 = some v ∧ HasTexts v := by
  have hgood := (checked_reachable linkedState_reach (n := 0) rfl 3).of_ok linkedState_check
  have hbad := (checked_reachable linkedState_reach (n := 4) rfl 3).of_ok linkedState_complains
  refine ⟨linkedState_check, (hgood.2.1.mp rfl).2, linkedState_complains, hbad.2.2 _ rfl, ?_⟩
  intro htexts
  have hkey : KeyIsText (forestAfter .JSON_NULL linkedCalls) 4 := fun key hk => nomatch hk
  exact absurd (hbad.2.1.mpr ⟨hkey, htexts⟩) (Option.some_ne_none _)

/-- **What was checked can be encoded**: no assertion of `json_stringify` fails for it, and
what is written is JSON of it, unless a string has U+001F. -/
theorem checked_encodes {F : Floating} {A A' : Allocator UInt8} {content : JsonContent F.double}
    {ops : List (NodeOp F.double)} {st st' : JsonNodes F.double}
    (hr : (nodeSystem A frames content).Reach ops st)
    (hn : (forestAfter content ops).live n = true)
    (hcheck : (jsonCheck k (some n)).run st = .ok (none, st'))
    (hformat : ∀ x, (F.format x).bytes.length < 64) {space : Option CString}
    (hspace : Indentation space) :
    ∃ v, (forestAfter content ops).tree k n = some v ∧
      Gives (OutOfMemory A' (textLimit space v)) (jsonStringify F A' v space) fun str =>
        (∀ s ∈ strings v, NoSeparator s) → JsonText F str.bytes (readBack F v) := by
  have h : Describes st (forestAfter content ops) := nodeSystem_reach A frames content hr
  obtain ⟨-, hchecked⟩ := (jsonCheck_yields h k n hn).of_ok hcheck
  obtain ⟨-, v, hv, htexts⟩ := (checked_iff h.sound).mp hchecked
  refine ⟨v, hv, ((jsonStringify_gives hformat hspace v).allow ?_).mono ?_⟩
  · rintro e (hmemory | ⟨-, s, hs, hno⟩)
    · exact hmemory
    · exact absurd (htexts s hs) hno
  · rintro str ⟨-, -, hwritten⟩ hno
    exact jsonText_of_derives (hwritten.text hno)

/-- The first object can be written, and is when nothing is refused. -/
theorem checked_encodes_linked :
    ∃ v, (forestAfter .JSON_NULL linkedCalls).tree 3 0 = some v ∧ v = linkedValue ∧
      Gives (fun _ => False) (jsonStringify digitNumbers (generous true 0) v none) fun str =>
        JsonText digitNumbers str.bytes (readBack digitNumbers v) := by
  have hencodes : ∃ v, (forestAfter .JSON_NULL linkedCalls).tree 3 0 = some v ∧
      Gives (OutOfMemory (generous true 0) (textLimit none v))
        (jsonStringify digitNumbers (generous true 0) v none) fun str =>
          (∀ s ∈ strings v, NoSeparator s) →
            JsonText digitNumbers str.bytes (readBack digitNumbers v) :=
    checked_encodes (F := digitNumbers) (k := 3) (n := 0) linkedState_reach rfl linkedState_check
      digitNumbers_format indentation_none
  obtain ⟨v, hv, hgives⟩ := hencodes
  have hsame : v = linkedValue := Option.some.inj (hv.symm.trans linkedState_tree)
  have hplain : ∀ s ∈ strings v, NoSeparator s := by
    have hlinked : ∀ s ∈ strings linkedValue, ¬ 31 ∈ s.bytes := by decide +kernel
    rw [hsame]
    exact hlinked
  have hsize : 2 * (textLimit none v + 16) ≤ ptrdiffMax := by
    rw [hsame]
    decide +kernel
  refine ⟨v, hv, hsame, (hgives.allow fun _ => ?_).mono fun str hwritten => hwritten hplain⟩
  exact not_outOfMemory (fun _ => rfl) hsize

end AzureMetadata.Analysis
