import AzureMetadata.Interface.JsonForest

/-!
# The calls on JSON nodes, step by step

What each assignment through a pointer does, and from that what the functions that link and
unlink a node do to the links: they are `append`, `prepend` and `detach` of `Clib.Links`.
-/

set_option autoImplicit false

namespace AzureMetadata.Analysis

open Clib Clib.Links AzureMetadata.Model AzureMetadata.Model.Nodes AzureMetadata.Interface

section Access

variable {double α β : Type} {st : JsonNodes double} {n : ℕ} {c : NodeCall double α}

/-- A live node may be looked at. -/
theorem nodeAt_run (h : st.live n = true) :
    (nodeAt (some n) : NodeCall double ℕ).run st = .ok (n, st) := if_pos h

/-- A released one may not. -/
theorem nodeAt_released (h : st.live n = false) :
    (nodeAt (some n) : NodeCall double ℕ).run st = .error (.fault .releasedBlock) :=
  if_neg (by rw [h]; exact Bool.false_ne_true)

/-- A call goes on with the result of another. -/
theorem run_bind_ok {a : α} {st' : JsonNodes double} (h : c.run st = .ok (a, st'))
    (g : α → NodeCall double β) : (c >>= g).run st = (g a).run st' := by
  rw [StateT.run_bind, h]
  rfl

/-- A call and what follows it. -/
theorem yields_run_bind {Allowed : Stop → Prop} {P : α → JsonNodes double → Prop}
    {Q : β × JsonNodes double → Prop} {g : α → NodeCall double β}
    (hc : Yields Allowed (c.run st) fun r => P r.1 r.2)
    (hg : ∀ a st', P a st' → Yields Allowed ((g a).run st') Q) :
    Yields Allowed ((c >>= g).run st) Q := by
  rw [StateT.run_bind]
  exact hc.bind fun r hr => hg r.1 r.2 hr

/-- And with the nodes as they are. -/
theorem run_get_bind (g : JsonNodes double → NodeCall double β) :
    (get >>= g).run st = (g st).run st := rfl

/-- A field of a live node is loaded. -/
@[simp] theorem run_load (h : st.live n = true) (f : JsonNodes double → ℕ → α) :
    (load f (some n)).run st = .ok (f st n, st) := by
  unfold load
  rw [StateT.run_bind, nodeAt_run h]
  rfl

/-- What follows gets its value. -/
@[simp] theorem run_load_bind (h : st.live n = true) (f : JsonNodes double → ℕ → α)
    (g : α → NodeCall double β) : (load f (some n) >>= g).run st = (g (f st n)).run st := by
  rw [StateT.run_bind, run_load h]
  rfl

/-- A field of a released node is not. -/
@[simp] theorem run_load_released (h : st.live n = false) (f : JsonNodes double → ℕ → α)
    (g : α → NodeCall double β) :
    (load f (some n) >>= g).run st = .error (.fault .releasedBlock) := by
  unfold load
  rw [StateT.run_bind, StateT.run_bind, nodeAt_released h]
  rfl

/-- A link of a live node is assigned. -/
@[simp] theorem run_assign (h : st.live n = true) (f : Links ℕ → ℕ → Links ℕ) :
    (assign f (some n)).run st = .ok ((), { st with links := f st.links n }) := by
  unfold assign
  rw [StateT.run_bind, nodeAt_run h]
  rfl

/-- What follows gets the new links. -/
@[simp] theorem run_assign_bind (h : st.live n = true) (f : Links ℕ → ℕ → Links ℕ)
    (g : Unit → NodeCall double β) :
    (assign f (some n) >>= g).run st = (g ()).run { st with links := f st.links n } := by
  rw [StateT.run_bind, run_assign h]
  rfl

/-- So is the key of one. -/
@[simp] theorem run_assignKey (h : st.live n = true) (key : Option CString) :
    (assignKey key (some n)).run st =
      .ok ((), { st with key := Function.update st.key n key }) := by
  unfold assignKey
  rw [StateT.run_bind, nodeAt_run h]
  rfl

/-- What follows gets the new keys. -/
@[simp] theorem run_assignKey_bind (h : st.live n = true) (key : Option CString)
    (g : Unit → NodeCall double β) : (assignKey key (some n) >>= g).run st =
      (g ()).run { st with key := Function.update st.key n key } := by
  rw [StateT.run_bind, run_assignKey h]
  rfl

/-- A live node is released. -/
@[simp] theorem run_freeNode (h : st.live n = true) : (freeNode (some n)).run st =
    .ok ((), { st with live := Function.update st.live n false }) := by
  unfold freeNode
  rw [StateT.run_bind, nodeAt_run h]
  rfl

/-- An assertion that holds does nothing. -/
theorem run_assert_bind {b : Prop} [Decidable b] (hb : b) (g : Unit → NodeCall double β) :
    (assert b >>= g).run st = (g ()).run st := by
  unfold assert
  rw [if_pos hb]
  rfl

/-- One that does not hold stops the call. -/
theorem run_assert_fails {b : Prop} [Decidable b] (hb : ¬ b) (g : Unit → NodeCall double β) :
    (assert b >>= g).run st = .error .assertion := by
  unfold assert
  rw [if_neg hb]
  rfl

end Access

section Linking

variable {double : Type} {st : JsonNodes double} {p c : ℕ}

/-- What `append_node` does. -/
theorem run_appendNode (hp : st.live p = true) (hc : st.live c = true)
    (htail : ∀ t ∈ st.links.tail p, st.live t = true) :
    (appendNode (some p) (some c)).run st =
      .ok ((), { st with links := st.links.append p c }) := by
  cases ht : st.links.tail p with
  | none =>
      simp [appendNode, hp, hc, getTail, ht, Links.append, setParent, setPrev, setNext, setHead,
        setTail]
  | some t =>
      have htl := htail t ht
      simp [appendNode, hp, hc, htl, getTail, ht, Links.append, setParent, setPrev, setNext,
        setTail]

/-- What `prepend_node` does. -/
theorem run_prependNode (hp : st.live p = true) (hc : st.live c = true)
    (hhead : ∀ t ∈ st.links.head p, st.live t = true) :
    (prependNode (some p) (some c)).run st =
      .ok ((), { st with links := st.links.prepend p c }) := by
  cases hh : st.links.head p with
  | none =>
      simp [prependNode, hp, hc, getHead, hh, Links.prepend, Links.append, Links.flip, setParent,
        setPrev, setNext, setHead, setTail]
  | some t =>
      have hhl := hhead t hh
      simp [prependNode, hp, hc, hhl, getHead, hh, Links.prepend, Links.append, Links.flip,
        setParent, setPrev, setNext, setHead]

/-- What `json_remove_from_parent` does to a child. -/
theorem run_removeFromParent (hc : st.live c = true) (hparent : st.links.parent c = some p)
    (hp : st.live p = true) (hprev : ∀ x ∈ st.links.prev c, x ≠ c ∧ st.live x = true)
    (hnext : ∀ x ∈ st.links.next c, st.live x = true) :
    (jsonRemoveFromParent (some c)).run st = .ok ((), { st with
      links := st.links.detach p c
      key := Function.update st.key c none }) := by
  cases hb : st.links.prev c with
  | none =>
      cases hn : st.links.next c with
      | none =>
          simp [jsonRemoveFromParent, hc, hp, getParent, hparent, getPrev, hb, getNext, hn,
            Links.detach, setParent, setPrev, setNext, setHead, setTail]
      | some y =>
          have hnl := hnext y hn
          simp [jsonRemoveFromParent, hc, hp, getParent, hparent, getPrev, hb, getNext, hn, hnl,
            Links.detach, setParent, setPrev, setNext, setHead]
  | some x =>
      obtain ⟨hx, hxl⟩ := hprev x hb
      cases hn : st.links.next c with
      | none =>
          simp [jsonRemoveFromParent, hc, hp, getParent, hparent, getPrev, hb, getNext, hn, hxl,
            hx.symm, Links.detach, setParent, setPrev, setNext, setTail]
      | some y =>
          have hnl := hnext y hn
          simp [jsonRemoveFromParent, hc, getParent, hparent, getPrev, hb, getNext, hn, hxl, hnl,
            hx.symm, Links.detach, setParent, setPrev, setNext]

/-- `json_remove_from_parent` leaves a root alone. -/
theorem run_removeFromParent_root (hc : st.live c = true) (hparent : st.links.parent c = none) :
    (jsonRemoveFromParent (some c)).run st = .ok ((), st) := by
  simp [jsonRemoveFromParent, hc, getParent, hparent]

end Linking

end AzureMetadata.Analysis
