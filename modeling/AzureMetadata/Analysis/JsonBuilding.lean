import AzureMetadata.Analysis.JsonDecoding
import AzureMetadata.Analysis.JsonNewNodes
import AzureMetadata.Clib.ScannerPairs
import AzureMetadata.Model.JsonBuild

/-!
# The parser builds the tree

The parser with its nodes stops, fails and reads as the one that returns trees does.  When
it returns a node, the tree is there, and the nodes it made are those of the tree; when it
fails, no node that it made is left.
-/

set_option autoImplicit false

namespace AzureMetadata.Analysis

open Clib AzureMetadata.Model AzureMetadata.Model.Nodes AzureMetadata.Interface

/-! ## Parts that make no node -/

section Parts

open Scanner

variable {double α β β' : Type} {P : Forest double → Prop} {R : α → Prop} {s : List UInt8}
  {q : ℕ} {st : JsonNodes double} {p : JsonScanner α} {g : α → JsonScanner β}
  {g' : α → NodeScanner double β'} {Failed : ℕ → JsonNodes double → Prop}
  {Done : β → β' → ℕ → JsonNodes double → Prop}

/-- A part that makes no node, and what follows it. -/
theorem accords_returns (h : NodesAre P q st) (hret : ReturnsOnly p R)
    (hfailed : ∀ q st, NodesAre P q st → Failed q st)
    (hg : ∀ a s q st, R a → NodesAre P q st → Accords Failed Done (g a s q) (g' a s st)) :
    Accords Failed Done ((p >>= g) s q) ((onRequests p >>= g') s st) := by
  have hp : Accords Failed (fun a a' q st => a' = a ∧ R a ∧ NodesAre P q st) (p s q)
      (onRequests p s st) :=
    accords_onPart h.1 (fun q' _ => hfailed q' _ (h.withRequests q')) fun a s₁ q' hrun =>
      ⟨rfl, hret s q a s₁ q' hrun, h.withRequests q'⟩
  refine hp.bind ?_
  rintro a _ s q st ⟨rfl, ha, h⟩
  exact hg _ s q st ha h

/-- A scanner that makes no node leaves the nodes as they are. -/
theorem accords_read (h : NodesAre P q st) (hfailed : ∀ q st, NodesAre P q st → Failed q st)
    (hg : ∀ a s q st, NodesAre P q st → Accords Failed Done (g a s q) (g' a s st)) :
    Accords Failed Done ((p >>= g) s q) ((onRequests p >>= g') s st) :=
  accords_returns (R := fun _ => True) h (fun _ _ _ _ _ _ => trivial) hfailed
    fun a s q st _ => hg a s q st

/-- `skip_space` does not fail. -/
theorem accords_skip {g : Unit → JsonScanner β} {g' : Unit → NodeScanner double β'}
    (h : NodesAre P q st)
    (hg : ∀ s q st, NodesAre P q st → Accords Failed Done (g () s q) (g' () s st)) :
    Accords Failed Done ((skipSpace >>= g) s q) ((onRequests skipSpace >>= g') s st) := by
  have hp : Accords Failed (fun _ _ => NodesAre P) (skipSpace s q) (onRequests skipSpace s st) :=
    accords_onPart h.1 (fun _ hrun => absurd hrun skipWhile_ne_none) fun _ _ q' _ =>
      h.withRequests q'
  exact hp.bind fun _ _ s q st h => hg s q st h

/-- What a call gives it returns. -/
theorem returns_effect {call : Requests α} (h : Gives (fun _ => True) call R) :
    ReturnsOnly (effect call : JsonScanner α) R := by
  intro s q a s' q' hrun
  unfold effect at hrun
  cases hcall : call.run q with
  | error e =>
      rw [hcall] at hrun
      cases hrun
  | ok r =>
      rw [hcall] at hrun
      cases hrun
      exact (h q).of_ok hcall

/-- Of any call nothing is asked. -/
theorem gives_any (call : Requests α) : Gives (fun _ => True) call fun _ => True := by
  intro q
  cases call.run q with
  | error e => trivial
  | ok r => trivial

/-- With `out` a string is returned. -/
theorem parseString_returns (A : Allocator UInt8) :
    ReturnsOnly (parseString A true) fun str => ∃ s, str = some s := by
  have hround : ∀ sb, (∃ b, sb = some b) → ReturnsOnly (parseStringRound A sb)
      (Sum.elim (fun sb => ∃ b, sb = some b) fun sb => ∃ b, sb = some b) := by
    rintro _ ⟨sb, rfl⟩
    refine returns_bind fun c => ?_
    split
    · exact returns_bind fun _ => returns_pure ⟨sb, rfl⟩
    · refine returns_bind fun bytes => ReturnsOnly.bind (I := fun sb => ∃ b, sb = some b) ?_
        fun sb hsb => returns_pure hsb
      refine returns_effect ((gives_any _).bind fun sb _ => (gives_any _).bind fun sb _ => ?_)
      exact gives_pure ⟨sb, rfl⟩
  refine returns_bind fun c => ?_
  split
  · exact returns_fail
  · refine ReturnsOnly.bind (I := fun sb => ∃ b, sb = some b) ?_ fun sb hsb => ?_
    · refine returns_effect ((gives_any _).bind fun sb _ => (gives_any _).bind fun sb _ => ?_)
      exact gives_pure ⟨sb, rfl⟩
    · refine (returns_loop hround hsb).bind ?_
      rintro _ ⟨sb, rfl⟩
      refine returns_effect (gives_lift ?_)
      rw [finishString]
      cases sbFinish sb with
      | error e => trivial
      | ok str => exact ⟨str, rfl⟩

/-- A number that is parsed for output has a value. -/
theorem parseNumber_returns (F : Floating) :
    ReturnsOnly (parseNumber F true) fun num => ∃ x, num = some x := by
  refine returns_bind fun sp => returns_bind fun _ => returns_bind fun _ => ?_
  exact returns_bind fun _ => returns_bind fun _ => returns_pure ⟨_, rfl⟩

end Parts

/-! ## The parser -/

section Parser

open Scanner

variable {F : Floating} {A : Allocator UInt8} {f : Forest F.double} {st : JsonNodes F.double}
  {s : List UInt8} {q k n deletes : ℕ} {v : JsonTree F.double} {γ : Type}
  {P : Forest F.double → Prop} {Failed : ℕ → JsonNodes F.double → Prop}
  {value : JsonScanner (Option (JsonTree F.double))} {value' : NodeScanner F.double Ptr}

/-- One scanner returns a tree, and the other makes it. -/
def Builds (k : ℕ) (value : JsonScanner (Option (JsonTree F.double)))
    (value' : NodeScanner F.double Ptr) : Prop :=
  ∀ s st f, Describes st f →
    Accords (NodesAre (Discarded f)) (fun r p => NodesAre (Makes f k r p)) (value s st.requests)
      (value' s st)

/-- `mknode` in both parsers. -/
theorem make_accords {α : Type} (h : Describes st f) (a : α) (content : JsonContent F.double) :
    Accords Failed (fun r p => NodesAre fun f' => r = some a ∧ p = some f.count ∧
      f' = f.make content) (effect (Model.mknode A (some a)) s st.requests)
      (effect (Nodes.mknode A content) s st) := by
  by_cases hgrant : (A st.requests).granted = true
  · obtain ⟨st', hrun, hq⟩ := run_mknode hgrant content
    have hd : Describes st' (f.make content) := ((mknode_describes A h content).of_ok hrun).2
    have hrun' : (Model.mknode A (some a)).run st.requests = .ok (some a, st.requests + 1) :=
      if_pos hgrant
    unfold effect
    rw [hrun, hrun', h.count]
    exact ⟨_, _, rfl, hq, _, hd, rfl, rfl, rfl⟩
  · have hrun : (Model.mknode A (some a)).run st.requests = .error .exit := if_neg hgrant
    unfold effect
    rw [hrun, run_mknode_refused hgrant content]
    rfl

/-- A node without children is made for a value without any. -/
theorem leaf_accords (h : Describes st f) {content : JsonContent F.double}
    (htree : (f.make content).tree (k + 1) f.count = some v) :
    Accords Failed (fun r p => NodesAre (Makes f (k + 1) r p))
      (effect (Model.mknode A (some v)) s st.requests)
      (effect (Nodes.mknode A content) s st) := by
  refine (make_accords h v content).mono (fun _ _ hfailed => hfailed) ?_
  intro r p q st' hst
  refine hst.mono ?_
  rintro _ ⟨rfl, rfl, rfl⟩
  exact ⟨v, f.count, rfl, rfl, built_make h.sound htree⟩

/-- The rest of a round: the container is finished or goes on. -/
theorem separator_accords {close : UInt8} {b : γ} {Inv : γ → Ptr → ℕ → JsonNodes F.double → Prop}
    {p : Ptr} (h : NodesAre P q st) (hfailed : ∀ q st, NodesAre P q st → Failed q st)
    (hinv : ∀ q st, NodesAre P q st → Inv b p q st) :
    Accords Failed (Round Inv Inv) (Model.parseSeparator close b s q)
      (Nodes.parseSeparator close p s st) := by
  refine accords_read h hfailed fun c s q st h => ?_
  by_cases hc : c = close
  · rw [if_pos hc, if_pos hc]
    exact accords_read h hfailed fun _ s q st h => accords_pure (hinv q st h)
  · rw [if_neg hc, if_neg hc]
    refine accords_read h hfailed fun d s q st h => ?_
    by_cases hd : d ≠ chr ','
    · rw [if_pos hd, if_pos hd]
      exact accords_fail (hfailed q st h)
    · rw [if_neg hd, if_neg hd]
      exact accords_skip h fun s q st h => accords_pure (hinv q st h)

/-- What a loop has collected, and the container it is in. -/
def Collects (f : Forest F.double) (k n : ℕ) (con : List γ → JsonTree F.double)
    (ret : Option (List γ)) (p : Ptr) (q : ℕ) (st : JsonNodes F.double) : Prop :=
  ∃ vs, ret = some vs ∧ p = some n ∧ NodesAre (fun f' => Built f f' k n (con vs)) q st

/-- Some container is there, which is deleted after a failure. -/
def Pending (f : Forest F.double) (k n : ℕ) (q : ℕ) (st : JsonNodes F.double) : Prop :=
  ∃ v, NodesAre (fun f' => Built f f' k n v) q st

/-- The nodes of a container and of a value that was read after it. -/
theorem Built.linkable {f₁ f₂ : Forest F.double} {c : ℕ} {w : JsonTree F.double}
    (hb : Built f f₁ (k + 1) n v) (hc : Built f₁ f₂ k c w) (h₁ : f₁.Sound) :
    f₂.live n = true ∧ f₂.content n = f₁.content n ∧ f₂.tree (k + 1) n = some v ∧
      ¬ Below f₂.children c n := by
  have hn : n < f₁.count := h₁.bound n hb.new.2
  refine ⟨(hc.kept.live n hn).trans hb.new.2, hc.kept.content n hn,
    (hc.kept.tree h₁ hb.new.2).trans hb.tree, fun hbelow => ?_⟩
  have := ((hc.below n).mp hbelow).1
  omega

/-- After a value was read, or not, the container is as it was. -/
theorem Builds.after (hvalue : Builds k value value') {f₁ : Forest F.double}
    (h₁ : Describes st f₁) (hb : Built f f₁ (k + 1) n v) :
    Accords (Pending f (k + 1) n) (fun r p => NodesAre (Makes f₁ k r p)) (value s st.requests)
      (value' s st) := by
  refine (hvalue s st f₁ h₁).mono ?_ fun _ _ _ _ h => h
  rintro q st' ⟨hq, f₂, h₂, hd⟩
  exact ⟨v, hq, f₂, h₂, hb.of_discarded h₁.sound h₂.sound hd⟩

/-- A round of the array puts the next element under the array. -/
theorem parseElement_accords (hvalue : Builds k value value')
    {ret : Option (List (JsonTree F.double))} {p : Ptr}
    (h : Collects f (k + 1) n .JSON_ARRAY ret p q st) :
    Accords (Pending f (k + 1) n)
      (Round (Collects f (k + 1) n .JSON_ARRAY) (Collects f (k + 1) n .JSON_ARRAY))
      (Model.parseElement value ret s q) (Nodes.parseElement value' true p s st) := by
  obtain ⟨vs, rfl, rfl, rfl, f₁, h₁, hb⟩ := h
  refine (hvalue.after h₁ hb).bind ?_
  rintro _ _ s q st ⟨hq, f₂, h₂, w, c, rfl, rfl, hc⟩
  -- Until it is linked, a failure would lose the element; `skip_space` has none.
  refine accords_skip (P := fun f₂ => Built f₁ f₂ k c w) ⟨hq, f₂, h₂, hc⟩ ?_
  rintro s _ st ⟨rfl, f₂, h₂, hc⟩
  obtain ⟨hlive, hcontent, htree, hcycle⟩ := hb.linkable hc h₁.sound
  have htag : (f₂.content n).tag = .JSON_ARRAY := by
    rw [hcontent, (tree_eq_array.mp hb.tree).1]
    rfl
  obtain ⟨st', hrun, hq, h'⟩ := run_appendElement h₂ hlive hc.new.2 htag hc.root
  refine accords_effect_bind hrun ?_
  have hb' := hb.append hc h₁.sound h₂.sound
    (tree_link_array h₂.sound hc.root hcycle htree hc.tree).1
  exact separator_accords (P := fun f' => Built f f' (k + 1) n (.JSON_ARRAY (vs ++ [w])))
    ⟨hq, _, h', hb'⟩ (fun q st h => ⟨_, h⟩) fun q st h => ⟨_, rfl, rfl, h⟩

/-- A round of the object puts the next member under the object. -/
theorem parseMember_accords (hvalue : Builds k value value')
    {ret : Option (List (CString × JsonTree F.double))} {p : Ptr}
    (h : Collects f (k + 1) n .JSON_OBJECT ret p q st) :
    Accords (Pending f (k + 1) n)
      (Round (Collects f (k + 1) n .JSON_OBJECT) (Collects f (k + 1) n .JSON_OBJECT))
      (Model.parseMember A value true ret s q) (Nodes.parseMember A value' true p s st) := by
  obtain ⟨ms, rfl, rfl, hb⟩ := h
  have hpending : ∀ q st, NodesAre (fun f' => Built f f' (k + 1) n (.JSON_OBJECT ms)) q st →
      Pending f (k + 1) n q st := fun q st h => ⟨_, h⟩
  refine accords_returns hb (parseString_returns A) hpending ?_
  rintro _ s q st ⟨key, rfl⟩ hb
  refine accords_skip hb fun s q st hb => accords_read hb hpending fun c s q st hb => ?_
  by_cases hc : c ≠ chr ':'
  · rw [if_pos hc, if_pos hc]
    exact accords_fail (hpending q st hb)
  rw [if_neg hc, if_neg hc]
  refine accords_skip hb ?_
  rintro s _ st ⟨rfl, f₁, h₁, hb⟩
  refine (hvalue.after h₁ hb).bind ?_
  rintro _ _ s q st ⟨hq, f₂, h₂, w, c, rfl, rfl, hc⟩
  refine accords_skip (P := fun f₂ => Built f₁ f₂ k c w) ⟨hq, f₂, h₂, hc⟩ ?_
  rintro s _ st ⟨rfl, f₂, h₂, hc⟩
  obtain ⟨hlive, hcontent, htree, hcycle⟩ := hb.linkable hc h₁.sound
  have htag : (f₂.content n).tag = .JSON_OBJECT := by
    rw [hcontent, (tree_eq_object.mp hb.tree).1]
    rfl
  obtain ⟨st', hrun, hq, h'⟩ := run_appendMember h₂ hlive hc.new.2 htag hc.root key
  refine accords_effect_bind hrun ?_
  have htree' : (f₂.append n c (some key)).tree (k + 1) n =
      some (.JSON_OBJECT (ms ++ [(key, w)])) :=
    (tree_link_object h₂.sound hc.root hcycle htree hc.tree).1
  have hb' := hb.append hc h₁.sound h₂.sound htree'
  exact separator_accords (P := fun f' => Built f f' (k + 1) n (.JSON_OBJECT (ms ++ [(key, w)])))
    ⟨hq, _, h', hb'⟩ (fun q st h => ⟨_, h⟩) fun q st h => ⟨_, rfl, rfl, h⟩

/-- The common text of `parse_array` and `parse_object` after the node was made. -/
theorem container_accords {con : List γ → JsonTree F.double} {start close : UInt8}
    {body : Option (List γ) → JsonScanner (Option (List γ) ⊕ Option (List γ))}
    {body' : Ptr → NodeScanner F.double (Ptr ⊕ Ptr)}
    (hbody : ∀ ret p s q st, Collects f k n con ret p q st →
      Accords (Pending f k n) (Round (Collects f k n con) (Collects f k n con)) (body ret s q)
        (body' p s st))
    (h : NodesAre (fun f' => Built f f' k n (con [])) q st) :
    Accords (Pending f k n) (fun r p => NodesAre (Makes f k r p))
      ((do
        if (← derefNext) ≠ start then fail
        else
          skipSpace
          if (← deref) = close then
            let _ ← derefNext
            pure (some (con []))
          else
            let ret ← loop .loopLimit body (some [])
            pure (ret.map con) : JsonScanner (Option (JsonTree F.double))) s q)
      ((do
        if (← onRequests derefNext) ≠ start then fail
        else
          onRequests skipSpace
          if (← onRequests deref) = close then
            let _ ← onRequests derefNext
            pure (some n)
          else loop .loopLimit body' (some n) : NodeScanner F.double Ptr) s st) := by
  have hpending : ∀ q st, NodesAre (fun f' => Built f f' k n (con [])) q st → Pending f k n q st :=
    fun q st h => ⟨_, h⟩
  refine accords_read h hpending fun c s q st h => ?_
  by_cases hc : c ≠ start
  · rw [if_pos hc, if_pos hc]
    exact accords_fail (hpending q st h)
  rw [if_neg hc, if_neg hc]
  refine accords_skip h fun s q st h => accords_read h hpending fun d s q st h => ?_
  by_cases hd : d = close
  · rw [if_pos hd, if_pos hd]
    refine accords_read h hpending fun _ s q st h => accords_pure ?_
    exact h.mono fun _ hb => ⟨_, n, rfl, rfl, hb⟩
  · rw [if_neg hd, if_neg hd]
    refine (accords_loop (fun b b' s st st' => hbody b b' s st st') ⟨[], rfl, rfl, h⟩).map_left ?_
    rintro _ _ q st ⟨vs, rfl, rfl, h⟩
    exact h.mono fun _ hb => ⟨_, n, rfl, rfl, hb⟩

/-- A container is made, filled, and deleted after a failure. -/
theorem filled_accords {con : List γ → JsonTree F.double} {content : JsonContent F.double}
    (hk : k + 1 ≤ deletes) (h : Describes st f)
    (htree : (f.make content).tree (k + 1) f.count = some (con []))
    {fill : Option (List γ) → JsonScanner (Option (JsonTree F.double))}
    {fill' : Ptr → NodeScanner F.double Ptr}
    (hfill : ∀ s q st, NodesAre (fun f' => Built f f' (k + 1) f.count (con [])) q st →
      Accords (Pending f (k + 1) f.count) (fun r p => NodesAre (Makes f (k + 1) r p))
        (fill (some []) s q) (fill' (some f.count) s st)) :
    Accords (NodesAre (Discarded f)) (fun r p => NodesAre (Makes f (k + 1) r p))
      ((effect (Model.mknode A (some [])) >>= fill) s st.requests)
      ((effect (Nodes.mknode A content) >>= fun ret =>
        (fill' ret).onFailure (jsonDelete deletes ret)) s st) := by
  refine (make_accords h [] content).bind ?_
  rintro _ _ s q st hst
  obtain ⟨hq, f', h', rfl, rfl, rfl⟩ := hst
  have hb := built_make h.sound htree
  refine (hfill s q st ⟨hq, _, h', hb⟩).onFailure ?_
  rintro q st ⟨v, hpending⟩
  exact delete_built h.sound hk hpending

/-- An array is built, or deleted with the elements that it has. -/
theorem parseArray_accords (hvalue : Builds k value value') (hk : k + 1 ≤ deletes) :
    Builds (k + 1) (Model.parseArray A value true)
      (Nodes.parseArray A deletes value' true) := by
  intro s st f h
  have hkids : (f.make .JSON_ARRAY).children f.count = [] := children_count h.sound
  have htree : (f.make .JSON_ARRAY).tree (k + 1) f.count = some (.JSON_ARRAY []) := by
    rw [tree_eq_array, hkids]
    exact ⟨Function.update_self .., .nil⟩
  refine filled_accords hk h htree fun s q st hst => ?_
  exact container_accords (fun ret p s q st => parseElement_accords hvalue) hst

/-- So is an object. -/
theorem parseObject_accords (hvalue : Builds k value value') (hk : k + 1 ≤ deletes) :
    Builds (k + 1) (Model.parseObject A value true)
      (Nodes.parseObject A deletes value' true) := by
  intro s st f h
  have hkids : (f.make .JSON_OBJECT).children f.count = [] := children_count h.sound
  have htree : (f.make .JSON_OBJECT).tree (k + 1) f.count = some (.JSON_OBJECT []) := by
    rw [tree_eq_object, hkids]
    exact ⟨Function.update_self .., .nil⟩
  refine filled_accords hk h htree fun s q st hst => ?_
  exact container_accords (fun ret p s q st => parseMember_accords hvalue) hst

/-- A word makes its node. -/
theorem parseWord_accords (h : NodesAre (· = f) q st) {content : JsonContent F.double}
    (htree : (f.make content).tree (k + 1) f.count = some v) {word : List UInt8} :
    Accords (NodesAre (Discarded f)) (fun r p => NodesAre (Makes f (k + 1) r p))
      (Model.parseWord F A true word v s q)
      (Nodes.parseWord F true word (Nodes.mknode A content) s st) := by
  refine accords_read h ?_ ?_
  · rintro q st ⟨hq, f', h', rfl⟩
    exact ⟨hq, _, h', discarded_self h'.sound⟩
  · rintro _ s _ st ⟨rfl, f', h', rfl⟩
    show Accords _ _ (effect (Model.mknode A (some v)) s st.requests)
      (effect (Nodes.mknode A content) s st)
    exact leaf_accords h' htree

/-- **The parser makes the tree** that the parser of trees returns. -/
theorem parseValue_accords : ∀ frames ≤ deletes,
    Builds frames (Model.parseValue F A true frames) (Nodes.parseValue F A deletes true frames)
  | 0, _ => fun _ _ _ _ => rfl
  | k + 1, hk => by
      have ih := parseValue_accords k (by omega)
      intro s st f h
      have hself : ∀ q st, NodesAre (· = f) q st → NodesAre (Discarded f) q st := by
        rintro q st ⟨hq, f', h', rfl⟩
        exact ⟨hq, _, h', discarded_self h'.sound⟩
      have hcontent : ∀ content : JsonContent F.double,
          (f.make content).content f.count = content := fun _ => Function.update_self ..
      refine accords_read (P := (· = f)) ⟨rfl, f, h, rfl⟩ hself fun c s q st hst => ?_
      by_cases hn : c = chr 'n'
      · rw [if_pos hn, if_pos hn]
        refine parseWord_accords hst ?_
        rw [Forest.tree, hcontent]
      rw [if_neg hn, if_neg hn]
      by_cases hfalse : c = chr 'f'
      · rw [if_pos hfalse, if_pos hfalse]
        refine parseWord_accords hst ?_
        rw [Forest.tree, hcontent]
      rw [if_neg hfalse, if_neg hfalse]
      by_cases ht : c = chr 't'
      · rw [if_pos ht, if_pos ht]
        refine parseWord_accords hst ?_
        rw [Forest.tree, hcontent]
      rw [if_neg ht, if_neg ht]
      by_cases hquote : c = chr '"'
      · rw [if_pos hquote, if_pos hquote]
        refine accords_returns hst (parseString_returns A) hself ?_
        rintro _ s _ st ⟨str, rfl⟩ ⟨rfl, f', h', rfl⟩
        show Accords _ _ (effect (Model.mknode A (some (JsonTree.JSON_STRING str))) s st.requests)
          (effect (Nodes.mknode A (.JSON_STRING str)) s st)
        refine leaf_accords h' ?_
        rw [Forest.tree, hcontent]
      rw [if_neg hquote, if_neg hquote]
      by_cases hbracket : c = chr '['
      · rw [if_pos hbracket, if_pos hbracket]
        obtain ⟨rfl, f', h', rfl⟩ := hst
        exact parseArray_accords ih hk s st f' h'
      rw [if_neg hbracket, if_neg hbracket]
      by_cases hbrace : c = chr '{'
      · rw [if_pos hbrace, if_pos hbrace]
        obtain ⟨rfl, f', h', rfl⟩ := hst
        exact parseObject_accords ih hk s st f' h'
      rw [if_neg hbrace, if_neg hbrace]
      refine accords_returns hst (parseNumber_returns F) hself ?_
      rintro _ s _ st ⟨x, rfl⟩ ⟨rfl, f', h', rfl⟩
      show Accords _ _ (effect (Model.mknode A (some (JsonTree.JSON_NUMBER x))) s st.requests)
        (effect (Nodes.mknode A (.JSON_NUMBER x)) s st)
      refine leaf_accords h' ?_
      rw [Forest.tree, hcontent]

/-- The text builds its value. -/
theorem parseText_accords {frames : ℕ} (hk : frames ≤ deletes) :
    Builds frames (Model.parseText F A true frames) (Nodes.parseText F A deletes frames) := by
  intro s st f h
  refine accords_skip (P := (· = f)) ⟨rfl, f, h, rfl⟩ ?_
  rintro s _ st ⟨rfl, f', h', rfl⟩
  refine (parseValue_accords frames hk s st f' h').bind ?_
  rintro _ _ s q st ⟨hq, f₁, h₁, v, n, rfl, rfl, hb⟩
  have hdelete : ∀ q st, Pending f' frames n q st →
      ∃ st', (jsonDelete deletes (some n)).run st = .ok ((), st') ∧
        NodesAre (Discarded f') q st' := by
    rintro q st ⟨v, hpending⟩
    exact delete_built h'.sound hk hpending
  refine Accords.onFailure ?_ hdelete
  refine accords_skip (P := fun f₁ => Built f' f₁ frames n v) ⟨hq, f₁, h₁, hb⟩ ?_
  refine fun s q st hb => accords_read hb (fun q st hb => ⟨v, hb⟩) fun c s q st hb => ?_
  by_cases hc : c ≠ 0
  · rw [if_pos hc, if_pos hc]
    exact accords_fail ⟨v, hb⟩
  · rw [if_neg hc, if_neg hc]
    exact accords_pure (hb.mono fun _ hb => ⟨v, n, rfl, rfl, hb⟩)

end Parser

/-! ## Decoding -/

section Decoding

variable {F : Floating} {A : Allocator UInt8} {f : Forest F.double} {st : JsonNodes F.double}
  {json : CString} {frames deletes : ℕ}

/-- What `json_decode` returns, and the nodes it leaves: those of the value's tree, or
none. -/
def Decoded (f : Forest F.double) (frames : ℕ) (json : CString) (p : Ptr)
    (st : JsonNodes F.double) : Prop :=
  ∃ f', Describes st f' ∧
    match p with
    | none => (¬ ∃ v, JsonText F json.bytes v) ∧ Discarded f f'
    | some n => ∃ v, JsonText F json.bytes v ∧ Built f f' frames n v

/-- `json_decode` returns what is parsed. -/
theorem run_jsonDecode {r : Option (Ptr × List UInt8)} {st' : JsonNodes F.double}
    (hrun : Nodes.parseText F A deletes frames (json.bytes ++ [0]) st = .ok (r, st')) :
    (Nodes.jsonDecode F A deletes frames json).run st = .ok (r.bind Prod.fst, st') := by
  unfold Nodes.jsonDecode StateT.run
  dsimp only
  cases r with
  | none => simp only [hrun, Option.bind_none]
  | some r => simp only [hrun, Option.bind_some]

/-- It stops where the parser stops. -/
theorem run_jsonDecode_stops {e : Stop}
    (hrun : Nodes.parseText F A deletes frames (json.bytes ++ [0]) st = .error e) :
    (Nodes.jsonDecode F A deletes frames json).run st = .error e := by
  unfold Nodes.jsonDecode StateT.run
  dsimp only
  simp only [hrun]

/-- It builds the value of the text and leaves no other node. -/
theorem jsonDecode_builds (A : Allocator UInt8) (h : Describes st f)
    (hframes : json.bytes.length < frames) (hdeletes : frames ≤ deletes) :
    Yields (OutOfMemory A json.bytes.length) ((Nodes.jsonDecode F A deletes frames json).run st)
      fun r => Decoded f frames json r.1 r.2 := by
  have htext := parseText_yields (F := F) (A := A) (OutOfMemory A json.bytes.length) true json
    (fun _ he => he.2) hframes st.requests
  have haccords := parseText_accords (A := A) hdeletes (json.bytes ++ [0]) st f h
  cases hrun : Model.parseText F A true frames (json.bytes ++ [0]) st.requests with
  | error e =>
      rw [hrun] at haccords htext
      rw [run_jsonDecode_stops haccords]
      exact htext
  | ok r =>
      rw [hrun] at haccords htext
      obtain ⟨_ | ⟨ret, s⟩, q⟩ := r
      · obtain ⟨st', hrun', -, f', h', hd⟩ := haccords
        rw [run_jsonDecode hrun']
        refine ⟨f', h', ?_, hd⟩
        rintro ⟨v, hv⟩
        have hnone := (htext (some v)).mpr ⟨v, hv, rfl⟩
        cases hnone
      · obtain ⟨p, st', hrun', -, f', h', v, n, rfl, rfl, hb⟩ := haccords
        obtain ⟨w, hw, hv⟩ := (htext (some v)).mp rfl
        cases hv
        rw [run_jsonDecode hrun']
        exact ⟨f', h', _, hw, hb⟩

/-- What was decoded is released again, whatever the text was. -/
theorem jsonDecode_jsonDelete (A : Allocator UInt8) (h : Describes st f)
    (hframes : json.bytes.length < frames) (hdeletes : frames ≤ deletes) :
    Yields (OutOfMemory A json.bytes.length) (StateT.run (do
        let node ← Nodes.jsonDecode F A deletes frames json
        jsonDelete deletes node) st) fun r => ∃ f', Describes r.2 f' ∧ Discarded f f' := by
  rw [StateT.run_bind]
  refine (jsonDecode_builds A h hframes hdeletes).bind ?_
  rintro ⟨p, st'⟩ ⟨f', h', hp⟩
  cases p with
  | none =>
      obtain ⟨d, rfl⟩ : ∃ d, deletes = d + 1 := ⟨deletes - 1, by omega⟩
      exact ⟨f', h', hp.2⟩
  | some n =>
      obtain ⟨v, -, hb⟩ := hp
      have hst : NodesAre (fun f' => Built f f' frames n v) st'.requests st' := ⟨rfl, f', h', hb⟩
      obtain ⟨st'', hrun, -, f'', h'', hd⟩ := delete_built h.sound hdeletes hst
      exact Yields.of_eq hrun ⟨f'', h'', hd⟩

/-- **`json_decode` makes the tree of a text**, with its own parser and `json_delete`: the
node it returns has the value of the text, and all nodes it made are below it; a text
without a value leaves no node.  Only the memory can end the program, when a request is
refused or the text is too large, and `json_delete` releases what was decoded. -/
theorem json_nodes_decoded (A : Allocator UInt8) (h : Describes st f)
    (hframes : json.bytes.length < frames) (hdeletes : frames ≤ deletes) :
    (Yields (OutOfMemory A json.bytes.length) ((Nodes.jsonDecode F A deletes frames json).run st)
        fun r => Decoded f frames json r.1 r.2) ∧
      Yields (OutOfMemory A json.bytes.length) (StateT.run (do
        let node ← Nodes.jsonDecode F A deletes frames json
        jsonDelete deletes node) st) fun r => ∃ f', Describes r.2 f' ∧ Discarded f f' :=
  ⟨jsonDecode_builds A h hframes hdeletes, jsonDecode_jsonDelete A h hframes hdeletes⟩

/-- The array is decoded, and then released again. -/
theorem json_nodes_decoded_seven :
    (∃ n st, (Nodes.jsonDecode digitNumbers (generous true 0) 4 4 sevenText).run
        (noNodes .JSON_NULL 0) = .ok (some n, st) ∧
      Decoded (noForest .JSON_NULL) 4 sevenText (some n) st) ∧
    ∃ r, StateT.run (do
        let node ← Nodes.jsonDecode digitNumbers (generous true 0) 4 4 sevenText
        jsonDelete 4 node) (noNodes .JSON_NULL 0) = .ok r ∧
      ∃ f', Describes r.2 f' ∧ Discarded (noForest .JSON_NULL) f' := by
  have h := noNodes_describes (JsonContent.JSON_NULL : JsonContent digitNumbers.double) 0
  have hframes : sevenText.bytes.length < 4 := by decide
  have hsize : 2 * (sevenText.bytes.length + 16) ≤ ptrdiffMax := by decide
  have htext := sevenText_jsonText
  generalize sevenText = json at hframes hsize htext ⊢
  obtain ⟨hdecode, hdelete⟩ := json_nodes_decoded (generous true 0) h hframes le_rfl
  obtain ⟨⟨p, st⟩, hrun, hdecoded⟩ := returns_of_granted (fun _ => rfl) hsize hdecode
  obtain ⟨r, hrun', hleft⟩ := returns_of_granted (fun _ => rfl) hsize hdelete
  cases p with
  | none =>
      obtain ⟨f', -, hno, -⟩ := hdecoded
      exact absurd ⟨sevenValue, htext⟩ hno
  | some n => exact ⟨⟨n, st, hrun, hdecoded⟩, r, hrun', hleft⟩

end Decoding

end AzureMetadata.Analysis
