import AzureMetadata.Clib.Scanner

/-!
# Two scanners that agree

One scanner returns a value, another builds it in its state.  `Accords` says that the second
stops where the first one does and for the same reason, fails where the first one does, and
otherwise reads as far as the first one; the two states and values are related, in one way
after a failure and in another after a success.
-/

set_option autoImplicit false

namespace Clib

namespace Scanner

variable {ε σ ρ τ α α' β β' : Type} {Failed : σ → ρ → Prop} {Done : α → α' → σ → ρ → Prop}
  {Done' : β → β' → σ → ρ → Prop} {s : List τ} {st st₁ : σ} {st' : ρ}

/-- How the second of two scanners ends, where the first one ends so. -/
def Accords (Failed : σ → ρ → Prop) (Done : α → α' → σ → ρ → Prop)
    (r : Except ε (Option (α × List τ) × σ)) (r' : Except ε (Option (α' × List τ) × ρ)) : Prop :=
  match r with
  | .error e => r' = .error e
  | .ok (none, st) => ∃ st', r' = .ok (none, st') ∧ Failed st st'
  | .ok (some (a, s), st) => ∃ a' st', r' = .ok (some (a', s), st') ∧ Done a a' st st'

variable {p : Scanner ε σ τ α} {p' : Scanner ε ρ τ α'} {f : α → Scanner ε σ τ β}
  {f' : α' → Scanner ε ρ τ β'}

/-- A scanner whose run is known goes on with its result. -/
theorem bind_run {a : α} {s₁ : List τ} {st₁ : σ} (h : p s st = .ok (some (a, s₁), st₁)) :
    (p >>= f) s st = f a s₁ st₁ := by
  show (match p s st with
    | .error e => .error e
    | .ok (none, st) => .ok (none, st)
    | .ok (some (a, s), st) => f a s st : Except ε (Option (β × List τ) × σ)) = _
  rw [h]

/-- Two pairs in a row accord where they accord one after the other. -/
theorem Accords.bind (h : Accords Failed Done (p s st) (p' s st'))
    (hf : ∀ a a' s st st', Done a a' st st' → Accords Failed Done' (f a s st) (f' a' s st')) :
    Accords Failed Done' ((p >>= f) s st) ((p' >>= f') s st') := by
  show Accords Failed Done' (match p s st with
    | .error e => .error e
    | .ok (none, st) => .ok (none, st)
    | .ok (some (a, s), st) => f a s st) (match p' s st' with
    | .error e => .error e
    | .ok (none, st') => .ok (none, st')
    | .ok (some (a', s), st') => f' a' s st')
  cases hrun : p s st with
  | error e =>
      rw [hrun] at h
      rw [show p' s st' = .error e from h]
      rfl
  | ok r =>
      rw [hrun] at h
      obtain ⟨_ | ⟨a, s₁⟩, st₁⟩ := r
      · obtain ⟨st₁', hrun', hfailed⟩ := h
        rw [hrun']
        exact ⟨st₁', rfl, hfailed⟩
      · obtain ⟨a', st₁', hrun', hdone⟩ := h
        rw [hrun']
        exact hf a a' s₁ st₁ st₁' hdone

/-- Weaker relations hold of what accords. -/
theorem Accords.mono {Failed' : σ → ρ → Prop} {Done' : α → α' → σ → ρ → Prop}
    (h : Accords Failed Done (p s st) (p' s st'))
    (hfailed : ∀ st st', Failed st st' → Failed' st st')
    (hdone : ∀ a a' st st', Done a a' st st' → Done' a a' st st') :
    Accords Failed' Done' (p s st) (p' s st') := by
  cases hrun : p s st with
  | error e =>
      rw [hrun] at h
      exact h
  | ok r =>
      rw [hrun] at h
      obtain ⟨_ | ⟨a, s₁⟩, st₁⟩ := r
      · exact h.imp fun st₁' h₁ => ⟨h₁.1, hfailed _ _ h₁.2⟩
      · exact h.imp fun a' ⟨st₁', h₁⟩ => ⟨st₁', h₁.1, hdone _ _ _ _ h₁.2⟩

/-- Two values that are returned are to be related. -/
theorem accords_pure {a : α} {a' : α'} (h : Done a a' st st') :
    Accords (ε := ε) Failed Done ((pure a : Scanner ε σ τ α) s st)
      ((pure a' : Scanner ε ρ τ α') s st') := ⟨a', st', rfl, h⟩

/-- Two failures are to leave related states. -/
theorem accords_fail (h : Failed st st') :
    Accords (ε := ε) Failed Done ((fail : Scanner ε σ τ α) s st)
      ((fail : Scanner ε ρ τ α') s st') := ⟨st', rfl, h⟩

/-- A call on the second side only, which returns. -/
theorem accords_effect_bind {γ : Type} {q : StateT ρ (Except ε) γ}
    {g : γ → Scanner ε ρ τ α'} {c : γ} {st'' : ρ} (hq : q.run st' = .ok (c, st''))
    (h : Accords Failed Done (p s st) (g c s st'')) :
    Accords Failed Done (p s st) ((effect q >>= g) s st') := by
  have heffect : effect q s st' = .ok (some (c, s), st'') := by
    unfold effect
    rw [hq]
  rw [bind_run heffect]
  exact h

/-- What the second scanner cleans up after a failure makes it agree. -/
theorem Accords.onFailure {Failed' : σ → ρ → Prop} {cleanup : StateT ρ (Except ε) Unit}
    (h : Accords Failed' Done (p s st) (p' s st'))
    (hcleanup : ∀ st st', Failed' st st' → ∃ st'', cleanup.run st' = .ok ((), st'') ∧
      Failed st st'') :
    Accords Failed Done (p s st) (p'.onFailure cleanup s st') := by
  unfold Scanner.onFailure
  cases hrun : p s st with
  | error e =>
      rw [hrun] at h
      rw [show p' s st' = .error e from h]
      rfl
  | ok r =>
      rw [hrun] at h
      obtain ⟨_ | ⟨a, s₁⟩, st₁⟩ := r
      · obtain ⟨st₁', hrun', hfailed⟩ := h
        obtain ⟨st₂', hclean, hfailed'⟩ := hcleanup st₁ st₁' hfailed
        rw [hrun']
        dsimp only
        rw [hclean]
        exact ⟨st₂', rfl, hfailed'⟩
      · obtain ⟨a', st₁', hrun', hdone⟩ := h
        rw [hrun']
        exact ⟨a', st₁', rfl, hdone⟩

/-- The same scanner on both sides, on the second one as a part. -/
theorem accords_onPart {get : ρ → σ} {set : σ → ρ → ρ} {p : Scanner ε σ τ α}
    {Done : α → α → σ → ρ → Prop} (hst : get st' = st)
    (hfailed : ∀ st₁, p s st = .ok (none, st₁) → Failed st₁ (set st₁ st'))
    (hdone : ∀ a s₁ st₁, p s st = .ok (some (a, s₁), st₁) → Done a a st₁ (set st₁ st')) :
    Accords Failed Done (p s st) (p.onPart get set s st') := by
  unfold onPart
  rw [hst]
  cases hrun : p s st with
  | error e => rfl
  | ok r =>
      obtain ⟨_ | ⟨a, s₁⟩, st₁⟩ := r
      · exact ⟨_, rfl, hfailed st₁ hrun⟩
      · exact ⟨a, _, rfl, hdone a s₁ st₁ hrun⟩

/-- Two values between the first and the second scanner's rounds, or behind the loops. -/
def Round (Inv : β → β' → σ → ρ → Prop) (Done : α → α' → σ → ρ → Prop) :
    β ⊕ α → β' ⊕ α' → σ → ρ → Prop
  | .inl b, .inl b' => Inv b b'
  | .inr a, .inr a' => Done a a'
  | _, _ => fun _ _ => False

/-- Loops agree whose bodies do. -/
theorem accords_loop {e : ε} {body : β → Scanner ε σ τ (β ⊕ α)}
    {body' : β' → Scanner ε ρ τ (β' ⊕ α')} {Inv : β → β' → σ → ρ → Prop}
    (hbody : ∀ b b' s st st', Inv b b' st st' →
      Accords Failed (Round Inv Done) (body b s st) (body' b' s st'))
    {b : β} {b' : β'} (h : Inv b b' st st') :
    Accords Failed Done (loop e body b s st) (loop e body' b' s st') := by
  have hfor : ∀ n b b' s st st', Inv b b' st st' →
      Accords Failed Done (loopFor e body n b s st) (loopFor e body' n b' s st') := by
    intro n
    induction n with
    | zero => exact fun _ _ _ _ _ _ => rfl
    | succ n ih =>
        intro b b' s st st' h
        refine (hbody b b' s st st' h).bind ?_
        rintro (b₁ | a) (b₁' | a') s₁ st₁ st₁' h₁
        · exact ih b₁ b₁' s₁ st₁ st₁' h₁
        · exact h₁.elim
        · exact h₁.elim
        · exact accords_pure h₁
  exact hfor _ b b' s st st' h

/-- A function of what the first scanner returns. -/
theorem Accords.map_left {g : α → β} {Done' : β → α' → σ → ρ → Prop}
    (h : Accords Failed Done (p s st) (p' s st'))
    (hg : ∀ a a' st st', Done a a' st st' → Done' (g a) a' st st') :
    Accords Failed Done' ((p >>= fun a => pure (g a)) s st) (p' s st') := by
  cases hrun : p s st with
  | error e =>
      rw [hrun] at h
      rw [show p' s st' = .error e from h]
      show Accords Failed Done' (match p s st with
        | .error e => .error e
        | .ok (none, st) => .ok (none, st)
        | .ok (some (a, s), st) => .ok (some (g a, s), st)) _
      rw [hrun]
      rfl
  | ok r =>
      rw [hrun] at h
      show Accords Failed Done' (match p s st with
        | .error e => .error e
        | .ok (none, st) => .ok (none, st)
        | .ok (some (a, s), st) => .ok (some (g a, s), st)) _
      rw [hrun]
      obtain ⟨_ | ⟨a, s₁⟩, st₁⟩ := r
      · exact h
      · obtain ⟨a', st₁', hrun', hdone⟩ := h
        exact ⟨a', st₁', hrun', hg _ _ _ _ hdone⟩

end Scanner

end Clib
