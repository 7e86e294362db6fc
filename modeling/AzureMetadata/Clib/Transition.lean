import Mathlib.Computability.StateTransition

/-!
# Runs, invariants and simulations

Two kinds of system.  A `Transition` has labelled steps and is what an interface
driven by its callers is: `Reach ls s` says the calls `ls` can lead to `s`.  A
machine that runs by itself is a function `step : σ → Option σ`, and its runs are
Mathlib's `StateTransition.Reaches`; `Guarded step G` are the runs all of whose
steps are taken in a state that satisfies `G`.

For both the induction over a run is packaged as a rule: `Reach.invariant` and
`Simulation.reach` for labelled systems, `Guarded.invariant` and `safe_iff_guard` for machines.
-/

set_option autoImplicit false

namespace Clib

open Relation StateTransition

/-! ## Labelled systems -/

/-- A transition system whose steps carry labels. -/
structure Transition (σ ℓ : Type) where
  start : σ → Prop
  step : σ → ℓ → σ → Prop

namespace Transition

variable {σ τ ℓ : Type}

/-- `T.Reach ls s`: some run of `T` with the labels `ls` ends in `s`. -/
inductive Reach (T : Transition σ ℓ) : List ℓ → σ → Prop
  | start {s : σ} (h : T.start s) : Reach T [] s
  | step {ls : List ℓ} {l : ℓ} {s s' : σ} (hr : Reach T ls s) (h : T.step s l s') :
      Reach T (ls ++ [l]) s'

/-- What holds at the start and is kept by every step holds after every run. -/
theorem Reach.invariant {T : Transition σ ℓ} {I : σ → Prop} (hstart : ∀ s, T.start s → I s)
    (hstep : ∀ s l s', I s → T.step s l s' → I s') {ls : List ℓ} {s : σ} (hr : T.Reach ls s) :
    I s := by
  induction hr with
  | start h => exact hstart _ h
  | step _ h ih => exact hstep _ _ _ ih h

/-- The steps of a system that meet a condition on the state and the label. -/
def restrict (T : Transition σ ℓ) (cond : σ → ℓ → Prop) : Transition σ ℓ where
  start := T.start
  step s l s' := cond s l ∧ T.step s l s'

/-- `R` simulates `C` in `A`: every step of `C` is a step of `A` with the same label
between related states. -/
structure Simulation (C : Transition σ ℓ) (A : Transition τ ℓ) (R : σ → τ → Prop) : Prop where
  start : ∀ s, C.start s → ∃ t, A.start t ∧ R s t
  step : ∀ s t l s', R s t → C.step s l s' → ∃ t', A.step t l t' ∧ R s' t'

/-- Every run of the concrete system is one of the abstract system. -/
theorem Simulation.reach {C : Transition σ ℓ} {A : Transition τ ℓ} {R : σ → τ → Prop}
    (hsim : Simulation C A R) {ls : List ℓ} {s : σ} (hr : C.Reach ls s) :
    ∃ t, A.Reach ls t ∧ R s t := by
  induction hr with
  | start h =>
      obtain ⟨t, ht, hR⟩ := hsim.start _ h
      exact ⟨t, .start ht, hR⟩
  | step _ h ih =>
      obtain ⟨t, ht, hR⟩ := ih
      obtain ⟨t', ht', hR'⟩ := hsim.step _ _ _ _ hR h
      exact ⟨t', .step ht ht', hR'⟩

/-- The system in which each label acts as a function, from one start state. -/
def ofEffect (t₀ : τ) (effect : τ → ℓ → τ) : Transition τ ℓ :=
  ⟨fun t => t = t₀, fun t l t' => t' = effect t l⟩

/-- Steps that are determined lead to the state that folds their effects. -/
theorem reach_ofEffect {t₀ : τ} {effect : τ → ℓ → τ} {ls : List ℓ} {t : τ}
    (hr : (ofEffect t₀ effect).Reach ls t) : t = ls.foldl effect t₀ := by
  induction hr with
  | start h => exact h
  | step _ h ih => rw [List.foldl_append, ← ih]; exact h

end Transition

/-! ## Machines -/

section Machine

variable {σ : Type} {step : σ → Option σ} {G I Bad : σ → Prop}

/-- The state after so many steps, or where the machine halts before. -/
def runFor (step : σ → Option σ) : ℕ → σ → σ
  | 0, a => a
  | n + 1, a =>
    match step a with
    | none => a
    | some b => runFor step n b

/-- One step is a run. -/
theorem reaches_step {a b : σ} (hstep : step a = some b) : Reaches step a b :=
  ReflTransGen.single hstep

/-- The steps of a bounded run are a run. -/
theorem reaches_runFor (n : ℕ) (a : σ) : Reaches step a (runFor step n a) := by
  induction n generalizing a with
  | zero => exact .refl
  | succ n ih =>
      unfold runFor
      cases hstep : step a with
      | none => exact .refl
      | some b => exact (reaches_step hstep).trans (ih b)

/-- The runs of a machine whose steps are all taken in states satisfying `G`. -/
def Guarded (step : σ → Option σ) (G : σ → Prop) : σ → σ → Prop :=
  ReflTransGen fun a b => G a ∧ b ∈ step a

/-- What guarded steps keep holds at the end of every guarded run. -/
theorem Guarded.invariant (hstep : ∀ a b, I a → G a → b ∈ step a → I b) {a b : σ} (ha : I a)
    (hr : Guarded step G a b) : I b := by
  induction hr with
  | refl => exact ha
  | tail _ h ih => exact hstep _ _ ih h.1 h.2

/-- A guard that holds of all states reached holds along the run. -/
theorem guarded_of_reaches {a b : σ} (hG : ∀ c, Reaches step a c → G c)
    (hr : Reaches step a b) : Guarded step G a b := by
  induction hr with
  | refl => exact .refl
  | tail hrun h ih => exact ih.tail ⟨hG _ hrun, h⟩

/-- The first steps of a machine, if none of them is taken in a state that breaks the guard. -/
theorem guarded_runFor {n : ℕ} {a : σ} (hG : ∀ k < n, G (runFor step k a)) :
    Guarded step G a (runFor step n a) := by
  induction n generalizing a with
  | zero => exact .refl
  | succ n ih =>
      have hfirst := hG 0 (Nat.succ_pos n)
      cases hstep : step a with
      | none =>
          rw [runFor, hstep]
          exact .refl
      | some b =>
          have hrest : ∀ k < n, G (runFor step k b) := by
            intro k hk
            have hnext := hG (k + 1) (Nat.succ_lt_succ hk)
            rwa [runFor, hstep] at hnext
          rw [runFor, hstep]
          exact (ih hrest).head ⟨hfirst, hstep⟩

/-- When steps taken under the guard keep an invariant that rules `Bad` out, and a
state that breaks the guard has a bad next one, a machine never becomes bad iff it
never breaks the guard. -/
theorem safe_iff_guard {a : σ} (ha : I a) (hgood : ∀ b, I b → ¬ Bad b)
    (hkeep : ∀ b c, I b → G b → c ∈ step b → I c)
    (hbreak : ∀ b, I b → ¬ G b → ∃ c, c ∈ step b ∧ Bad c) :
    (∀ b, Reaches step a b → ¬ Bad b) ↔ ∀ b, Reaches step a b → G b := by
  constructor
  · intro hsafe b hr
    -- Up to the first state that breaks the guard the invariant holds.
    have hboth : I b ∧ G b := by
      induction hr with
      | refl =>
          refine ⟨ha, ?_⟩
          by_contra hG
          obtain ⟨c, hc, hbad⟩ := hbreak _ ha hG
          exact hsafe c (ReflTransGen.single hc) hbad
      | @tail b c hrun h ih =>
          have hI := hkeep _ _ ih.1 ih.2 h
          refine ⟨hI, ?_⟩
          by_contra hG
          obtain ⟨d, hd, hbad⟩ := hbreak _ hI hG
          exact hsafe d ((ReflTransGen.tail hrun h).tail hd) hbad
    exact hboth.2
  · intro hG b hr
    exact hgood b (Guarded.invariant hkeep ha (guarded_of_reaches hG hr))

end Machine

end Clib
