import AzureMetadata.Clib.Outcome
import Mathlib.Data.List.TakeWhile

/-!
# Scanners

A scanner reads an array through a pointer that only moves forward, and reports failure
by returning nothing: a recursive descent parser over a string that a terminator ends.
It has a state besides, which it also leaves when it fails.

Three judgements, each with a rule for sequencing.  `Parses p t Q` is about every text
`t` before the terminator: the scanner never reads behind the terminator, and what it
returns was read off a beginning of `t` as `Q` says.  `Accepts p s P` says that it reads
some of `s` and returns a value as `P` says, and `Halts p s` that it stops the program.
-/

set_option autoImplicit false

namespace Clib

/-- From the cells at the pointer and a state: a stop, or failure or a value with the
cells at the pointer, and the state afterwards. -/
def Scanner (ε σ τ α : Type) := List τ → σ → Except ε (Option (α × List τ) × σ)

namespace Scanner

variable {ε σ τ α β γ : Type}

instance : Monad (Scanner ε σ τ) where
  pure a := fun s st => .ok (some (a, s), st)
  bind p f := fun s st =>
    match p s st with
    | .error e => .error e
    | .ok (none, st') => .ok (none, st')
    | .ok (some (a, s'), st') => f a s' st'

/-- `return false`. -/
def fail : Scanner ε σ τ α := fun _ st => .ok (none, st)

/-- The program stops. -/
def halt (e : ε) : Scanner ε σ τ α := fun _ _ => .error e

/-- `*s`; `e` is what reading behind the array is. -/
def peek (e : ε) : Scanner ε σ τ τ
  | [], _ => .error e
  | c :: s, st => .ok (some (c, c :: s), st)

/-- `*s++`. -/
def next (e : ε) : Scanner ε σ τ τ
  | [], _ => .error e
  | c :: s, st => .ok (some (c, s), st)

/-- The cells from the pointer on. -/
def cells : Scanner ε σ τ (List τ) := fun s st => .ok (some (s, s), st)

/-- `s += n`. -/
def advance (n : ℕ) : Scanner ε σ τ Unit := fun s st => .ok (some ((), s.drop n), st)

/-- A call that does not look at the array. -/
def effect (p : StateT σ (Except ε) α) : Scanner ε σ τ α := fun s st =>
  match p.run st with
  | .error e => .error e
  | .ok (a, st') => .ok (some (a, s), st')

/-- `while (test(*s)) s++;` -/
def skipWhile (e : ε) (test : τ → Bool) : Scanner ε σ τ Unit
  | [], _ => .error e
  | c :: s, st => if test c then skipWhile e test s st else .ok (some ((), c :: s), st)

/-- A loop whose body goes on with a value of `β` or leaves with one of `α`. -/
def loopFor (e : ε) (body : β → Scanner ε σ τ (β ⊕ α)) : ℕ → β → Scanner ε σ τ α
  | 0, _ => halt e
  | n + 1, b => do
    match ← body b with
    | .inl b' => loopFor e body n b'
    | .inr a => pure a

/-- A loop that moves the pointer in each round: it ends before the cells do. -/
def loop (e : ε) (body : β → Scanner ε σ τ (β ⊕ α)) (b : β) : Scanner ε σ τ α := fun s st =>
  loopFor e body s.length b s st

/-- A scanner whose state is a part of the state. -/
def onPart {ρ : Type} (get : ρ → σ) (set : σ → ρ → ρ) (p : Scanner ε σ τ α) : Scanner ε ρ τ α :=
  fun s st =>
    match p s (get st) with
    | .error e => .error e
    | .ok (r, part) => .ok (r, set part st)

/-- What is cleaned up before a failure is reported. -/
def onFailure (p : Scanner ε σ τ α) (cleanup : StateT σ (Except ε) Unit) : Scanner ε σ τ α :=
  fun s st =>
    match p s st with
    | .ok (none, st') =>
      match cleanup.run st' with
      | .error e => .error e
      | .ok (_, st'') => .ok (none, st'')
    | r => r

/-- A character that passes the test is skipped, another ends the run. -/
theorem skipWhile_cons {e : ε} {test : τ → Bool} {c : τ} {s : List τ} {st : σ} :
    skipWhile e test (c :: s) st =
      if test c then skipWhile e test s st else .ok (some ((), c :: s), st) := rfl

variable {Allowed : ε → Prop} {p : Scanner ε σ τ α} {f : α → Scanner ε σ τ β} {e : ε}
  {s s' s'' : List τ} {a : α} {b : β}

/-! ## What is read off a text -/

section Parses

variable [Zero τ] {t : List τ} {Q R : α → List τ → List τ → Prop} {S : β → List τ → List τ → Prop}

/-- On the text `t` the scanner stops only in an allowed way, and what it returns comes
with a beginning `w` of `t` that it has read and the rest `t'`: `Q a w t'`. -/
def Parses (Allowed : ε → Prop) (p : Scanner ε σ τ α) (t : List τ)
    (Q : α → List τ → List τ → Prop) : Prop :=
  ∀ st, Yields Allowed (p (t ++ [0]) st) fun r =>
    ∀ a s, r.1 = some (a, s) → ∃ w t', t = w ++ t' ∧ s = t' ++ [0] ∧ Q a w t'

/-- A stronger result is a weaker one. -/
theorem Parses.mono (h : Parses Allowed p t Q)
    (hQ : ∀ a w t', t = w ++ t' → Q a w t' → R a w t') : Parses Allowed p t R := by
  intro st
  refine (h st).mono ?_
  intro r hr a s he
  obtain ⟨w, t', ht, hs, hq⟩ := hr a s he
  exact ⟨w, t', ht, hs, hQ a w t' ht hq⟩

/-- The texts of two scanners in a row are joined. -/
theorem Parses.bind (h : Parses Allowed p t Q)
    (hf : ∀ a w t', t = w ++ t' → Q a w t' →
      Parses Allowed (f a) t' fun b w' t'' => S b (w ++ w') t'') :
    Parses Allowed (p >>= f) t S := by
  intro st
  have hp := h st
  show Yields Allowed (match p (t ++ [0]) st with
    | .error e => .error e
    | .ok (none, st') => .ok (none, st')
    | .ok (some (a, s'), st') => f a s' st') _
  cases hrun : p (t ++ [0]) st with
  | error e =>
      rw [hrun] at hp
      exact hp
  | ok r =>
      rw [hrun] at hp
      obtain ⟨_ | ⟨a, s⟩, st'⟩ := r
      · intro a s he
        cases he
      · obtain ⟨w, t', ht, hs, hq⟩ := hp a s rfl
        refine (hs ▸ hf a w t' ht hq st').mono ?_
        intro r hr b s'' he
        obtain ⟨w', t'', ht', hs', hS⟩ := hr b s'' he
        exact ⟨w ++ w', t'', by rw [ht, ht', List.append_assoc], hs', hS⟩

/-- To return a value takes no text. -/
theorem parses_pure (h : Q a [] t) : Parses (σ := σ) Allowed (pure a) t Q := by
  intro st a' s he
  cases he
  exact ⟨[], t, rfl, rfl, h⟩

/-- A scanner that fails has nothing to show. -/
theorem parses_fail : Parses (σ := σ) Allowed fail t Q := fun _ _ _ he => nomatch he

/-- A halt is to be an allowed one. -/
theorem parses_halt (h : Allowed e) : Parses (σ := σ) Allowed (halt e) t Q := fun _ => h

/-- The characters that are left are the text and its NUL. -/
theorem parses_cells_bind {f : List τ → Scanner ε σ τ β} (h : Parses Allowed (f (t ++ [0])) t S) :
    Parses Allowed (cells >>= f) t S := h

/-- To advance takes that many characters. -/
theorem parses_advance {w : List τ} {t' : List τ} {Q : Unit → List τ → List τ → Prop}
    (ht : t = w ++ t') (h : Q () w t') : Parses (σ := σ) Allowed (advance w.length) t Q := by
  intro st a s he
  subst ht
  rw [List.append_assoc, List.drop_left] at he
  cases he
  exact ⟨w, t', rfl, rfl, h⟩

/-- What acts on the state only takes no text. -/
theorem parses_effect {q : StateT σ (Except ε) α}
    (h : ∀ st, Yields Allowed (q.run st) fun r => Q r.1 [] t) :
    Parses Allowed (effect q) t Q := by
  intro st
  have hq := h st
  unfold effect
  cases hrun : q.run st with
  | error e =>
      rw [hrun] at hq
      exact hq
  | ok r =>
      rw [hrun] at hq
      intro a s he
      cases he
      exact ⟨[], t, rfl, rfl, hq⟩

/-- `*s` before a decision on it: the cell is the terminator or the head of the text. -/
theorem parses_peek_bind {f : τ → Scanner ε σ τ β} (hend : t = [] → Parses Allowed (f 0) [] S)
    (hcons : ∀ c t', t = c :: t' → Parses Allowed (f c) (c :: t') S) :
    Parses Allowed (peek e >>= f) t S := by
  cases t with
  | nil => exact hend rfl
  | cons c t' => exact hcons c t' rfl

/-- `*s++` where the text is known to go on. -/
theorem parses_next_cons {f : τ → Scanner ε σ τ β} {c : τ} {t' : List τ}
    (h : Parses Allowed (f c) t' fun b w t'' => S b (c :: w) t'') :
    Parses Allowed (next e >>= f) (c :: t') S := by
  intro st
  refine (h st).mono ?_
  intro r hr b s he
  obtain ⟨w, t'', ht, hs, hS⟩ := hr b s he
  exact ⟨c :: w, t'', by rw [ht, List.cons_append], hs, hS⟩

/-- `*s++` before a decision on it, which must be failure if it read the terminator. -/
theorem parses_next_bind {f : τ → Scanner ε σ τ β} (hend : ∀ st, f 0 [] st = .ok (none, st))
    (hcons : ∀ c t', t = c :: t' → Parses Allowed (f c) t' fun b w t'' => S b (c :: w) t'') :
    Parses Allowed (next e >>= f) t S := by
  cases t with
  | nil =>
      intro st
      show Yields Allowed (f 0 [] st) _
      rw [hend]
      intro a s he
      cases he
  | cons c t' => exact parses_next_cons (hcons c t' rfl)

/-- A run that the NUL ends takes the longest beginning that passes the test. -/
theorem parses_skipWhile {test : τ → Bool} {Q : Unit → List τ → List τ → Prop}
    (h0 : test 0 = false)
    (hQ : ∀ w t', t = w ++ t' → (∀ c ∈ w, test c = true) → (∀ c ∈ t'.head?, test c = false) →
      Q () w t') :
    Parses (σ := σ) Allowed (skipWhile e test) t Q := by
  induction t generalizing Q with
  | nil =>
      intro st
      rw [List.nil_append, skipWhile_cons, h0]
      intro a s he
      cases he
      exact ⟨[], [], rfl, rfl, hQ [] [] rfl (fun _ hc => nomatch hc) (fun _ hc => nomatch hc)⟩
  | cons c t ih =>
      intro st
      rw [List.cons_append, skipWhile_cons]
      cases hc : test c with
      | false =>
          intro a s he
          cases he
          refine ⟨[], c :: t, rfl, rfl, hQ [] (c :: t) rfl (fun _ hd => nomatch hd) ?_⟩
          intro d hd
          cases hd
          exact hc
      | true =>
          have htail : Parses (σ := σ) Allowed (skipWhile e test) t fun u w t' =>
              Q u (c :: w) t' := by
            refine ih ?_
            intro w t' ht hw hend
            refine hQ (c :: w) t' (by rw [ht, List.cons_append]) ?_ hend
            intro d hd
            cases hd with
            | head => exact hc
            | tail _ hd => exact hw d hd
          refine (htail st).mono ?_
          intro r hr a s he
          obtain ⟨w, t', ht, hs, hq⟩ := hr a s he
          exact ⟨c :: w, t', by rw [ht, List.cons_append], hs, hq⟩

/-- The rule of a loop.  `P g` holds before a round and `R g` is what the loop does from
there, where `g` is what a proof knows of the state; a round that goes on has read
something, and does the rest of the loop with another `g`. -/
theorem parses_loop {body : β → Scanner ε σ τ (β ⊕ α)} {γ : Type} {P : γ → β → List τ → Prop}
    {R : γ → α → List τ → List τ → Prop} {g : γ}
    (hbody : ∀ g b t, P g b t → Parses Allowed (body b) t fun r w t' =>
      match r with
      | .inl b' => w ≠ [] ∧ ∃ g', P g' b' t' ∧ ∀ a w' t'', R g' a w' t'' → R g a (w ++ w') t''
      | .inr a => R g a w t')
    (hP : P g b t) : Parses Allowed (loop e body b) t (R g) := by
  have hfor : ∀ n g b t, t.length < n → P g b t →
      Parses Allowed (loopFor e body n b) t (R g) := by
    intro n
    induction n with
    | zero => exact fun _ _ _ hlt => absurd hlt (Nat.not_lt_zero _)
    | succ n ih =>
        intro g b t hlt hPb
        refine (hbody g b t hPb).bind ?_
        intro r w t' ht hr
        cases r with
        | inl b' =>
            obtain ⟨hw, g', hP', hR⟩ := hr
            have hshort : t'.length < n := by
              have hpos := List.length_pos_of_ne_nil hw
              rw [ht, List.length_append] at hlt
              omega
            exact (ih g' b' t' hshort hP').mono fun a w' t'' _ ha => hR a w' t'' ha
        | inr a =>
            exact parses_pure (Q := fun a w' t'' => R g a (w ++ w') t'')
              (by rwa [List.append_nil])
  intro st
  exact hfor _ g b t (by rw [List.length_append, List.length_singleton]; omega) hP st

end Parses

/-! ## Texts that are accepted -/

section Accepts

variable {P : α → List τ → Prop} {Q : β → List τ → Prop}

/-- The scanner reads `s` down to some cells and returns a value, which satisfy `P`, or
stops in an allowed way. -/
def Accepts (Allowed : ε → Prop) (p : Scanner ε σ τ α) (s : List τ)
    (P : α → List τ → Prop) : Prop :=
  ∀ st, Yields Allowed (p s st) fun r => ∃ a s', r.1 = some (a, s') ∧ P a s'

/-- The scanner reads `s` down to `s'` and returns `a`, or stops in an allowed way. -/
def Reads (Allowed : ε → Prop) (p : Scanner ε σ τ α) (s : List τ) (a : α) (s' : List τ) : Prop :=
  Accepts Allowed p s fun a' s'' => a' = a ∧ s'' = s'

/-- A stronger result is a weaker one. -/
theorem Accepts.mono {P' : α → List τ → Prop} (h : Accepts Allowed p s P)
    (hP : ∀ a s', P a s' → P' a s') : Accepts Allowed p s P' := by
  intro st
  refine (h st).mono ?_
  rintro r ⟨a, s', hr, ha⟩
  exact ⟨a, s', hr, hP a s' ha⟩

/-- Two scanners in a row accept what the second accepts after the first. -/
theorem Accepts.bind (h : Accepts Allowed p s P)
    (hf : ∀ a s', P a s' → Accepts Allowed (f a) s' Q) : Accepts Allowed (p >>= f) s Q := by
  intro st
  have hp := h st
  show Yields Allowed (match p s st with
    | .error e => .error e
    | .ok (none, st') => .ok (none, st')
    | .ok (some (a, s'), st') => f a s' st') _
  cases hrun : p s st with
  | error e =>
      rw [hrun] at hp
      exact hp
  | ok r =>
      rw [hrun] at hp
      obtain ⟨r, st'⟩ := r
      obtain ⟨a, s', rfl, ha⟩ := hp
      exact hf a s' ha st'

/-- The second one goes on where the first has read to. -/
theorem Reads.bind (h : Reads Allowed p s a s') (hf : Accepts Allowed (f a) s' Q) :
    Accepts Allowed (p >>= f) s Q := by
  refine Accepts.bind h ?_
  rintro _ _ ⟨rfl, rfl⟩
  exact hf

/-- To return a value reads nothing. -/
theorem accepts_pure (h : P a s) : Accepts (σ := σ) Allowed (pure a) s P :=
  fun _ => ⟨a, s, rfl, h⟩

/-- The value is the one returned. -/
theorem reads_pure : Reads (σ := σ) Allowed (pure a) s a s := accepts_pure ⟨rfl, rfl⟩

/-- To look at the next character leaves it. -/
theorem reads_peek {c : τ} : Reads (σ := σ) Allowed (peek e) (c :: s) c (c :: s) :=
  fun _ => ⟨c, c :: s, rfl, rfl, rfl⟩

/-- To take the next character leaves the rest. -/
theorem reads_next {c : τ} : Reads (σ := σ) Allowed (next e) (c :: s) c s :=
  fun _ => ⟨c, s, rfl, rfl, rfl⟩

/-- To look at all characters leaves them. -/
theorem reads_cells : Reads (σ := σ) Allowed cells s s s := fun _ => ⟨s, s, rfl, rfl, rfl⟩

/-- To advance leaves what follows. -/
theorem reads_advance {w : List τ} : Reads (σ := σ) Allowed (advance w.length) (w ++ s) () s :=
  fun _ => ⟨(), (w ++ s).drop w.length, rfl, rfl, List.drop_left⟩

/-- What acts on the state only leaves the characters. -/
theorem accepts_effect {q : StateT σ (Except ε) α}
    (h : ∀ st, Yields Allowed (q.run st) fun r => P r.1 s) : Accepts Allowed (effect q) s P := by
  intro st
  have hq := h st
  unfold effect
  cases hrun : q.run st with
  | error e =>
      rw [hrun] at hq
      exact hq
  | ok r =>
      rw [hrun] at hq
      exact ⟨r.1, s, rfl, hq⟩

/-- A run is read to the first character that fails the test. -/
theorem reads_skipWhile {test : τ → Bool} {w : List τ} {d : τ}
    (hw : ∀ c ∈ w, test c = true) (hd : test d = false) :
    Reads (σ := σ) Allowed (skipWhile e test) (w ++ d :: s) () (d :: s) := by
  induction w with
  | nil =>
      intro st
      rw [List.nil_append, skipWhile_cons, hd]
      exact ⟨(), d :: s, rfl, rfl, rfl⟩
  | cons c w ih =>
      intro st
      rw [List.cons_append, skipWhile_cons, hw c (by simp)]
      exact ih (fun d hd => hw d (by simp [hd])) st

/-- A loop from `b` reads `s` and leaves as `P` says, however many rounds more than the
cells of `s` it is given. -/
def Loops (Allowed : ε → Prop) (e : ε) (body : β → Scanner ε σ τ (β ⊕ α)) (b : β) (s : List τ)
    (P : α → List τ → Prop) : Prop :=
  ∀ n, s.length ≤ n → Accepts Allowed (loopFor e body n b) s P

/-- The loop accepts what its rounds lead to. -/
theorem Loops.accepts {body : β → Scanner ε σ τ (β ⊕ α)}
    (h : Loops Allowed e body b s P) : Accepts Allowed (loop e body b) s P :=
  fun st => h s.length le_rfl st

/-- A round may end the loop. -/
theorem loops_last {body : β → Scanner ε σ τ (β ⊕ α)} (hs : s ≠ [])
    (h : Accepts Allowed (body b) s fun r s' => ∃ a, r = .inr a ∧ P a s') :
    Loops Allowed e body b s P := by
  intro n hn
  cases n with
  | zero =>
      have hpos := List.length_pos_of_ne_nil hs
      omega
  | succ n =>
      refine h.bind ?_
      rintro _ s' ⟨a, rfl, ha⟩
      exact accepts_pure ha

/-- Or it may go on, with fewer characters left. -/
theorem loops_round {body : β → Scanner ε σ τ (β ⊕ α)} (hs : s ≠ [])
    (h : Accepts Allowed (body b) s fun r s' =>
      s'.length < s.length ∧ ∃ b', r = .inl b' ∧ Loops Allowed e body b' s' P) :
    Loops Allowed e body b s P := by
  intro n hn
  cases n with
  | zero =>
      have hpos := List.length_pos_of_ne_nil hs
      omega
  | succ n =>
      refine h.bind ?_
      rintro _ s' ⟨hlt, b', rfl, hrest⟩
      exact hrest n (by omega)

end Accepts

/-! ## Runs that stop the program -/

section Halts

/-- The scanner does not return from `s`: it stops, in an allowed way. -/
def Halts (Allowed : ε → Prop) (p : Scanner ε σ τ α) (s : List τ) : Prop :=
  ∀ st, Yields Allowed (p s st) fun _ => False

/-- A halt is to be an allowed one. -/
theorem halts_halt (h : Allowed e) : Halts Allowed (halt e : Scanner ε σ τ α) s := fun _ => h

/-- Where the first scanner halts nothing follows. -/
theorem Halts.bind (h : Halts Allowed p s) : Halts Allowed (p >>= f) s := by
  intro st
  have hp := h st
  show Yields Allowed (match p s st with
    | .error e => .error e
    | .ok (none, st') => .ok (none, st')
    | .ok (some (a, s'), st') => f a s' st') _
  cases hrun : p s st with
  | error e =>
      rw [hrun] at hp
      exact hp
  | ok r =>
      rw [hrun] at hp
      exact hp.elim

/-- The second one halts where the first has read to. -/
theorem Reads.halts (h : Reads Allowed p s a s') (hf : Halts Allowed (f a) s') :
    Halts Allowed (p >>= f) s := by
  intro st
  have hp := h st
  show Yields Allowed (match p s st with
    | .error e => .error e
    | .ok (none, st') => .ok (none, st')
    | .ok (some (a, s'), st') => f a s' st') _
  cases hrun : p s st with
  | error e =>
      rw [hrun] at hp
      exact hp
  | ok r =>
      rw [hrun] at hp
      obtain ⟨r, st'⟩ := r
      obtain ⟨_, _, rfl, rfl, rfl⟩ := hp
      exact hf st'

/-- A loop that halts in its first round. -/
theorem loopFor_halts {body : β → Scanner ε σ τ (β ⊕ α)} {n : ℕ} (hn : 0 < n)
    (h : Halts Allowed (body b) s) : Halts Allowed (loopFor e body n b) s := by
  cases n with
  | zero => exact absurd hn (Nat.lt_irrefl 0)
  | succ n => exact h.bind

/-- A loop halts where it halts after a round. -/
theorem loopFor_halts_round {body : β → Scanner ε σ τ (β ⊕ α)} {n : ℕ} {b' : β}
    (h : Reads Allowed (body b) s (.inl b') s') (hrest : Halts Allowed (loopFor e body n b') s') :
    Halts Allowed (loopFor e body (n + 1) b) s :=
  h.halts hrest

end Halts

/-! ## Calls that allocate -/

section Requests

variable {τ α : Type} {Tolerated : Stop → Prop} {q : Requests α} {s t : List τ} {P : α → Prop}

/-- Calls that make requests take no text. -/
theorem parses_requests [Zero τ] {Q : α → List τ → List τ → Prop} (h : Gives Tolerated q P)
    (hQ : ∀ a, P a → Q a [] t) : Parses Tolerated (effect q) t Q :=
  parses_effect fun k => (h k).mono fun r hr => hQ r.1 hr

/-- Calls that make requests leave the characters. -/
theorem accepts_requests {Q : α → List τ → Prop} (h : Gives Tolerated q P)
    (hQ : ∀ a, P a → Q a s) : Accepts Tolerated (effect q) s Q :=
  accepts_effect fun k => (h k).mono fun r hr => hQ r.1 hr

/-- A call that returns `a` and makes no request. -/
theorem parses_call [Zero τ] {r : Except Stop α} {a : α} {Q : α → List τ → List τ → Prop}
    (hr : r = .ok a) (h : Q a [] t) : Parses Tolerated (effect (r : Requests α)) t Q := by
  subst hr
  exact parses_requests (P := fun b => b = a) (gives_lift (r := .ok a) rfl) fun b hb => hb ▸ h

/-- A call whose result is known goes on with it. -/
theorem parses_call_bind [Zero τ] {β : Type} {r : Except Stop α} {a : α}
    {f : α → Scanner Stop ℕ τ β} {S : β → List τ → List τ → Prop} (hr : r = .ok a)
    (h : Parses Tolerated (f a) t S) : Parses Tolerated (effect (r : Requests α) >>= f) t S := by
  subst hr
  exact h

/-- A call whose result is known returns it. -/
theorem accepts_call {r : Except Stop α} {a : α} {Q : α → List τ → Prop} (hr : r = .ok a)
    (h : Q a s) : Accepts Tolerated (effect (r : Requests α)) s Q := by
  subst hr
  exact accepts_requests (P := fun b => b = a) (gives_lift (r := .ok a) rfl) fun b hb => hb ▸ h

/-- And it goes on with it. -/
theorem accepts_call_bind {β : Type} {r : Except Stop α} {a : α} {f : α → Scanner Stop ℕ τ β}
    {Q : β → List τ → Prop} (hr : r = .ok a) (h : Accepts Tolerated (f a) s Q) :
    Accepts Tolerated (effect (r : Requests α) >>= f) s Q := by
  subst hr
  exact h

end Requests

/-! ## What a scanner returns -/

/-- Every value that the scanner returns satisfies `P`. -/
def ReturnsOnly (p : Scanner ε σ τ α) (P : α → Prop) : Prop :=
  ∀ s st a s' st', p s st = .ok (some (a, s'), st') → P a

section ReturnsOnly

variable {P : α → Prop} {I : β → Prop} {st st₁ : σ}

/-- The value returned has the property. -/
theorem returns_pure {a : α} (h : P a) : ReturnsOnly (pure a : Scanner ε σ τ α) P := by
  rintro s st _ s' st' ⟨⟩
  exact h

/-- A scanner that fails returns nothing. -/
theorem returns_fail : ReturnsOnly (fail : Scanner ε σ τ α) P := fun _ _ _ _ _ h => nomatch h

/-- What a sequence returns is what its last scanner does. -/
theorem ReturnsOnly.bind {q : Scanner ε σ τ β} {g : β → Scanner ε σ τ α} (hq : ReturnsOnly q I)
    (hg : ∀ b, I b → ReturnsOnly (g b) P) : ReturnsOnly (q >>= g) P := by
  intro s st a s' st' h
  change (match q s st with
    | .error e => .error e
    | .ok (none, st) => .ok (none, st)
    | .ok (some (b, s), st) => g b s st : Except ε (Option (α × List τ) × σ)) = _ at h
  cases hrun : q s st with
  | error e =>
      rw [hrun] at h
      cases h
  | ok r =>
      rw [hrun] at h
      obtain ⟨_ | ⟨b, s₁⟩, st₁⟩ := r
      · cases h
      · exact hg b (hq s st b s₁ st₁ hrun) s₁ st₁ a s' st' h

/-- What two scanners in a row return the second one returns. -/
theorem returns_bind {q : Scanner ε σ τ β} {g : β → Scanner ε σ τ α}
    (hg : ∀ b, ReturnsOnly (g b) P) : ReturnsOnly (q >>= g) P :=
  ReturnsOnly.bind (I := fun _ => True) (fun _ _ _ _ _ _ => trivial) fun b _ => hg b

/-- A loop returns what its last round returns. -/
theorem returns_loop {e : ε} {body : β → Scanner ε σ τ (β ⊕ α)}
    (hbody : ∀ b, I b → ReturnsOnly (body b) (Sum.elim I P)) {b : β} (hb : I b) :
    ReturnsOnly (loop e body b) P := by
  have hfor : ∀ n b, I b → ReturnsOnly (loopFor e body n b) P := by
    intro n
    induction n with
    | zero => exact fun _ _ _ _ _ _ _ h => nomatch h
    | succ n ih =>
        intro b hb
        refine (hbody b hb).bind ?_
        rintro (b' | a) h
        · exact ih b' h
        · exact returns_pure h
  exact fun s st => hfor s.length b hb s st

/-- `skipWhile` does not fail. -/
theorem skipWhile_ne_none {e : ε} {test : τ → Bool} :
    skipWhile e test s st ≠ .ok (none, st₁) := by
  induction s with
  | nil => exact fun h => nomatch h
  | cons c s ih =>
      rw [skipWhile_cons]
      split
      · exact ih
      · exact fun h => nomatch h

end ReturnsOnly

end Scanner

end Clib
