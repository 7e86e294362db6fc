import AzureMetadata.Clib.Heap

/-!
# How a call can end

A call that does not return stops the program: at undefined behaviour, at an assertion,
by `exit`, or because the stack has no room for one more frame.  `Yields Allowed r P`
says of a result that it is a value satisfying `P` or a stop that is allowed; a call of
a program that allocates is a function of the number of requests made so far, and
`Gives` is the same for all such numbers.
-/

set_option autoImplicit false

namespace Clib

/-- Why a call does not return.  `loopLimit` is no behaviour of C: it is the bound that
the model puts on a loop, to be shown out of reach. -/
inductive Stop
  | fault (f : Fault)
  | assertion
  | exit
  | stackOverflow
  | loopLimit
deriving DecidableEq, Repr

/-- A call that does not stop goes on with its result. -/
@[simp] theorem stop_ok_bind {β γ : Type} (b : β) (f : β → Except Stop γ) :
    (Except.ok b >>= f) = f b := rfl

/-- To return a value does not stop. -/
@[simp] theorem stop_pure_eq_ok {β : Type} (b : β) : (pure b : Except Stop β) = .ok b := rfl

section Yields

variable {ε β γ : Type} {Allowed Allowed' : ε → Prop} {r : Except ε β} {P Q : β → Prop}

/-- The result is a value that satisfies `P`, or a stop that is allowed. -/
def Yields (Allowed : ε → Prop) (r : Except ε β) (P : β → Prop) : Prop :=
  match r with
  | .ok b => P b
  | .error e => Allowed e

/-- A result has to have the property. -/
@[simp] theorem yields_ok {b : β} : Yields Allowed (.ok b) P ↔ P b := Iff.rfl

/-- A stop has to be an allowed one. -/
@[simp] theorem yields_error {e : ε} : Yields Allowed (.error e : Except ε β) P ↔ Allowed e :=
  Iff.rfl

/-- A result with a stronger property has the weaker one. -/
theorem Yields.mono (h : Yields Allowed r P) (hP : ∀ b, P b → Q b) : Yields Allowed r Q := by
  cases r with
  | ok b => exact hP b h
  | error e => exact h

/-- A stop of fewer kinds is one of more kinds. -/
theorem Yields.allow (h : Yields Allowed r P) (hA : ∀ e, Allowed e → Allowed' e) :
    Yields Allowed' r P := by
  cases r with
  | ok b => exact h
  | error e => exact hA e h

/-- What is known of one result in two ways. -/
theorem Yields.and (h : Yields Allowed r P) (h' : Yields Allowed' r Q) :
    Yields (fun e => Allowed e ∧ Allowed' e) r fun b => P b ∧ Q b := by
  cases r with
  | ok b => exact ⟨h, h'⟩
  | error e => exact ⟨h, h'⟩

/-- Two calls in a row yield what the second yields of every result of the first. -/
theorem Yields.bind {f : β → Except ε γ} {R : γ → Prop} (h : Yields Allowed r P)
    (hf : ∀ b, P b → Yields Allowed (f b) R) : Yields Allowed (r >>= f) R := by
  cases r with
  | ok b => exact hf b h
  | error e => exact h

/-- What is returned, if anything is. -/
theorem Yields.of_ok {b : β} (h : Yields Allowed r P) (hr : r = .ok b) : P b := by
  subst hr
  exact h

/-- A call that must not stop returns. -/
theorem Yields.returns (h : Yields Allowed r P) (hno : ∀ e, ¬ Allowed e) :
    ∃ b, r = .ok b ∧ P b := by
  cases r with
  | ok b => exact ⟨b, rfl, h⟩
  | error e => exact absurd h (hno e)

/-- Equal outcomes yield the same. -/
theorem Yields.of_eq {r' : Except ε β} (hr : r = r') (h : Yields Allowed r' P) :
    Yields Allowed r P := by
  rw [hr]
  exact h

/-- An outcome that is a stop is an allowed one. -/
theorem Yields.of_error {e : ε} (h : Yields Allowed r P) (hr : r = .error e) : Allowed e := by
  subst hr
  exact h

end Yields

/-! ## Calls that allocate -/

/-- A call that makes requests to an allocator; its state is their number so far. -/
abbrev Requests (α : Type) := StateT ℕ (Except Stop) α

section Gives

variable {α β : Type} {Allowed : Stop → Prop} {p : Requests α} {P Q : α → Prop}

/-- Whatever was requested before, the call returns a value that satisfies `P` or stops
in an allowed way. -/
def Gives (Allowed : Stop → Prop) (p : Requests α) (P : α → Prop) : Prop :=
  ∀ k, Yields Allowed (p.run k) fun r => P r.1

/-- The same for a call that makes requests. -/
theorem Gives.mono (h : Gives Allowed p P) (hP : ∀ a, P a → Q a) : Gives Allowed p Q :=
  fun k => (h k).mono fun r => hP r.1

/-- Fewer kinds of stops are more kinds. -/
theorem Gives.allow {Allowed' : Stop → Prop} (h : Gives Allowed p P)
    (hA : ∀ e, Allowed e → Allowed' e) : Gives Allowed' p P :=
  fun k => (h k).allow hA

/-- To return a value makes no request. -/
theorem gives_pure {a : α} (h : P a) : Gives Allowed (pure a) P := fun _ => h

/-- A stop that is allowed may be thrown. -/
theorem gives_throw {e : Stop} (h : Allowed e) : Gives Allowed (throw e : Requests α) P :=
  fun _ => h

/-- Two calls in a row give what the second gives of every result of the first. -/
theorem Gives.bind {f : α → Requests β} {R : β → Prop} (h : Gives Allowed p P)
    (hf : ∀ a, P a → Gives Allowed (f a) R) : Gives Allowed (p >>= f) R := by
  intro k
  rw [StateT.run_bind]
  exact (h k).bind fun r hr => hf r.1 hr r.2

/-- A call that makes no request. -/
theorem gives_lift {r : Except Stop α} (h : Yields Allowed r P) :
    Gives Allowed (r : Requests α) P := by
  intro k
  cases r with
  | ok a => exact h
  | error e => exact h

/-- A call that makes no request and returns `a`. -/
theorem gives_call_bind {r : Except Stop α} {a : α} {f : α → Requests β} {R : β → Prop}
    (hr : r = .ok a) (h : Gives Allowed (f a) R) : Gives Allowed ((r : Requests α) >>= f) R := by
  subst hr
  exact h

end Gives

/-! ## Reading an array -/

/-- The cell at an index of an array that is read from a pointer on. -/
def cellAt {α : Type} (cells : List α) (i : ℕ) : Except Stop α :=
  match cells[i]? with
  | some c => .ok c
  | none => .error (.fault .outOfBounds)

/-- The first character of a string is read at index 0. -/
@[simp] theorem cellAt_cons_zero {α : Type} (c : α) (s : List α) : cellAt (c :: s) 0 = .ok c :=
  rfl

/-- The next index reads in what follows it. -/
@[simp] theorem cellAt_cons_succ {α : Type} (c : α) (s : List α) (i : ℕ) :
    cellAt (c :: s) (i + 1) = cellAt s i := rfl

/-- A string in a block is shorter than the block. -/
theorem length_lt_of_cString {block s : List UInt8} {m : ℕ} (hlen : block.length ≤ m)
    (h : cString block = some s) : s.length < m := by
  obtain ⟨-, rest, rfl⟩ := cString_eq_some_iff.mp h
  rw [List.length_append, List.length_cons] at hlen
  omega

/-- The string an object begins with. -/
def CBytes.string (b : CBytes) : Option CString :=
  match h : cString b.bytes with
  | none => none
  | some s => some ⟨s, (cString_eq_some_iff.mp h).1, length_lt_of_cString b.length_le h⟩

/-- The string in a block of bytes is a C string. -/
theorem CBytes.string_eq {b : CBytes} {s : List UInt8} (h : cString b.bytes = some s) :
    ∃ str : CString, b.string = some str ∧ str.bytes = s := by
  unfold CBytes.string
  split
  · next hno => rw [h] at hno; cases hno
  · next s' hs =>
      rw [h] at hs
      cases hs
      exact ⟨_, rfl, rfl⟩

/-- The code of an ASCII character. -/
def chr (c : Char) : UInt8 := UInt8.ofNat c.toNat

end Clib
