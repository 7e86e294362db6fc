import AzureMetadata.Analysis.Base64RoundTrip

/-!
# How many bytes `base64_decode_ex` writes

The function has no bound for its output.  What keeps its callers safe is that six bits
are collected for every character that counts, and eight are written at a time:
`Counts s k` is the invariant of the loop after `k` such characters.  It does not matter
what is read from the table, so all of this also holds for bytes from 128 on, for which
the read is outside of it; `base64DecodeEx_reading` says that the other calls are the ones
of `base64DecodeEx`.
-/

set_option autoImplicit false

namespace AzureMetadata.Analysis

open Clib AzureMetadata.Model

variable {outside : ℤ → ℤ} {s s' : DecodeEx} {k : ℕ} {text : List UInt8}

/-! ## The invariant -/

/-- The loop variables after `k` characters have entered the accumulator. -/
structure Counts (s : DecodeEx) (k : ℕ) : Prop where
  bits : s.bits_collected = 6 * k % 8
  bytes : s.written.length = 6 * k / 8

/-- The characters of a text that are not skipped. -/
def accumulated (text : List UInt8) : ℕ := text.countP fun c => !isSkipped c

/-- One character more: a byte is written when there are eight bits. -/
theorem Counts.collect (h : Counts s k) (v : ℕ) : Counts (collect s v) (k + 1) := by
  obtain ⟨hbits, hbytes⟩ := h
  unfold Model.collect
  dsimp only
  split
  · constructor
    · dsimp only
      omega
    · rw [List.length_append, List.length_singleton]
      omega
  · constructor
    · dsimp only
      omega
    · dsimp only
      omega

/-- A step counts the digit of its character, if it has one. -/
theorem Counts.step (h : Counts s k) {c : UInt8}
    (hstep : decodeExStepReading outside s c = some s') : Counts s' (k + accumulated [c]) := by
  unfold decodeExStepReading at hstep
  split at hstep
  · next hskip =>
    have hnone : accumulated [c] = 0 := by simp [accumulated, hskip]
    cases hstep
    rw [hnone]
    exact h
  · next hskip =>
    have hone : accumulated [c] = 1 := by simp [accumulated, hskip]
    dsimp only at hstep
    split at hstep
    · cases hstep
    · cases hstep
      rw [hone]
      exact h.collect _

/-- The digits of a text are those of its characters. -/
theorem accumulated_cons (c : UInt8) (text : List UInt8) :
    accumulated (c :: text) = accumulated [c] + accumulated text := by
  have happend : c :: text = [c] ++ text := rfl
  unfold accumulated
  rw [happend, List.countP_append]

/-- The iterations on a text in which nothing is rejected. -/
theorem Counts.loop (h : Counts s k) (hloop : decodeExLoopReading outside s text = (0, s')) :
    Counts s' (k + accumulated text) := by
  induction text generalizing s k with
  | nil =>
      cases hloop
      exact h
  | cons c text ih =>
      rw [decodeExLoopReading] at hloop
      cases hstep : decodeExStepReading outside s c with
      | none =>
          rw [hstep] at hloop
          cases hloop
      | some s₁ =>
          rw [hstep] at hloop
          rw [accumulated_cons, ← Nat.add_assoc]
          exact ih (h.step hstep) hloop

/-- Six bits a character are three bytes for four of them. -/
theorem Counts.length_le (h : Counts s k) {n : ℕ} (hk : k ≤ n) :
    s.written.length ≤ 3 * n / 4 := by
  have hbytes := h.bytes
  omega

/-- A step that reads inside the table is the same whatever lies outside. -/
theorem decodeExStepReading_eq (outside : ℤ → ℤ) {c : UInt8} {o : Option DecodeEx}
    (hstep : decodeExStep s c = .ok o) : decodeExStepReading outside s c = o := by
  unfold decodeExStep at hstep
  unfold decodeExStepReading reverseTableRead
  split
  · next hskip =>
    rw [if_pos hskip] at hstep
    cases hstep
    rfl
  · next hskip =>
    rw [if_neg hskip] at hstep
    dsimp only at hstep ⊢
    split at hstep
    · next hindex =>
      rw [if_pos hindex]
      cases hentry : base64ReverseTable[c.toInt8.toInt.toNat]? with
      | none =>
          rw [hentry] at hstep
          cases hstep
      | some v =>
          rw [hentry] at hstep
          dsimp only at hstep ⊢
          by_cases hbig : v > 63
          · rw [if_pos hbig] at hstep
            cases hstep
            exact if_pos (by omega)
          · rw [if_neg hbig] at hstep
            cases hstep
            have hvalue : ((v : ℤ) % 2 ^ 32).toNat = v := by omega
            rw [hvalue]
            exact if_neg (by omega)
    · cases hstep

/-- So is a loop. -/
theorem decodeExLoopReading_eq (outside : ℤ → ℤ) {r : ℤ × DecodeEx}
    (hloop : decodeExLoop s text = .ok r) : decodeExLoopReading outside s text = r := by
  induction text generalizing s with
  | nil =>
      cases hloop
      rfl
  | cons c text ih =>
      cases hstep : decodeExStep s c with
      | error e =>
          rw [decodeExLoop, hstep] at hloop
          cases hloop
      | ok o =>
          rw [decodeExLoop, hstep, ok_bind] at hloop
          rw [decodeExLoopReading, decodeExStepReading_eq outside hstep]
          cases o with
          | none =>
              cases hloop
              rfl
          | some s₁ => exact ih hloop

/-- What comes after a loop that stays in the table comes after the other loop too. -/
theorem bind_decodeExLoop (outside : ℤ → ℤ) {finish : ℤ × DecodeEx → Except Fault DecodeExResult}
    {r : DecodeExResult} (hcall : decodeExLoop s text >>= finish = .ok r) :
    finish (decodeExLoopReading outside s text) = .ok r := by
  cases hloop : decodeExLoop s text with
  | error e =>
      rw [hloop] at hcall
      cases hcall
  | ok p =>
      rw [hloop] at hcall
      rw [decodeExLoopReading_eq outside hloop]
      exact hcall

/-- **A call that stays in the table** does not depend on what is outside of it. -/
theorem base64DecodeEx_reading (outside : ℤ → ℤ) {src : List UInt8} {src_len dst_len : ℕ}
    {r : DecodeExResult} (hcall : base64DecodeEx src src_len dst_len = .ok r) :
    base64DecodeExReading outside src src_len dst_len = .ok r := by
  unfold base64DecodeEx at hcall
  unfold base64DecodeExReading
  by_cases hzero : src_len = 0
  · simp only [hzero, if_true] at hcall ⊢
    cases hstring : cString src with
    | none =>
        rw [hstring] at hcall
        cases hcall
    | some text =>
        simp only [hstring, pure_bind] at hcall ⊢
        exact bind_decodeExLoop outside hcall
  · simp only [hzero, if_false, pure_bind] at hcall ⊢
    exact bind_decodeExLoop outside hcall

end AzureMetadata.Analysis
