import AzureMetadata.Analysis.Base64Validation
import Mathlib.Tactic.Ring

/-!
# The size of the accumulator

The bits that `base64_decode_ex` has written stay in its accumulator, and the accumulator
is the number that all the characters so far are the digits of, to the base 64.  As long as
that number is less than `2 ^ 25` the next shift is one of an `int`; the first time it is
not, it has not wrapped yet, so the shift overflows.
-/

set_option autoImplicit false

namespace AzureMetadata.Analysis

open Clib AzureMetadata.Model

/-! ## Numbers to the base 64 -/

/-- The number with these digits. -/
def baseValue (digits : List ℕ) : ℕ := digits.foldl (fun n v => 64 * n + v) 0

/-- One more digit shifts the value by six bits. -/
theorem baseValue_append_singleton (digits : List ℕ) (v : ℕ) :
    baseValue (digits ++ [v]) = 64 * baseValue digits + v := by
  rw [baseValue, List.foldl_append]
  rfl

/-- More digits shift it by six bits each. -/
theorem baseValue_append (digits more : List ℕ) :
    baseValue (digits ++ more) = baseValue digits * 64 ^ more.length + baseValue more := by
  induction more using List.reverseRecOn with
  | nil => simp [baseValue]
  | append_singleton more v ih =>
      rw [← List.append_assoc, baseValue_append_singleton, ih, baseValue_append_singleton,
        List.length_append, List.length_singleton, pow_succ]
      ring

/-- So many digits have a value below that power of 64. -/
theorem baseValue_lt {digits : List ℕ} (hlt : ∀ v ∈ digits, v < 64) :
    baseValue digits < 64 ^ digits.length := by
  induction digits using List.reverseRecOn with
  | nil => simp [baseValue]
  | append_singleton digits v ih =>
      have hlast := hlt v (by simp)
      have hrest := ih fun u hu => hlt u (by simp [hu])
      rw [baseValue_append_singleton, List.length_append, List.length_singleton, pow_succ]
      omega

/-- The value is 0 where every digit is. -/
theorem baseValue_eq_zero {digits : List ℕ} : baseValue digits = 0 ↔ ∀ v ∈ digits, v = 0 := by
  induction digits using List.reverseRecOn with
  | nil => simp [baseValue]
  | append_singleton digits v ih =>
      have hzero : 64 * baseValue digits + v = 0 ↔ baseValue digits = 0 ∧ v = 0 := by omega
      rw [baseValue_append_singleton, hzero, ih, List.forall_mem_append]
      simp

/-- The digits before the last four. -/
def leading (digits : List ℕ) : List ℕ := digits.take (digits.length - 4)

/-- Of the digits before the last four only the last may be other than 0, and it is at
most 1. -/
def Small (digits : List ℕ) : Prop :=
  (∀ v ∈ (leading digits).dropLast, v = 0) ∧ ∀ v ∈ (leading digits).getLast?, v ≤ 1

/-- It is at most 1 where only the last digit is not 0, and that is 1. -/
theorem baseValue_le_one {digits : List ℕ} :
    baseValue digits ≤ 1 ↔ (∀ v ∈ digits.dropLast, v = 0) ∧ ∀ v ∈ digits.getLast?, v ≤ 1 := by
  induction digits using List.reverseRecOn with
  | nil => simp [baseValue]
  | append_singleton digits v ih =>
      have hone : 64 * baseValue digits + v ≤ 1 ↔ baseValue digits = 0 ∧ v ≤ 1 := by omega
      rw [baseValue_append_singleton, hone, baseValue_eq_zero]
      simp

/-- The digits are small where the value has 25 bits. -/
theorem small_iff {digits : List ℕ} (hlt : ∀ v ∈ digits, v < 64) :
    Small digits ↔ baseValue digits < 2 ^ 25 := by
  have hsplit := baseValue_append (leading digits) (digits.drop (digits.length - 4))
  have hlow := baseValue_lt fun v hv => hlt v (List.mem_of_mem_drop (i := digits.length - 4) hv)
  have hone : Small digits ↔ baseValue (leading digits) ≤ 1 := baseValue_le_one.symm
  rw [leading, List.take_append_drop, ← leading] at hsplit
  rw [hone]
  by_cases hfour : 4 ≤ digits.length
  · have hlen : (digits.drop (digits.length - 4)).length = 4 := by
      rw [List.length_drop]
      omega
    rw [hlen] at hsplit hlow
    omega
  · have hnone : digits.length - 4 = 0 := by omega
    have hall := baseValue_lt hlt
    have hpow : 64 ^ digits.length ≤ 64 ^ 4 := Nat.pow_le_pow_right (by omega) (by omega)
    rw [leading, hnone, List.take_zero]
    apply iff_of_true
    · simp [baseValue]
    · omega

/-! ## The variable -/

/-- The shift of line 63 is one of an `int`: the product is representable. -/
def ShiftFits (s : DecodeEx) : Prop :=
  -2 ^ 31 ≤ s.accumulator.toInt * 2 ^ 6 ∧ s.accumulator.toInt * 2 ^ 6 < 2 ^ 31

/-- The values of the characters that are not skipped. -/
def digitsOf (text : List UInt8) : List ℕ :=
  (text.filter fun c => !isSkipped c).map digitValue

/-- A digit is shifted into the accumulator of 32 bits. -/
theorem collect_accumulator (s : DecodeEx) (v : ℕ) :
    (collect s v).accumulator = s.accumulator <<< 6 ||| BitVec.ofNat 32 v := by
  unfold collect
  dsimp only
  split <;> rfl

/-- What is in the accumulator, modulo `2 ^ 32`. -/
theorem accumulator_foldl {digits : List ℕ} (hlt : ∀ v ∈ digits, v < 64) :
    (digits.foldl collect ⟨0, 0, []⟩).accumulator.toNat = baseValue digits % 2 ^ 32 := by
  induction digits using List.reverseRecOn with
  | nil => rfl
  | append_singleton digits v ih =>
      have hlast := hlt v (by simp)
      have hrest := ih fun u hu => hlt u (by simp [hu])
      rw [List.foldl_append, List.foldl_cons, List.foldl_nil, collect_accumulator,
        toNat_shiftLeft_or _ hlast, hrest, baseValue_append_singleton]
      omega

/-- A number below `2 ^ 31` is there as it is, and the shift fits below `2 ^ 25` only. -/
theorem shiftFits_foldl {digits : List ℕ} (hlt : ∀ v ∈ digits, v < 64)
    (hvalue : baseValue digits < 2 ^ 31) :
    ShiftFits (digits.foldl collect ⟨0, 0, []⟩) ↔ baseValue digits < 2 ^ 25 := by
  have hnat := accumulator_foldl hlt
  rw [Nat.mod_eq_of_lt (by omega)] at hnat
  have hint : (digits.foldl collect ⟨0, 0, []⟩).accumulator.toInt = baseValue digits := by
    rw [BitVec.toInt_eq_toNat_of_lt (by omega), hnat]
  unfold ShiftFits
  rw [hint]
  omega

/-! ## The iterations -/

/-- After `before` the shift of the next iteration fits. -/
def FitsAfter (before : List UInt8) : Prop :=
  ∃ s, decodeExLoop ⟨0, 0, []⟩ before = .ok (0, s) ∧ ShiftFits s

/-- In every iteration on a byte that counts, the accumulator is such that its shift fits. -/
def ShiftsFit (counts : UInt8 → Prop) (text : List UInt8) : Prop :=
  ∀ before c after, text = before ++ c :: after → counts c → FitsAfter before

variable {text : List UInt8}

/-- A character that is skipped adds no digit. -/
theorem digitsOf_append_skipped {c : UInt8} (hc : isSkipped c = true) :
    digitsOf (text ++ [c]) = digitsOf text := by
  simp [digitsOf, List.filter_append, hc]

/-- Any other adds its own. -/
theorem digitsOf_append_digit {c : UInt8} (hc : isSkipped c = false) :
    digitsOf (text ++ [c]) = digitsOf text ++ [digitValue c] := by
  simp [digitsOf, List.filter_append, hc]

/-- What is accepted and not skipped is a character of an alphabet. -/
theorem inAlphabets_of_accepted {c : UInt8} (hc : isAccepted c = true)
    (hskip : isSkipped c = false) : inAlphabets c = true := by
  rw [isAccepted, hskip, Bool.or_false] at hc
  exact hc

/-- A digit has six bits. -/
theorem digitValue_lt {c : UInt8} (hc : inAlphabets c = true) : digitValue c < 64 :=
  (writes_digitValue hc).lt

/-- So do all digits of a text. -/
theorem digitsOf_lt (haccepted : ∀ c ∈ text, isAccepted c = true) :
    ∀ v ∈ digitsOf text, v < 64 := by
  intro v hv
  obtain ⟨c, hc, hv⟩ := List.mem_map.mp hv
  obtain ⟨hmem, hskip⟩ := List.mem_filter.mp hc
  rw [← hv]
  exact digitValue_lt (inAlphabets_of_accepted (haccepted c hmem) (by simpa using hskip))

/-- The loop collects the digits of a text that is accepted. -/
theorem decodeExLoop_digitsOf (haccepted : ∀ c ∈ text, isAccepted c = true) (s : DecodeEx) :
    decodeExLoop s text = .ok (0, (digitsOf text).foldl collect s) := by
  induction text generalizing s with
  | nil => rfl
  | cons c text ih =>
      simp only [List.mem_cons, forall_eq_or_imp] at haccepted
      obtain ⟨hc, haccepted⟩ := haccepted
      cases hskip : isSkipped c with
      | true =>
          rw [decodeExLoop, decodeExStep_skipped hskip, digitsOf,
            List.filter_cons_of_neg (by simp [hskip])]
          exact ih haccepted s
      | false =>
          rw [decodeExLoop, decodeExStep_inAlphabets (inAlphabets_of_accepted hc hskip), digitsOf,
            List.filter_cons_of_pos (by simp [hskip])]
          exact ih haccepted _

/-- The next shift fits where the value has 25 bits. -/
theorem fitsAfter_iff (haccepted : ∀ c ∈ text, isAccepted c = true)
    (hvalue : baseValue (digitsOf text) < 2 ^ 31) :
    FitsAfter text ↔ baseValue (digitsOf text) < 2 ^ 25 := by
  rw [← shiftFits_foldl (digitsOf_lt haccepted) hvalue, FitsAfter,
    decodeExLoop_digitsOf haccepted]
  constructor
  · rintro ⟨s, hs, hfits⟩
    cases hs
    exact hfits
  · intro hfits
    exact ⟨_, rfl, hfits⟩

/-- The iterations of a text with one byte more. -/
theorem shiftsFit_append {counts : UInt8 → Prop} (text : List UInt8) (c : UInt8) :
    ShiftsFit counts (text ++ [c]) ↔ ShiftsFit counts text ∧ (counts c → FitsAfter text) := by
  constructor
  · intro h
    constructor
    · intro before d after htext
      apply h before d (after ++ [c])
      rw [htext, List.append_assoc, List.cons_append]
    · exact h text c [] rfl
  · rintro ⟨hbefore, hlast⟩ before d after htext
    cases after using List.reverseRecOn with
    | nil =>
        obtain ⟨hsame, hc⟩ := List.append_inj' htext rfl
        cases hc
        rw [← hsame]
        exact hlast
    | append_singleton after e =>
        rw [← List.cons_append, ← List.append_assoc] at htext
        obtain ⟨hsame, -⟩ := List.append_inj' htext rfl
        exact hbefore before d after hsame

/-- One byte more multiplies the number by 64 at most. -/
theorem baseValue_append_byte (text : List UInt8) {c : UInt8} (hc : isAccepted c = true) :
    baseValue (digitsOf text) ≤ baseValue (digitsOf (text ++ [c])) ∧
      baseValue (digitsOf (text ++ [c])) ≤ 64 * baseValue (digitsOf text) + 63 := by
  cases hskip : isSkipped c with
  | true =>
      rw [digitsOf_append_skipped hskip]
      omega
  | false =>
      have hlt := digitValue_lt (inAlphabets_of_accepted hc hskip)
      rw [digitsOf_append_digit hskip, baseValue_append_singleton]
      omega

/-- The last digit adds less than 64 to the shifted value. -/
theorem baseValue_dropLast {digits : List ℕ} (hlt : ∀ v ∈ digits, v < 64) :
    baseValue digits.dropLast ≤ baseValue digits ∧
      baseValue digits ≤ 64 * baseValue digits.dropLast + 63 := by
  cases digits using List.reverseRecOn with
  | nil => simp [baseValue]
  | append_singleton digits v =>
      have hlast := hlt v (by simp)
      rw [baseValue_append_singleton, List.dropLast_concat]
      omega

/-- All shifts fit where the last one does. -/
theorem shiftsFit_all_iff (haccepted : ∀ c ∈ text, isAccepted c = true) (c : UInt8) :
    ShiftsFit (fun _ => True) (text ++ [c]) ↔ baseValue (digitsOf text) < 2 ^ 25 := by
  induction text using List.reverseRecOn generalizing c with
  | nil =>
      have hnone : ShiftsFit (fun _ => True) [] := by
        intro before d after htext
        simp at htext
      have hzero : baseValue (digitsOf []) = 0 := rfl
      rw [shiftsFit_append, fitsAfter_iff haccepted (by omega)]
      simp [hnone]
  | append_singleton text d ih =>
      have hd := haccepted d (by simp)
      have hbyte := baseValue_append_byte text hd
      rw [shiftsFit_append, ih fun c hc => haccepted c (by simp [hc])]
      constructor
      · rintro ⟨hbefore, hlast⟩
        exact (fitsAfter_iff haccepted (by omega)).mp (hlast trivial)
      · intro hvalue
        have hfits := (fitsAfter_iff haccepted (by omega)).mpr hvalue
        exact ⟨by omega, fun _ => hfits⟩

/-- The shifts that are evaluated. -/
theorem shiftsFit_digits_iff (haccepted : ∀ c ∈ text, isAccepted c = true) :
    ShiftsFit (fun c => isSkipped c = false) text ↔
      baseValue (digitsOf text).dropLast < 2 ^ 25 := by
  induction text using List.reverseRecOn with
  | nil =>
      apply iff_of_true
      · intro before d after htext
        simp at htext
      · simp [digitsOf, baseValue]
  | append_singleton text c ih =>
      have hbefore : ∀ c ∈ text, isAccepted c = true := fun c hc => haccepted c (by simp [hc])
      rw [shiftsFit_append, ih hbefore]
      cases hskip : isSkipped c with
      | true =>
          rw [digitsOf_append_skipped hskip]
          simp
      | false =>
          have hdrop := baseValue_dropLast (digitsOf_lt hbefore)
          rw [digitsOf_append_digit hskip, List.dropLast_concat]
          constructor
          · rintro ⟨hsmall, hlast⟩
            exact (fitsAfter_iff hbefore (by omega)).mp (hlast rfl)
          · intro hvalue
            have hfits := (fitsAfter_iff hbefore (by omega)).mpr hvalue
            exact ⟨by omega, fun _ => hfits⟩

/-- **When the accumulator can be shifted.**  At every iteration its shift is one of an
`int` exactly when the characters before the last are small digits; and the shifts that
are evaluated are, exactly when the digits before the last one are. -/
theorem decodeEx_shifts_fit_iff {text : List UInt8} (hne : text ≠ [])
    (haccepted : ∀ c ∈ text, isAccepted c = true) :
    (ShiftsFit (fun _ => True) text ↔ Small (digitsOf text.dropLast)) ∧
      (ShiftsFit (fun c => isSkipped c = false) text ↔ Small (digitsOf text).dropLast) := by
  have hbefore : ∀ c ∈ text.dropLast, isAccepted c = true :=
    fun c hc => haccepted c (List.mem_of_mem_dropLast hc)
  have hlt := digitsOf_lt haccepted
  constructor
  · rw [small_iff (digitsOf_lt hbefore), ← shiftsFit_all_iff hbefore (text.getLast hne),
      List.dropLast_append_getLast]
  · rw [small_iff fun v hv => hlt v (List.mem_of_mem_dropLast hv), shiftsFit_digits_iff haccepted]

/-- `AAQUJD=`, with two leading digits 0. -/
theorem decodeEx_shifts_fit_iff_abc :
    (ShiftsFit (fun _ => True) [65, 65, 81, 85, 74, 68, 61] ↔
        Small (digitsOf [65, 65, 81, 85, 74, 68])) ∧
      (ShiftsFit (fun c => isSkipped c = false) [65, 65, 81, 85, 74, 68, 61] ↔
        Small (digitsOf [65, 65, 81, 85, 74, 68, 61]).dropLast) :=
  decodeEx_shifts_fit_iff (by decide) (by decide +kernel)

/-- `//////`: the sixth shift is that of `0x3fffffff`. -/
theorem decodeEx_overflows_slashes :
    (∀ c ∈ [47, 47, 47, 47, 47, 47], isAccepted c = true) ∧
      ¬ ShiftsFit (fun c => isSkipped c = false) [47, 47, 47, 47, 47, 47] ∧
      ¬ ShiftsFit (fun _ => True) [47, 47, 47, 47, 47, 47] := by
  have hfits : ¬ FitsAfter [47, 47, 47, 47, 47] := by
    rintro ⟨s, hloop, hfits⟩
    cases hloop
    exact absurd hfits.2 (by decide)
  refine ⟨by decide +kernel, ?_, ?_⟩
  · intro h
    exact hfits (h [47, 47, 47, 47, 47] 47 [] rfl (by decide))
  · intro h
    exact hfits (h [47, 47, 47, 47, 47] 47 [] rfl trivial)

end AzureMetadata.Analysis
