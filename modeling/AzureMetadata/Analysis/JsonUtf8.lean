import AzureMetadata.Clib.Utf8
import AzureMetadata.Model.JsonUnicode

/-!
# UTF-8 as `src/json.c` reads and writes it

Each function is compared with `Utf8Form` by cases on the form: `utf8_validate_cz` accepts
the well-formed encodings and nothing else, and on these `utf8_read_char` and
`utf8_write_char` are the two directions between bytes and value.
-/

set_option autoImplicit false

namespace AzureMetadata.Analysis

open Clib AzureMetadata.Model

variable {n : ℕ} {s t w r : List UInt8} {c : Char}

/-- The function on the numbers of the bytes. -/
theorem utf8ValidateCz_cons (a : UInt8) (s : List UInt8) :
    utf8ValidateCz (a :: s) =
      if a.toNat ≤ 0x7F then .ok 1
      else if a.toNat ≤ 0xC1 then .ok 0
      else if a.toNat ≤ 0xDF then do
        let b ← cellAt s 0
        if ¬ Tail b then .ok 0 else .ok 2
      else if a.toNat ≤ 0xEF then do
        let b ← cellAt s 0
        if a.toNat = 0xE0 ∧ b.toNat < 0xA0 then .ok 0
        else if a.toNat = 0xED ∧ 0x9F < b.toNat then .ok 0
        else if ¬ Tail b then .ok 0
        else do
          let c ← cellAt s 1
          if ¬ Tail c then .ok 0 else .ok 3
      else if a.toNat ≤ 0xF4 then do
        let b ← cellAt s 0
        if a.toNat = 0xF0 ∧ b.toNat < 0x90 then .ok 0
        else if a.toNat = 0xF4 ∧ 0x8F < b.toNat then .ok 0
        else if ¬ Tail b then .ok 0
        else do
          let c ← cellAt s 1
          if ¬ Tail c then .ok 0
          else do
            let d ← cellAt s 2
            if ¬ Tail d then .ok 0 else .ok 4
      else .ok 0 := by
  simp only [utf8ValidateCz, cellAt_cons_zero, cellAt_cons_succ, stop_ok_bind, and_mask_eq_iff,
    ne_eq, gt_iff_lt, stop_pure_eq_ok]
  simp only [UInt8.le_iff_toNat_le, UInt8.lt_iff_toNat_lt, ← UInt8.toNat_inj, UInt8.toNat_ofNat,
    Nat.reducePow, Nat.reduceMod]

/-- A well-formed encoding is accepted, whatever follows it. -/
theorem utf8ValidateCz_form (h : Utf8Form n w) (r : List UInt8) :
    utf8ValidateCz (w ++ r) = .ok w.length := by
  cases h with
  | one ha hn => rw [List.cons_append, utf8ValidateCz_cons, if_pos ha]; rfl
  | two ha ha' hb hn =>
      rw [List.cons_append, utf8ValidateCz_cons, if_neg (by omega), if_neg (by omega), if_pos ha',
        List.cons_append, cellAt_cons_zero, stop_ok_bind, if_neg (not_not.mpr hb)]
      rfl
  | three ha ha' hb hc hlong hsurr hn =>
      rw [List.cons_append, utf8ValidateCz_cons, if_neg (by omega), if_neg (by omega),
        if_neg (by omega), if_pos ha', List.cons_append, List.cons_append, cellAt_cons_zero,
        stop_ok_bind, if_neg (by omega), if_neg (by omega), if_neg (not_not.mpr hb),
        cellAt_cons_succ, cellAt_cons_zero, stop_ok_bind, if_neg (not_not.mpr hc)]
      rfl
  | four ha ha' hb hc hd hlong hmax hn =>
      rw [List.cons_append, utf8ValidateCz_cons, if_neg (by omega), if_neg (by omega),
        if_neg (by omega), if_neg (by omega), if_pos ha', List.cons_append, List.cons_append,
        List.cons_append, cellAt_cons_zero, stop_ok_bind, if_neg (by omega), if_neg (by omega),
        if_neg (not_not.mpr hb), cellAt_cons_succ, cellAt_cons_zero, stop_ok_bind,
        if_neg (not_not.mpr hc), cellAt_cons_succ, cellAt_cons_succ, cellAt_cons_zero,
        stop_ok_bind, if_neg (not_not.mpr hd)]
      rfl

/-- The next cell of a text, which is a continuation byte only if the text goes on. -/
theorem cellAt_text (t : List UInt8) :
    ∃ b, cellAt (t ++ [0]) 0 = .ok b ∧ (Tail b → ∃ t', t = b :: t') := by
  cases t with
  | nil => exact ⟨0, rfl, fun h => absurd h (by decide)⟩
  | cons b t => exact ⟨b, rfl, fun _ => ⟨t, rfl⟩⟩

/-- What is accepted of a text is a well-formed encoding; the function never reads behind
the terminator. -/
theorem utf8ValidateCz_text (ht : t ≠ []) : utf8ValidateCz (t ++ [0]) = .ok 0 ∨
    ∃ n w r, t = w ++ r ∧ Utf8Form n w ∧ utf8ValidateCz (t ++ [0]) = .ok w.length := by
  obtain ⟨a, t, rfl⟩ := List.exists_cons_of_ne_nil ht
  obtain ⟨b, hb, htb⟩ := cellAt_text t
  have haccept : ∀ n w r, a :: t = w ++ r → Utf8Form n w →
      utf8ValidateCz (a :: t ++ [0]) = .ok w.length := by
    intro n w r he hform
    rw [he, List.append_assoc]
    exact utf8ValidateCz_form hform _
  have hform : ∀ n w r, a :: t = w ++ r → Utf8Form n w →
      utf8ValidateCz (a :: t ++ [0]) = .ok 0 ∨ ∃ n w r, a :: t = w ++ r ∧ Utf8Form n w ∧
        utf8ValidateCz (a :: t ++ [0]) = .ok w.length :=
    fun n w r he hform => Or.inr ⟨n, w, r, he, hform, haccept n w r he hform⟩
  by_cases h1 : a.toNat ≤ 0x7F
  · exact hform _ [a] t rfl (.one h1 rfl)
  by_cases hlow : a.toNat ≤ 0xC1
  · left
    rw [List.cons_append, utf8ValidateCz_cons, if_neg h1, if_pos hlow]
  by_cases hT : Tail b
  swap
  · left
    rw [List.cons_append, utf8ValidateCz_cons]
    simp [hb, hT, h1]
  obtain ⟨t, rfl⟩ := htb hT
  obtain ⟨c, hc, htc⟩ := cellAt_text t
  by_cases h2 : a.toNat ≤ 0xDF
  · exact hform _ [a, b] t rfl (.two (by omega) h2 hT rfl)
  by_cases h3 : a.toNat ≤ 0xEF
  · by_cases hbad : (a.toNat = 0xE0 ∧ b.toNat < 0xA0) ∨ (a.toNat = 0xED ∧ 0x9F < b.toNat) ∨ ¬ Tail c
    · left
      rw [List.cons_append, utf8ValidateCz_cons, if_neg h1, if_neg hlow, if_neg h2, if_pos h3,
        List.cons_append, cellAt_cons_zero, stop_ok_bind, cellAt_cons_succ, hc, stop_ok_bind]
      simp only [not_not.mpr hT, if_false]
      rcases hbad with hlong | hsurr | hno
      · rw [if_pos hlong]
      · rw [if_neg (by omega), if_pos hsurr]
      · simp [hno]
    · simp only [not_or, not_not] at hbad
      obtain ⟨hlong, hsurr, htail⟩ := hbad
      obtain ⟨t, rfl⟩ := htc htail
      exact hform _ [a, b, c] t rfl
        (.three (by omega) h3 hT htail (by omega) (by omega) rfl)
  by_cases h4 : a.toNat ≤ 0xF4
  swap
  · left
    rw [List.cons_append, utf8ValidateCz_cons, if_neg h1, if_neg hlow, if_neg h2, if_neg h3,
      if_neg h4]
  by_cases hTc : Tail c
  swap
  · left
    rw [List.cons_append, utf8ValidateCz_cons, if_neg h1, if_neg hlow, if_neg h2, if_neg h3,
      if_pos h4, List.cons_append, cellAt_cons_zero, stop_ok_bind, cellAt_cons_succ, hc,
      stop_ok_bind]
    simp [hTc]
  obtain ⟨t, rfl⟩ := htc hTc
  obtain ⟨d, hd, htd⟩ := cellAt_text t
  by_cases hbad : (a.toNat = 0xF0 ∧ b.toNat < 0x90) ∨ (a.toNat = 0xF4 ∧ 0x8F < b.toNat) ∨ ¬ Tail d
  · left
    rw [List.cons_append, utf8ValidateCz_cons, if_neg h1, if_neg hlow, if_neg h2, if_neg h3,
      if_pos h4, List.cons_append, List.cons_append, cellAt_cons_zero, stop_ok_bind,
      cellAt_cons_succ, cellAt_cons_zero, stop_ok_bind, cellAt_cons_succ, cellAt_cons_succ, hd,
      stop_ok_bind, if_neg (not_not.mpr hTc), if_neg (not_not.mpr hT)]
    rcases hbad with hlong | hmax | hno
    · rw [if_pos hlong]
    · rw [if_neg (by omega), if_pos hmax]
    · simp [hno]
  · simp only [not_or, not_not] at hbad
    obtain ⟨hlong, hmax, htail⟩ := hbad
    obtain ⟨t, rfl⟩ := htd htail
    exact hform _ [a, b, c, d] t rfl
      (.four (by omega) h4 hT hTc htail (by omega) (by omega) rfl)

/-- The encoding a text begins with is the only one. -/
theorem form_of_utf8_cons {cs : List Char} (hform : Utf8Form n w)
    (he : w ++ r = String.utf8EncodeChar c ++ utf8 cs) : r = utf8 cs := by
  have h := utf8ValidateCz_form hform r
  rw [he, utf8ValidateCz_form (utf8Form_encode c) (utf8 cs)] at h
  exact (List.append_inj he (Except.ok.inj h).symm).2

/-- The loop accepts the texts of characters. -/
theorem utf8ValidateLoop_text (m : ℕ) (ht : 0 ∉ t) (hm : t.length < m) :
    ∃ valid, utf8ValidateLoop m (t ++ [0]) = .ok valid ∧
      (valid = true ↔ ∃ cs, t = utf8 cs) := by
  induction m generalizing t with
  | zero => exact absurd hm (Nat.not_lt_zero _)
  | succ m ih =>
      cases t with
      | nil => exact ⟨true, rfl, fun _ => ⟨[], rfl⟩, fun _ => rfl⟩
      | cons a t =>
          have ha : ¬ a = 0 := fun h => ht (by simp [h])
          rw [utf8ValidateLoop, List.cons_append, cellAt_cons_zero, stop_ok_bind, if_neg ha,
            ← List.cons_append]
          cases utf8ValidateCz_text (List.cons_ne_nil a t) with
          | inl h0 =>
              refine ⟨false, by rw [h0]; rfl, Bool.false_ne_true.elim, ?_⟩
              rintro ⟨cs, hcs⟩
              cases cs with
              | nil => cases hcs
              | cons c cs =>
                  have hform := utf8Form_encode c
                  have hlen := utf8ValidateCz_form hform (utf8 cs ++ [0])
                  rw [← List.append_assoc, ← utf8_cons, ← hcs, h0] at hlen
                  have hpos := hform.length_pos
                  have hzero := Except.ok.inj hlen
                  omega
          | inr hsome =>
              obtain ⟨n, w, r, he, hform, hlen⟩ := hsome
              have hpos := hform.length_pos
              have hsize := congrArg List.length he
              simp only [List.length_append, List.length_cons] at hsize hm
              have hr : 0 ∉ r := fun h => ht (by rw [he]; simp [h])
              obtain ⟨valid, hrun, hiff⟩ := ih hr (by omega)
              refine ⟨valid, ?_, hiff.trans ⟨?_, ?_⟩⟩
              · rw [hlen, stop_ok_bind, if_neg (by omega), he, List.append_assoc, List.drop_left]
                exact hrun
              · rintro ⟨cs, rfl⟩
                obtain ⟨c, -, rfl⟩ := hform.exists_char
                exact ⟨c :: cs, he⟩
              · rintro ⟨cs, hcs⟩
                cases cs with
                | nil => cases hcs
                | cons c cs => exact ⟨cs, form_of_utf8_cons hform (he.symm.trans hcs)⟩

/-- **`utf8_validate` accepts exactly the encodings of texts**, and never reads behind the
terminator. -/
theorem utf8Validate_iff (str : CString) : ∃ valid,
    utf8Validate (str.bytes ++ [0]) = .ok valid ∧ (valid = true ↔ ∃ cs, str.bytes = utf8 cs) :=
  utf8ValidateLoop_text _ str.noNul (by rw [List.length_append, List.length_singleton]; omega)

/-! ## Reading a character -/

/-- Two bytes are shifted together without loss. -/
theorem toNat_two {a b : UInt8} (ha : 0xC2 ≤ a.toNat) (ha' : a.toNat ≤ 0xDF) (hb : Tail b) :
    (((a.toUInt32 &&& 0x1F) <<< 6) ||| (b.toUInt32 &&& 0x3F)).toNat =
      (a.toNat - 0xC0) * 64 + (b.toNat - 0x80) := by
  unfold Tail at hb
  simp only [UInt32.toNat_or, UInt32.toNat_and, UInt32.toNat_shiftLeft, UInt8.toNat_toUInt32,
    Nat.shiftLeft_eq, UInt32.toNat_ofNat, Nat.reducePow, Nat.reduceMod, and_31, and_63]
  rw [or_eq_add 6 (by omega) (by omega)]
  omega

/-- So are three. -/
theorem toNat_three {a b c : UInt8} (ha : 0xE0 ≤ a.toNat) (ha' : a.toNat ≤ 0xEF) (hb : Tail b)
    (hc : Tail c) :
    (((a.toUInt32 &&& 0xF) <<< 12) ||| ((b.toUInt32 &&& 0x3F) <<< 6) |||
      (c.toUInt32 &&& 0x3F)).toNat =
      (a.toNat - 0xE0) * 4096 + (b.toNat - 0x80) * 64 + (c.toNat - 0x80) := by
  unfold Tail at hb hc
  simp only [UInt32.toNat_or, UInt32.toNat_and, UInt32.toNat_shiftLeft, UInt8.toNat_toUInt32,
    Nat.shiftLeft_eq, UInt32.toNat_ofNat, Nat.reducePow, Nat.reduceMod, and_15, and_63]
  have hupper := or_eq_add 12 (x := a.toNat % 16 * 4096 % 4294967296)
    (y := b.toNat % 64 * 64 % 4294967296) (by omega) (by omega)
  rw [hupper, or_eq_add 6 (by omega) (by omega)]
  omega

/-- So are four. -/
theorem toNat_four {a b c d : UInt8} (ha : 0xF0 ≤ a.toNat) (ha' : a.toNat ≤ 0xF4) (hb : Tail b)
    (hc : Tail c) (hd : Tail d) :
    (((a.toUInt32 &&& 0x7) <<< 18) ||| ((b.toUInt32 &&& 0x3F) <<< 12) |||
      ((c.toUInt32 &&& 0x3F) <<< 6) ||| (d.toUInt32 &&& 0x3F)).toNat =
      (a.toNat - 0xF0) * 262144 + (b.toNat - 0x80) * 4096 + (c.toNat - 0x80) * 64 +
        (d.toNat - 0x80) := by
  unfold Tail at hb hc hd
  simp only [UInt32.toNat_or, UInt32.toNat_and, UInt32.toNat_shiftLeft, UInt8.toNat_toUInt32,
    Nat.shiftLeft_eq, UInt32.toNat_ofNat, Nat.reducePow, Nat.reduceMod, and_7, and_63]
  have hupper := or_eq_add 18 (x := a.toNat % 8 * 262144 % 4294967296)
    (y := b.toNat % 64 * 4096 % 4294967296) (by omega) (by omega)
  have hmiddle := or_eq_add 12
    (x := a.toNat % 8 * 262144 % 4294967296 + b.toNat % 64 * 4096 % 4294967296)
    (y := c.toNat % 64 * 64 % 4294967296) (by omega) (by omega)
  rw [hupper, hmiddle, or_eq_add 6 (by omega) (by omega)]
  omega

/-- The value of a well-formed encoding is read back, whatever follows it. -/
theorem utf8ReadChar_form (h : Utf8Form n w) (r : List UInt8) :
    ∃ u : UInt32, utf8ReadChar (w ++ r) = .ok (w.length, u) ∧ u.toNat = n := by
  have hvalid := utf8ValidateCz_form h r
  have hne : ¬ w.length = 0 := by
    have hpos := h.length_pos
    omega
  rw [utf8ReadChar, hvalid, stop_ok_bind, if_neg hne]
  simp only [UInt8.le_iff_toNat_le, UInt8.toNat_ofNat, Nat.reducePow, Nat.reduceMod]
  cases h with
  | @one a ha hn =>
      refine ⟨a.toUInt32, ?_, by rw [UInt8.toNat_toUInt32, hn]⟩
      rw [List.cons_append, cellAt_cons_zero, stop_ok_bind, if_pos ha]
      rfl
  | two ha ha' hb hn =>
      refine ⟨_, ?_, (toNat_two ha ha' hb).trans hn.symm⟩
      rw [List.cons_append, cellAt_cons_zero, stop_ok_bind, if_neg (by omega), if_pos ha']
      rfl
  | three ha ha' hb hc hlong hsurr hn =>
      refine ⟨_, ?_, (toNat_three ha ha' hb hc).trans hn.symm⟩
      rw [List.cons_append, cellAt_cons_zero, stop_ok_bind, if_neg (by omega), if_neg (by omega),
        if_pos ha']
      rfl
  | four ha ha' hb hc hd hlong hmax hn =>
      refine ⟨_, ?_, (toNat_four ha ha' hb hc hd).trans hn.symm⟩
      rw [List.cons_append, cellAt_cons_zero, stop_ok_bind, if_neg (by omega), if_neg (by omega),
        if_neg (by omega)]
      rfl

/-! ## Writing a character -/

/-- A value is cut to the byte of that number. -/
theorem toUInt8_eq {x : UInt32} {k : ℕ} (h : x.toNat = k) : x.toUInt8 = UInt8.ofNat k := by
  apply UInt8.toNat_inj.mp
  rw [UInt32.toNat_toUInt8, UInt8.toNat_ofNat', h]

/-- A continuation has six bits of the value. -/
theorem toNat_tail (x : UInt32) :
    ((0x80 : UInt32) ||| (x &&& 0x3F)).toNat = x.toNat % 64 + 0x80 := by
  simp only [UInt32.toNat_or, UInt32.toNat_and, UInt32.toNat_ofNat, Nat.reducePow, Nat.reduceMod,
    and_63]
  rw [or_eq_add 6 (by omega) (by omega), Nat.add_comm]

/-- A lead byte has its mark and the bits that are left. -/
theorem toNat_lead (mark x : UInt32) (k : ℕ) (hmark : mark.toNat % 2 ^ k = 0)
    (hx : x.toNat < 2 ^ k) : (mark ||| x).toNat = x.toNat % 2 ^ k + mark.toNat := by
  rw [UInt32.toNat_or, or_eq_add k hmark hx, Nat.mod_eq_of_lt hx, Nat.add_comm]

/-- A shift to the right divides. -/
theorem toNat_shiftRight (x : UInt32) {k : UInt32} (hk : k.toNat < 32) :
    (x >>> k).toNat = x.toNat / 2 ^ k.toNat := by
  rw [UInt32.toNat_shiftRight, Nat.mod_eq_of_lt hk, Nat.shiftRight_eq_div_pow]

/-- A scalar value is written as its encoding. -/
theorem utf8WriteChar_char {c : Char} {u : UInt32} (hu : u.toNat = c.toNat) :
    utf8WriteChar u = .ok (String.utf8EncodeChar c) := by
  have hrange := char_range c
  have h6 : (u >>> 6).toNat = c.toNat / 64 := by rw [toNat_shiftRight u (by decide), hu]; rfl
  have h12 : (u >>> 12).toNat = c.toNat / 4096 := by rw [toNat_shiftRight u (by decide), hu]; rfl
  have h18 : (u >>> 18).toNat = c.toNat / 262144 := by
    rw [toNat_shiftRight u (by decide), hu]; rfl
  have ht := toUInt8_eq (toNat_tail u)
  have ht6 := toUInt8_eq (toNat_tail (u >>> 6))
  have ht12 := toUInt8_eq (toNat_tail (u >>> 12))
  rw [hu] at ht
  rw [h6] at ht6
  rw [h12] at ht12
  rw [utf8WriteChar, utf8EncodeChar_eq]
  simp only [UInt32.le_iff_toNat_le, UInt32.toNat_ofNat, Nat.reducePow, Nat.reduceMod, hu,
    ge_iff_le]
  rw [if_neg (by omega)]
  split
  · rw [toUInt8_eq hu]
  split
  · have hl := toUInt8_eq (toNat_lead 0xC0 (u >>> 6) 5 (by decide) (by omega))
    rw [hl, ht, h6]
    rfl
  split
  · have hl := toUInt8_eq (toNat_lead 0xE0 (u >>> 12) 4 (by decide) (by omega))
    rw [hl, ht, ht6, h12]
    rfl
  · have hl := toUInt8_eq (toNat_lead 0xF0 (u >>> 18) 3 (by decide) (by omega))
    rw [hl, ht, ht6, ht12, h18]
    rfl

/-- **A character that is written is read back**, with its length, whatever follows it. -/
theorem utf8_char_round_trip (c : Char) (r : List UInt8) : ∃ w u,
    utf8WriteChar (UInt32.ofNat c.toNat) = .ok w ∧ w.length ≤ 4 ∧
      utf8ValidateCz (w ++ r) = .ok w.length ∧ utf8ReadChar (w ++ r) = .ok (w.length, u) ∧
        u.toNat = c.toNat := by
  have hvalue : (UInt32.ofNat c.toNat).toNat = c.toNat := by
    have hrange := char_range c
    rw [UInt32.toNat_ofNat', Nat.mod_eq_of_lt (by omega)]
  have hform := utf8Form_encode c
  obtain ⟨u, hread, hu⟩ := utf8ReadChar_form hform r
  exact ⟨_, u, utf8WriteChar_char hvalue, length_encode_le c, utf8ValidateCz_form hform r,
    hread, hu⟩

end AzureMetadata.Analysis
