import AzureMetadata.Analysis.JsonEmission
import AzureMetadata.Analysis.JsonStrings
import AzureMetadata.Model.JsonEmit

/-!
# Writing strings

`emit_string` writes each character of a string as a text that stands for it, with one
exception: U+001F, which the comparison in its `switch` misses, is written as itself.
No round writes more than the bytes there is room for.
-/

set_option autoImplicit false

namespace AzureMetadata.Analysis

open Clib AzureMetadata.Model AzureMetadata.Interface

variable {A : Allocator UInt8} {sb : SB} {text w s : List UInt8} {c : Char} {cs : List Char}
  {escapes : Bool}

/-! ## The bytes of a literal -/

/-- A hexadecimal digit is no control character. -/
theorem hexDigit_printable {a : UInt8} {v : ℕ} (h : HexDigit a v) : 0x20 ≤ a.toNat := by
  rcases h with ⟨hv, ha⟩ | ⟨hv, hv', ha | ha⟩ <;> omega

/-- So there is none in four of them. -/
theorem hex4_printable {v : ℕ} (h : Hex4 w v) : ∀ a ∈ w, 0x20 ≤ a.toNat := by
  obtain ⟨c₁, c₂, c₃, c₄, v₁, v₂, v₃, v₄, rfl, h₁, h₂, h₃, h₄, -⟩ := h
  intro a ha
  simp only [List.mem_cons, List.not_mem_nil, or_false] at ha
  rcases ha with rfl | rfl | rfl | rfl
  · exact hexDigit_printable h₁
  · exact hexDigit_printable h₂
  · exact hexDigit_printable h₃
  · exact hexDigit_printable h₄

/-- Nor in the escape of a code unit. -/
theorem unicodeEscape_printable {v : ℕ} (h : Hex4 w v) :
    ∀ a ∈ chr '\\' :: chr 'u' :: w, 0x20 ≤ a.toNat := by
  intro a ha
  simp only [List.mem_cons] at ha
  rcases ha with rfl | rfl | ha
  · decide
  · decide
  · exact hex4_printable h a ha

/-- No text of a character has a control character in it. -/
theorem charText_printable (h : CharText w c) : ∀ a ∈ w, 0x20 ≤ a.toNat := by
  cases h with
  | plain hc hquote hslash =>
      intro a ha
      by_cases hlow : a.toNat < 0x80
      · have heq := ((utf8Form_encode c).eq_of_mem_low hlow ha).1
        omega
      · omega
  | escape he => cases he <;> simp <;> decide
  | unicode hh hc => exact unicodeEscape_printable hh
  | pair hh hl hu hv hc =>
      intro a ha
      rw [List.mem_append] at ha
      rcases ha with ha | ha
      · exact unicodeEscape_printable hh a ha
      · exact unicodeEscape_printable hl a ha

/-- Nor in any literal of the grammar. -/
theorem charsText_printable (h : CharsText w cs) : ∀ a ∈ w, 0x20 ≤ a.toNat := by
  induction h with
  | nil => exact fun a ha => nomatch ha
  | cons hc _ ih =>
      intro a ha
      rw [List.mem_append] at ha
      rcases ha with ha | ha
      · exact charText_printable hc a ha
      · exact ih a ha

/-! ## One character -/

/-- The letter of an escape stands for its character. -/
theorem escapeLetter_eq_some {a letter : UInt8} (h : escapeLetter a = some letter)
    (hc : c.toNat = a.toNat) : Escape letter c := by
  have hchar : ∀ d : Char, d.toNat = a.toNat → c = d := fun d hd =>
    Char.toNat_inj.mp (hc.trans hd.symm)
  unfold escapeLetter at h
  split at h
  · next ha => cases h; rw [hchar '"' (by rw [ha]; rfl)]; exact .quote
  split at h
  · next ha => cases h; rw [hchar '\\' (by rw [ha]; rfl)]; exact .backslash
  split at h
  · next ha => cases h; rw [hchar '\x08' (by rw [ha]; rfl)]; exact .backspace
  split at h
  · next ha => cases h; rw [hchar '\x0C' (by rw [ha]; rfl)]; exact .formFeed
  split at h
  · next ha => cases h; rw [hchar '\n' (by rw [ha]; rfl)]; exact .lineFeed
  split at h
  · next ha => cases h; rw [hchar '\r' (by rw [ha]; rfl)]; exact .carriageReturn
  split at h
  · next ha => cases h; rw [hchar '\t' (by rw [ha]; rfl)]; exact .tab
  · cases h

/-- The quote and the backslash have one. -/
theorem escapeLetter_eq_none {a : UInt8} (h : escapeLetter a = none) :
    a ≠ chr '"' ∧ a ≠ chr '\\' := by
  constructor
  · rintro rfl
    cases h
  · rintro rfl
    cases h

/-- Only characters below 128 have one. -/
theorem escapeLetter_lt : ∀ a : UInt8, (escapeLetter a).isSome = true → a.toNat < 0x80 :=
  forall_uint8 (by decide +kernel)

/-- A scalar value is written by escapes that stand for it. -/
theorem escapeUnicode_eq {u : UInt32} (hu : u.toNat = c.toNat) (hc : c ≠ '\x00') :
    ∃ w, escapeUnicode u = .ok w ∧ w.length ≤ 12 ∧ CharText w c := by
  have hrange := char_range c
  unfold escapeUnicode
  split
  · next hle =>
      have hle' : u.toNat ≤ 0xFFFF := UInt32.le_iff_toNat_le.mp hle
      have hvalue : u.toUInt16.toNat = c.toNat := by
        rw [UInt32.toNat_toUInt16, hu]
        exact Nat.mod_eq_of_lt (by omega)
      have hhex := writeHex16_hex4 u.toUInt16
      rw [hvalue] at hhex
      exact ⟨_, rfl, by simp [writeHex16], .unicode hhex hc⟩
  · next hle =>
      have hgt : 0xFFFF < u.toNat := by
        rw [UInt32.le_iff_toNat_le] at hle
        exact not_le.mp hle
      obtain ⟨uc, lc, he, hpair⟩ := toSurrogatePair_eq (u := u) (by omega) (by omega)
      obtain ⟨h, l, hh, hl, huc, hlc, hval⟩ := fromSurrogatePair_eq_some_iff.mp hpair
      have hhigh := writeHex16_hex4 uc
      have hlow := writeHex16_hex4 lc
      rw [huc] at hhigh
      rw [hlc] at hlow
      rw [he, stop_ok_bind]
      exact ⟨_, rfl, by simp [writeHex16], .pair hhigh hlow hh hl (hu.symm.trans hval)⟩

/-- The character U+001F has none. -/
theorem escapeLetter_ne_separator : ∀ a : UInt8, (escapeLetter a).isSome = true →
    a.toNat ≠ 0x1F :=
  forall_uint8 (by decide +kernel)

/-- What is written for a character. -/
def CharWritten (c : Char) (w : List UInt8) : Prop :=
  c.toNat ≠ 0x1F ∧ CharText w c ∨ c.toNat = 0x1F ∧ w = [0x1F]

/-- **A round of the loop of `emit_string`**, for either value of `escape_unicode`. -/
theorem emitChar_eq (escapes : Bool) (s : List UInt8) (hc : c ≠ '\x00') : ∃ w,
    emitChar escapes (String.utf8EncodeChar c ++ s) = .ok (w, s) ∧ w.length ≤ 12 ∧
      CharWritten c w := by
  have hform := utf8Form_encode c
  have hpos := hform.length_pos
  obtain ⟨a, w', hw⟩ := List.exists_cons_of_ne_nil (List.ne_nil_of_length_pos hpos)
  have hlow : a.toNat < 0x80 → c.toNat = a.toNat ∧ String.utf8EncodeChar c = [a] := fun hlt =>
    hform.eq_of_mem_low hlt (by simp [hw])
  have hhigh : c.toNat < 0x80 → c.toNat = a.toNat := by
    intro hlt
    have hone := encode_ascii (c := c) (by omega)
    rw [hw] at hone
    cases hone
    exact (toNat_ofNat_lt (by omega)).symm
  have hcell : cellAt (String.utf8EncodeChar c ++ s) 0 = .ok a := by rw [hw]; rfl
  have hvalid := utf8ValidateCz_form hform s
  rw [emitChar, hcell, stop_ok_bind]
  cases hletter : escapeLetter a with
  | some letter =>
      have hsome : (escapeLetter a).isSome = true := by rw [hletter]; rfl
      obtain ⟨hvalue, hone⟩ := hlow (escapeLetter_lt a hsome)
      have hsep : c.toNat ≠ 0x1F := hvalue ▸ escapeLetter_ne_separator a hsome
      refine ⟨[chr '\\', letter], ?_, by simp,
        .inl ⟨hsep, .escape (escapeLetter_eq_some hletter hvalue)⟩⟩
      rw [hone]
      rfl
  | none =>
      show ∃ w, (utf8ValidateCz _ >>= _) = _ ∧ _
      rw [hvalid, stop_ok_bind, if_neg (by omega)]
      split
      · next hescape =>
          have hsep : c.toNat ≠ 0x1F := by
            intro hsep
            have hvalue := hhigh (by omega)
            rcases hescape with hlt | ⟨hge, -⟩
            · have hlt' : a.toNat < 0x1F := hlt
              omega
            · have hge' : 0x80 ≤ a.toNat := hge
              omega
          obtain ⟨u, hread, hu⟩ := utf8ReadChar_form hform s
          obtain ⟨w, hescape, hlen, hwrites⟩ := escapeUnicode_eq hu hc
          refine ⟨w, ?_, hlen, .inl ⟨hsep, hwrites⟩⟩
          rw [hread, stop_ok_bind]
          show (escapeUnicode u >>= _) = _
          rw [hescape, stop_ok_bind, List.drop_left]
          rfl
      · next hplain =>
          rw [not_or] at hplain
          refine ⟨String.utf8EncodeChar c, ?_, (length_encode_le c).trans (by decide), ?_⟩
          · rw [List.take_left, List.drop_left]
            rfl
          · have hge : 0x1F ≤ a.toNat := UInt8.le_iff_toNat_le.mp (UInt8.not_lt.mp hplain.1)
            obtain ⟨hquote, hslash⟩ := escapeLetter_eq_none hletter
            by_cases hsep : c.toNat = 0x1F
            · refine .inr ⟨hsep, ?_⟩
              rw [encode_ascii (by omega), hsep]
              rfl
            · refine .inl ⟨hsep, .plain ?_ ?_ ?_⟩
              · by_cases hlt : c.toNat < 0x80
                · have hvalue := hhigh hlt
                  omega
                · omega
              · rintro rfl
                cases hw
                exact hquote rfl
              · rintro rfl
                cases hw
                exact hslash rfl

/-! ## A whole string -/

/-- What is written for the characters of a string. -/
structure CharsWritten (cs : List Char) (w : List UInt8) : Prop where
  text : 0x1F ∉ utf8 cs → CharsText w cs
  separator : 0x1F ∈ utf8 cs → 0x1F ∈ w
  noNul : 0 ∉ w

/-- No characters are written as nothing. -/
theorem charsWritten_nil : CharsWritten [] [] := ⟨fun _ => .nil, (nomatch ·), by simp⟩

/-- What is written of the characters follows one another. -/
theorem CharsWritten.cons {w' : List UInt8} (hw : CharWritten c w) (h : CharsWritten cs w') :
    CharsWritten (c :: cs) (w ++ w') := by
  rcases hw with ⟨hne, hw⟩ | ⟨hsep, rfl⟩
  · refine ⟨fun hno => ?_, fun hsome => ?_, fun hz => ?_⟩
    · rw [utf8_cons, List.mem_append, not_or] at hno
      exact .cons hw (h.text hno.2)
    · rw [utf8_cons, List.mem_append] at hsome
      rcases hsome with hc | hcs
      · exact absurd ((utf8Form_encode c).eq_of_mem_low (by decide) hc).1 hne
      · exact List.mem_append_right _ (h.separator hcs)
    · rcases List.mem_append.mp hz with hz | hz
      · exact absurd (charText_printable hw 0 hz) (by decide)
      · exact h.noNul hz
  · refine ⟨fun hno => ?_, fun _ => by simp, ?_⟩
    · refine absurd ?_ hno
      rw [utf8_cons, encode_ascii (by omega), hsep]
      simp
    · simpa using h.noNul

/-- The loop of `emit_string`: there is room for the bytes of a round before it, and for
the quotation mark after the last. -/
theorem emitStringLoop_gives {n m : ℕ} (h : Buffered sb text)
    (hroom : text.length + 13 ≤ sb.size) (hnul : 0 ∉ utf8 cs) (hn : (utf8 cs).length < n)
    (hm : text.length + 12 * (utf8 cs).length ≤ m) :
    Gives (OutOfMemory A m) (emitStringLoop A escapes n (utf8 cs ++ [0]) sb) fun sb' =>
      ∃ w, w.length ≤ 12 * (utf8 cs).length ∧ Buffered sb' (text ++ w) ∧
        (text ++ w).length + 1 ≤ sb'.size ∧ CharsWritten cs w := by
  induction cs generalizing n sb text with
  | nil =>
      obtain ⟨n, rfl⟩ := Nat.exists_eq_succ_of_ne_zero (by omega : n ≠ 0)
      refine gives_call_bind rfl ?_
      rw [if_pos rfl]
      refine gives_pure ⟨[], Nat.zero_le _, ?_, ?_, charsWritten_nil⟩
      · rwa [List.append_nil]
      · rw [List.append_nil]
        omega
  | cons c cs ih =>
      obtain ⟨n, rfl⟩ := Nat.exists_eq_succ_of_ne_zero (by omega : n ≠ 0)
      rw [utf8_cons, List.mem_append, not_or] at hnul
      rw [utf8_cons, List.length_append] at hn hm
      have hpos := (utf8Form_encode c).length_pos
      have hc : c ≠ '\x00' := by
        rintro rfl
        exact hnul.1 (by decide)
      obtain ⟨a, w', hw⟩ := List.exists_cons_of_ne_nil (List.ne_nil_of_length_pos hpos)
      have hcell : cellAt (utf8 (c :: cs) ++ [0]) 0 = .ok a := by rw [utf8_cons, hw]; rfl
      have ha : a ≠ 0 := by
        rintro rfl
        exact hnul.1 (by simp [hw])
      obtain ⟨w, he, hlen, hwritten⟩ := emitChar_eq escapes (utf8 cs ++ [0]) hc
      refine gives_call_bind hcell ?_
      rw [if_neg ha]
      refine gives_call_bind (by rw [utf8_cons, List.append_assoc]; exact he) ?_
      obtain ⟨sb₁, hstore, hb₁, -⟩ := sbStore_eq w h (by omega)
      refine gives_call_bind hstore ?_
      have hm₁ : (text ++ w).length + 12 * (utf8 cs).length ≤ m := by
        rw [List.length_append]
        omega
      refine (sbNeed_gives 14 hb₁ (by decide) (by omega)).bind ?_
      rintro sb₂ ⟨hb₂, hroom₂⟩
      refine (ih hb₂ (by omega) hnul.2 (by omega) hm₁).mono ?_
      rintro sb₃ ⟨w', hlen', hb₃, hroom₃, hrest⟩
      rw [List.append_assoc] at hb₃ hroom₃
      refine ⟨w ++ w', ?_, hb₃, hroom₃, .cons hwritten hrest⟩
      rw [utf8_cons, List.length_append, List.length_append]
      omega

/-- **`emit_string` writes a literal of the string**, if that is Unicode text without
U+001F; its assertion fails exactly if it is no Unicode text. -/
theorem emitStringWith_emits (escapes : Bool) (str : CString) :
    Emits A (stringLimit str) [str] (emitStringWith A escapes str) fun w =>
      StringText w str := by
  intro sb text m h hm
  rw [stringLimit] at hm
  obtain ⟨valid, he, hvalid⟩ := utf8Validate_iff str
  refine gives_call_bind he ?_
  cases valid with
  | false =>
      rw [if_pos rfl]
      refine gives_throw (.inr ⟨rfl, str, List.mem_singleton_self str, ?_⟩)
      rintro ⟨cs, hcs⟩
      exact absurd (hvalid.mpr ⟨cs, hcs⟩) (by decide)
  | true =>
      obtain ⟨cs, hcs⟩ := hvalid.mp rfl
      have hnul : 0 ∉ utf8 cs := hcs ▸ str.noNul
      rw [hcs] at hm
      rw [if_neg (by decide), hcs]
      refine ((sbNeed_gives 14 h (by decide) (by omega)).allow fun _ => exit_stops).bind ?_
      rintro sb₁ ⟨hb₁, hroom₁⟩
      obtain ⟨sb₂, hstore, hb₂, hsize₂⟩ := sbStore_eq [chr '"'] hb₁
        (by rw [List.length_singleton]; omega)
      refine gives_call_bind hstore ?_
      have hroom : (text ++ [chr '"']).length + 13 ≤ sb₂.size := by
        rw [List.length_append, List.length_singleton, hsize₂]
        omega
      have hm₂ : (text ++ [chr '"']).length + 12 * (utf8 cs).length ≤ m := by
        rw [List.length_append, List.length_singleton]
        omega
      refine ((emitStringLoop_gives hb₂ hroom hnul (by simp) hm₂).allow
        fun _ => exit_stops).bind ?_
      rintro sb₃ ⟨w, hlen, hb₃, hroom₃, hw⟩
      obtain ⟨sb₄, hstore', hb₄, -⟩ := sbStore_eq [chr '"'] hb₃ hroom₃
      rw [hstore']
      refine gives_lift (r := .ok sb₄) ⟨?_, chr '"' :: w ++ [chr '"'], ?_, ?_, ?_, ?_, ?_⟩
      · exact List.forall_mem_singleton.mpr ⟨cs, hcs⟩
      · rw [stringLimit, hcs, List.length_append, List.length_cons, List.length_singleton]
        omega
      · simpa using hb₄
      · intro hno
        have hno' := List.forall_mem_singleton.mp hno
        exact ⟨w, cs, rfl, hw.text (hcs ▸ hno'), hcs⟩
      · rintro ⟨s, hs, hsep⟩
        rw [List.mem_singleton.mp hs, NoSeparator, not_not, hcs] at hsep
        simp [hw.separator hsep]
      · simp only [List.cons_append, List.mem_cons, List.mem_append, List.not_mem_nil, or_false,
          not_or]
        exact ⟨by decide, hw.noNul, by decide⟩

end AzureMetadata.Analysis
