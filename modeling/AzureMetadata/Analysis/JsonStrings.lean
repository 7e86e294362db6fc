import AzureMetadata.Analysis.JsonBuffer
import AzureMetadata.Analysis.JsonHex
import AzureMetadata.Model.JsonParse

/-!
# String literals

`parse_string` reads a literal as the grammar does, one character in each round: the bytes
of a round are the encoding of the character its text stands for, which has at most four
bytes, so they fit in the room the round before made, and in `throwaway_buffer`.
-/

set_option autoImplicit false

namespace AzureMetadata.Analysis

open Clib Scanner AzureMetadata.Model AzureMetadata.Interface

variable {A : Allocator UInt8} {Allowed : Stop → Prop} {s t w : List UInt8} {c : Char}
  {cs : List Char} {out : Bool} {m : ℕ}

/-! ## Texts of characters -/

/-- An ASCII character is one byte. -/
theorem encode_ascii (h : c.toNat ≤ 0x7F) : String.utf8EncodeChar c = [UInt8.ofNat c.toNat] := by
  rw [utf8EncodeChar_eq, if_pos h]

/-- No character of a literal is NUL. -/
theorem charText_ne_nul (h : CharText w c) : c ≠ '\x00' := by
  rintro rfl
  cases h with
  | plain hc => exact absurd hc (by decide)
  | escape he => cases he
  | unicode hh hc => exact hc rfl
  | pair hh hl hu hv hc =>
      have hz : ('\x00' : Char).toNat = 0 := rfl
      omega

/-- A character is never longer than the text that stands for it. -/
theorem length_encode_le_text (h : CharText w c) : (String.utf8EncodeChar c).length ≤ w.length := by
  cases h with
  | plain => exact le_rfl
  | escape he => cases he <;> decide
  | unicode hh hc =>
      obtain ⟨c₁, c₂, c₃, c₄, v₁, v₂, v₃, v₄, rfl, -⟩ := hh
      exact (length_encode_le c).trans (by simp)
  | pair hh hl hu hv hc =>
      obtain ⟨c₁, c₂, c₃, c₄, v₁, v₂, v₃, v₄, rfl, -⟩ := hh
      exact (length_encode_le c).trans (by simp)

/-- The characters of a literal take no more bytes than it. -/
theorem length_utf8_le_text (h : CharsText w cs) : (utf8 cs).length ≤ w.length := by
  induction h with
  | nil => exact le_rfl
  | cons hc _ ih =>
      rw [utf8_cons, List.length_append, List.length_append]
      exact Nat.add_le_add (length_encode_le_text hc) ih

/-- Characters that need no escape stand for themselves. -/
theorem charsText_plain (h : ∀ c ∈ cs, 0x20 ≤ c.toNat ∧ c ≠ '"' ∧ c ≠ '\\') :
    CharsText (utf8 cs) cs := by
  induction cs with
  | nil => exact .nil
  | cons c cs ih =>
      obtain ⟨⟨hc, hquote, hslash⟩, hrest⟩ := List.forall_mem_cons.mp h
      exact .cons (.plain hc hquote hslash) (ih hrest)

/-- None of these is 0. -/
theorem zero_notMem_utf8_text (h : CharsText w cs) : 0 ∉ utf8 cs := by
  induction h with
  | nil => exact List.not_mem_nil
  | cons hc _ ih =>
      rw [utf8_cons, List.mem_append, not_or]
      exact ⟨zero_notMem_encode (charText_ne_nul hc), ih⟩

/-! ## Reading a character -/

/-- The bytes a round writes, which the text `w` it read stands for. -/
def RoundBytes (bytes w : List UInt8) : Prop :=
  ∃ c, CharText w c ∧ bytes = String.utf8EncodeChar c

/-- What is read as a Unicode escape writes the bytes of its character. -/
theorem parseUnicodeEscape_parses : Parses Allowed parseUnicodeEscape t fun bytes w _ =>
    RoundBytes bytes (chr '\\' :: chr 'u' :: w) := by
  refine parseHex16_parses.bind ?_
  intro uc w₁ t₁ _ h₁
  split
  · next hsurr =>
      refine parses_next_bind (fun _ => rfl) ?_
      intro a t₂ _
      split
      · exact parses_fail
      · next ha =>
          refine parses_next_bind (fun _ => by rw [if_pos (by decide)]; rfl) ?_
          intro b t₃ _
          split
          · exact parses_fail
          · next hb =>
              refine parseHex16_parses.bind ?_
              intro lc w₂ t₄ _ h₂
              cases hpair : fromSurrogatePair uc lc with
              | none => exact parses_fail
              | some u =>
                  obtain ⟨h, l, hh, hl, huc, hlc, hu⟩ := fromSurrogatePair_eq_some_iff.mp hpair
                  obtain ⟨c, hc⟩ := exists_char_toNat (n := u.toNat) (by omega)
                  refine parses_call (utf8WriteChar_char hc.symm) ⟨c, ?_, rfl⟩
                  rw [not_not] at ha hb
                  subst ha hb
                  have hpairtext := CharText.pair (huc ▸ h₁) (hlc ▸ h₂) hh hl (hc.trans hu)
                  simpa using hpairtext
  · split
    · exact parses_fail
    · next hsurr hzero =>
        have hne : ¬ uc.toNat = 0 := fun h => hzero (UInt16.toNat_inj.mp h)
        have hrange := uc.toNat_lt
        simp only [ge_iff_le, UInt16.le_iff_toNat_le, UInt16.toNat_ofNat, Nat.reducePow,
          Nat.reduceMod] at hsurr
        obtain ⟨c, hc⟩ := exists_char_toNat (n := uc.toNat) (by omega)
        have hwrite : utf8WriteChar uc.toUInt32 = .ok (String.utf8EncodeChar c) :=
          utf8WriteChar_char (by rw [UInt16.toNat_toUInt32, hc])
        refine parses_call hwrite ⟨c, ?_, rfl⟩
        rw [List.append_nil]
        refine .unicode (hc ▸ h₁) ?_
        rintro rfl
        exact hne hc.symm

/-- The escapes of one letter, as `parse_string` reads them. -/
theorem parseEscape_of_escape {e : UInt8} (he : Escape e c) :
    parseEscape e = pure (String.utf8EncodeChar c) := by
  cases he <;> rfl

/-- So does what is read as any escape. -/
theorem parseEscape_parses {e : UInt8} : Parses Allowed (parseEscape e) t fun bytes w _ =>
    RoundBytes bytes (chr '\\' :: e :: w) := by
  have hone : ∀ c, Escape e c → Parses Allowed (parseEscape e) t fun bytes w _ =>
      RoundBytes bytes (chr '\\' :: e :: w) := by
    intro c he
    rw [parseEscape_of_escape he]
    exact parses_pure ⟨c, .escape he, rfl⟩
  by_cases hquote : e = chr '"'
  · exact hone '"' (hquote ▸ .quote)
  by_cases hslash : e = chr '\\'
  · exact hone '\\' (hslash ▸ .backslash)
  by_cases hsolidus : e = chr '/'
  · exact hone '/' (hsolidus ▸ .slash)
  by_cases hb : e = chr 'b'
  · exact hone '\x08' (hb ▸ .backspace)
  by_cases hf : e = chr 'f'
  · exact hone '\x0C' (hf ▸ .formFeed)
  by_cases hn : e = chr 'n'
  · exact hone '\n' (hn ▸ .lineFeed)
  by_cases hr : e = chr 'r'
  · exact hone '\r' (hr ▸ .carriageReturn)
  by_cases htab : e = chr 't'
  · exact hone '\t' (htab ▸ .tab)
  by_cases hu : e = chr 'u'
  · subst hu
    exact parseUnicodeEscape_parses
  · unfold parseEscape
    simp only [hquote, hslash, hsolidus, hb, hf, hn, hr, htab, hu, or_self, if_false]
    exact parses_fail

/-- A character that is not written by an escape, known by its first byte. -/
theorem plain_of_head {a : UInt8} {r : List UInt8} (he : a :: t = String.utf8EncodeChar c ++ r)
    (hctrl : ¬ a ≤ 0x1F) (hquote : a ≠ chr '"') (hslash : a ≠ chr '\\') :
    CharText (String.utf8EncodeChar c) c := by
  by_cases hlow : c.toNat ≤ 0x7F
  · rw [encode_ascii hlow] at he
    obtain ⟨rfl, -⟩ := List.cons.inj he
    rw [UInt8.le_iff_toNat_le, toNat_ofNat_lt (by omega)] at hctrl
    have hlarge : ¬ c.toNat ≤ 0x1F := hctrl
    refine .plain (by omega) ?_ ?_
    · rintro rfl
      exact hquote rfl
    · rintro rfl
      exact hslash rfl
  · refine .plain (by omega) ?_ ?_
    · rintro rfl
      exact hlow (by decide)
    · rintro rfl
      exact hlow (by decide)

/-- A round reads a text that stands for a character, and writes that character. -/
theorem parseChar_parses (ht : t.head? ≠ some (chr '"')) : Parses Allowed parseChar t
    fun bytes w _ => RoundBytes bytes w := by
  refine parses_peek_bind (fun _ => ?_) ?_
  · rw [if_neg (by decide), if_pos (by decide)]
    exact parses_fail
  · rintro a t' rfl
    by_cases hslash : a = chr '\\'
    · rw [if_pos hslash]
      refine parses_next_cons (parses_next_bind (fun _ => rfl) ?_)
      intro e t'' _
      rw [hslash]
      exact parseEscape_parses
    · rw [if_neg hslash]
      split
      · exact parses_fail
      · next hctrl =>
          refine parses_cells_bind ?_
          cases utf8ValidateCz_text (List.cons_ne_nil a t') with
          | inl h0 =>
              refine parses_call_bind h0 ?_
              rw [if_pos rfl]
              exact parses_fail
          | inr hsome =>
              obtain ⟨n, w, r, he, hform, hlen⟩ := hsome
              have hpos := hform.length_pos
              obtain ⟨c, hc, rfl⟩ := hform.exists_char
              refine parses_call_bind hlen ?_
              rw [if_neg (by omega)]
              refine (parses_advance he (Q := fun _ w' t'' => w' = String.utf8EncodeChar c ∧
                t'' = r) ⟨rfl, rfl⟩).bind ?_
              rintro _ _ _ - ⟨rfl, rfl⟩
              refine parses_pure ?_
              rw [List.append_nil, he, List.append_assoc, List.take_left]
              exact ⟨c, plain_of_head he hctrl (fun h => ht (by rw [h]; rfl)) hslash, rfl⟩

/-! ## Writing it -/

/-- What the buffer of `parse_string`, if there is one, holds before a round. -/
def Filling (out : Bool) (sb : Option SB) (text : List UInt8) : Prop :=
  if out then ∃ b, sb = some b ∧ Buffered b text ∧ text.length + 4 ≤ b.size else sb = none

/-- Running out of memory, where something is stored. -/
def MayExit (A : Allocator UInt8) (m : ℕ) (out : Bool) (e : Stop) : Prop :=
  out = true ∧ OutOfMemory A m e

/-- Something is stored. -/
theorem mayExit_true {e : Stop} (he : OutOfMemory A m e) : MayExit A m true e := ⟨rfl, he⟩

/-- Where every exit is allowed. -/
theorem mayExit_allowed (hexit : out = true → Allowed .exit) {e : Stop}
    (he : MayExit A m out e) : Allowed e := by
  obtain ⟨hout, rfl, -⟩ := he
  exact hexit hout

/-- The buffer before the first round. -/
theorem startString_gives :
    Gives (MayExit A m out) (startString A out) fun sb => Filling out sb [] := by
  cases out with
  | false => exact gives_pure rfl
  | true =>
      refine (sbInit_gives.allow fun _ => mayExit_true).bind fun sb hb => ?_
      have hroom : ([] : List UInt8).length + 4 ≤ m + 16 := by
        rw [List.length_nil]
        omega
      refine ((sbNeed_gives 4 hb (by decide) hroom).allow fun _ => mayExit_true).bind ?_
      rintro sb' ⟨hb', hroom⟩
      exact gives_pure ⟨sb', rfl, hb', hroom⟩

/-- The bytes of a round fit, and after them there is room for the next. -/
theorem storeChar_gives {sb : Option SB} {text bytes : List UInt8} (h : Filling out sb text)
    (hlen : bytes.length ≤ 4) (hm : (text ++ bytes).length ≤ m) :
    Gives (MayExit A m out) (storeChar A bytes sb) fun sb' =>
      Filling out sb' (text ++ bytes) := by
  cases out with
  | false =>
      cases h
      rw [storeChar, if_pos hlen]
      exact gives_pure rfl
  | true =>
      obtain ⟨b, rfl, hb, hroom⟩ := h
      obtain ⟨b₁, he, hb₁, -⟩ := sbStore_eq bytes hb (by omega)
      rw [storeChar, he]
      refine (gives_lift (r := .ok b₁) (P := fun b => b = b₁) rfl).bind ?_
      rintro _ rfl
      refine ((sbNeed_gives 4 hb₁ (by decide) (by omega)).allow fun _ => mayExit_true).bind ?_
      rintro b₂ ⟨hb₂, hroom₂⟩
      exact gives_pure ⟨b₂, rfl, hb₂, hroom₂⟩

/-- The string that is handed over. -/
theorem finishString_eq {sb : Option SB} {s : CString} (h : Filling out sb s.bytes) :
    finishString sb = .ok (given out s) := by
  cases out with
  | false =>
      cases h
      rfl
  | true =>
      obtain ⟨b, rfl, hb, -⟩ := h
      obtain ⟨str, he, hbytes⟩ := sbFinish_eq hb s.noNul
      have hstr : str = s := by
        cases str
        cases s
        cases hbytes
        rfl
      rw [finishString, he, hstr]
      rfl

/-- The rest of a literal from its `text` on. -/
def Ending (out : Bool) (text : List UInt8) (sb : Option SB) (w : List UInt8) : Prop :=
  ∃ body cs, w = body ++ [chr '"'] ∧ CharsText body cs ∧ Filling out sb (text ++ utf8 cs)

/-- What a round that starts with `text` has done after reading `w`: the rest of the loop
leads to a rest of the literal that begins with `w`, or is over. -/
def RoundDone (out : Bool) (text : List UInt8) (r : Option SB ⊕ Option SB) (w : List UInt8) :
    Prop :=
  match r with
  | .inl sb => w ≠ [] ∧ ∃ text', Filling out sb text' ∧ text'.length ≤ text.length + w.length ∧
      ∀ sb' w', Ending out text' sb' w' → Ending out text sb' (w ++ w')
  | .inr sb => Ending out text sb w

/-- The body of the loop; what it stores is no longer than what it reads. -/
theorem parseStringChar_parses (hexit : ∀ e, MayExit A m out e → Allowed e) {sb : Option SB}
    {text : List UInt8} (h : Filling out sb text) (hm : text.length + t.length ≤ m)
    (hhead : t.head? ≠ some (chr '"')) :
    Parses Allowed (parseStringChar A sb) t fun r w _ => RoundDone out text r w := by
  refine (parseChar_parses hhead).bind ?_
  rintro bytes w t' ht ⟨c, hw, rfl⟩
  have hle := length_encode_le_text hw
  have hstored : (text ++ String.utf8EncodeChar c).length ≤ m := by
    rw [ht, List.length_append] at hm
    rw [List.length_append]
    omega
  refine (parses_requests ((storeChar_gives h (length_encode_le c) hstored).allow hexit)
    (Q := fun sb' w' _ => w' = [] ∧ Filling out sb' (text ++ String.utf8EncodeChar c))
    fun sb' h' => ⟨rfl, h'⟩).bind ?_
  rintro sb' _ t'' - ⟨rfl, h'⟩
  refine parses_pure ⟨?_, _, h', ?_, ?_⟩
  · rw [List.append_nil, List.append_nil]
    have hpos := (utf8Form_encode c).length_pos
    exact List.ne_nil_of_length_pos (by omega)
  · rw [List.append_nil, List.append_nil, List.length_append]
    exact Nat.add_le_add_left hle _
  · rintro sb'' _ ⟨body, cs, rfl, hcs, hend⟩
    refine ⟨w ++ body, c :: cs, by simp, .cons hw hcs, ?_⟩
    rwa [utf8_cons, ← List.append_assoc]

/-- A round of the loop. -/
theorem parseStringRound_parses (hexit : ∀ e, MayExit A m out e → Allowed e) {sb : Option SB}
    {text : List UInt8} (h : Filling out sb text) (hm : text.length + t.length ≤ m) :
    Parses Allowed (parseStringRound A sb) t fun r w _ => RoundDone out text r w := by
  refine parses_peek_bind ?_ ?_
  · rintro rfl
    rw [if_neg (by decide)]
    exact parseStringChar_parses hexit h hm (by simp)
  · rintro a t' rfl
    by_cases hquote : a = chr '"'
    · rw [if_pos hquote, hquote]
      refine parses_next_cons (parses_pure ?_)
      refine ⟨[], [], rfl, .nil, ?_⟩
      rwa [utf8_nil, List.append_nil]
    · rw [if_neg hquote]
      exact parseStringChar_parses hexit h hm (by simpa using hquote)

/-- **`parse_string` reads string literals and nothing else**, and stores what the literal
stands for.  That is no longer than the literal, so `s` is a string of C if the text is. -/
theorem parseString_parses (hexit : ∀ e, MayExit A m out e → Allowed e) (hm : t.length ≤ m)
    (ht : t.length < ptrdiffMax) :
    Parses Allowed (parseString A out) t fun r w _ =>
      ∃ s : CString, StringText w s ∧ r = given out s := by
  refine parses_next_bind (fun _ => rfl) ?_
  rintro a t' rfl
  split
  · exact parses_fail
  · next hquote =>
      rw [not_not] at hquote
      refine (parses_requests (startString_gives.allow hexit)
        (Q := fun sb w _ => w = [] ∧ Filling out sb []) fun sb h => ⟨rfl, h⟩).bind ?_
      rintro sb _ t₁ ht₁ ⟨rfl, h⟩
      have hsize₁ := congrArg List.length ht₁
      simp only [List.length_append, List.length_cons, List.length_nil] at hsize₁ ht hm
      have hloop : Parses Allowed (loop .loopLimit (parseStringRound A) sb) t₁
          fun sb' w _ => Ending out [] sb' w := by
        refine parses_loop (P := fun text sb t => Filling out sb text ∧ text.length + t.length ≤ m)
          (R := fun text sb' w _ => Ending out text sb' w) ?_ ⟨h, by rw [List.length_nil]; omega⟩
        rintro text sb t ⟨hf, hm⟩
        refine (parseStringRound_parses hexit hf hm).mono ?_
        rintro r w t' hwt hr
        cases r with
        | inl sb' =>
            obtain ⟨hw, text', hf', hle, hend⟩ := hr
            rw [hwt, List.length_append] at hm
            exact ⟨hw, text', ⟨hf', by omega⟩, fun sb'' w' _ => hend sb'' w'⟩
        | inr sb' => exact hr
      refine hloop.bind ?_
      rintro sb' _ t₂ ht₂ ⟨body, cs, rfl, hcs, hf⟩
      have hlen : (utf8 cs).length < ptrdiffMax := by
        have hle := length_utf8_le_text hcs
        have hsize := congrArg List.length ht₂
        simp only [List.length_append, List.length_cons, List.length_nil] at hsize
        omega
      refine parses_call (finishString_eq (s := ⟨utf8 cs, zero_notMem_utf8_text hcs, hlen⟩) hf) ?_
      refine ⟨_, ⟨body, cs, ?_, hcs, rfl⟩, rfl⟩
      rw [hquote]
      simp

/-! ## Every literal is read -/

/-- No character of a literal starts with a quote. -/
theorem head_of_charText (h : CharText w c) : ∃ a w', w = a :: w' ∧ a ≠ chr '"' := by
  cases h with
  | plain hc hquote =>
      have hform := utf8Form_encode c
      obtain ⟨a, w', hw⟩ := List.exists_cons_of_ne_nil (List.ne_nil_of_length_pos hform.length_pos)
      refine ⟨a, w', hw, ?_⟩
      rintro rfl
      have hvalue := (hform.eq_of_mem_low (b := chr '"') (by decide) (by simp [hw])).1
      exact hquote (Char.toNat_inj.mp hvalue)
  | escape he => exact ⟨_, _, rfl, by decide⟩
  | unicode hh => exact ⟨_, _, rfl, by decide⟩
  | pair hh hl => exact ⟨_, _, rfl, by decide⟩

/-- An escape that is no surrogate is read. -/
theorem parseUnicodeEscape_unicode (hh : Hex4 w c.toNat) (hc : c ≠ '\x00') :
    Reads Allowed parseUnicodeEscape (w ++ s) (String.utf8EncodeChar c) s := by
  obtain ⟨uc, huc, hreads⟩ := parseHex16_reads hh
  have hrange := char_range c
  have hsurr : ¬ (uc ≥ 0xD800 ∧ uc ≤ 0xDFFF) := by
    simp only [ge_iff_le, UInt16.le_iff_toNat_le, UInt16.toNat_ofNat, Nat.reducePow,
      Nat.reduceMod]
    omega
  have hne : uc ≠ 0 := by
    rintro rfl
    exact hc (Char.toNat_inj.mp huc.symm)
  refine (hreads s).bind ?_
  rw [if_neg hsurr, if_neg hne]
  exact accepts_call (utf8WriteChar_char (by rw [UInt16.toNat_toUInt32, huc])) ⟨rfl, rfl⟩

/-- So is a pair of surrogates. -/
theorem parseUnicodeEscape_pair {h l : List UInt8} {u v : ℕ} (hh : Hex4 h (0xD800 + u))
    (hl : Hex4 l (0xDC00 + v)) (hu : u < 0x400) (hv : v < 0x400)
    (hc : c.toNat = 0x10000 + u * 0x400 + v) :
    Reads Allowed parseUnicodeEscape (h ++ chr '\\' :: chr 'u' :: (l ++ s))
      (String.utf8EncodeChar c) s := by
  obtain ⟨uc, huc, hreads⟩ := parseHex16_reads hh
  obtain ⟨lc, hlc, hreads'⟩ := parseHex16_reads hl
  have hsurr : uc ≥ 0xD800 ∧ uc ≤ 0xDFFF := by
    simp only [ge_iff_le, UInt16.le_iff_toNat_le, UInt16.toNat_ofNat, Nat.reducePow,
      Nat.reduceMod]
    omega
  have hrange := char_range c
  have hvalue : (UInt32.ofNat c.toNat).toNat = c.toNat := by
    rw [UInt32.toNat_ofNat']
    exact Nat.mod_eq_of_lt (by omega)
  have hpair : fromSurrogatePair uc lc = some (UInt32.ofNat c.toNat) :=
    fromSurrogatePair_eq_some_iff.mpr ⟨u, v, hu, hv, huc, hlc, hvalue.trans hc⟩
  refine (hreads _).bind ?_
  rw [if_pos hsurr]
  refine reads_next.bind ?_
  rw [if_neg (by simp)]
  refine reads_next.bind ?_
  rw [if_neg (by simp)]
  refine (hreads' s).bind ?_
  rw [hpair]
  exact accepts_call (utf8WriteChar_char hvalue) ⟨rfl, rfl⟩

/-- So is every character of the grammar. -/
theorem parseChar_reads (h : CharText w c) :
    Reads Allowed parseChar (w ++ s) (String.utf8EncodeChar c) s := by
  cases h with
  | plain hc hquote hslash =>
      have hform := utf8Form_encode c
      obtain ⟨a, w', hw⟩ := List.exists_cons_of_ne_nil (List.ne_nil_of_length_pos hform.length_pos)
      have hlow : a.toNat < 0x80 → c.toNat = a.toNat := fun hlt =>
        (hform.eq_of_mem_low hlt (by simp [hw])).1
      have hne : a ≠ chr '\\' := by
        rintro rfl
        exact hslash (Char.toNat_inj.mp (hlow (by decide)))
      have hctrl : ¬ a ≤ 0x1F := by
        intro hle
        have hle' : a.toNat ≤ 0x1F := hle
        have hvalue := hlow (by omega)
        omega
      rw [hw, List.cons_append]
      refine reads_peek.bind ?_
      rw [if_neg hne, if_neg hctrl]
      refine reads_cells.bind ?_
      rw [← List.cons_append, ← hw]
      refine accepts_call_bind (utf8ValidateCz_form hform s) ?_
      have hpos := hform.length_pos
      rw [if_neg (by omega)]
      refine reads_advance.bind (accepts_pure ?_)
      rw [List.take_left]
      exact ⟨rfl, rfl⟩
  | escape he =>
      refine reads_peek.bind (reads_next.bind (reads_next.bind ?_))
      rw [parseEscape_of_escape he]
      exact reads_pure
  | unicode hh hc =>
      exact reads_peek.bind (reads_next.bind (reads_next.bind (parseUnicodeEscape_unicode hh hc)))
  | @pair h l u v _ hh hl hu hv hc =>
      have hassoc : chr '\\' :: chr 'u' :: h ++ chr '\\' :: chr 'u' :: l ++ s =
          chr '\\' :: chr 'u' :: (h ++ chr '\\' :: chr 'u' :: (l ++ s)) := by simp
      rw [hassoc]
      exact reads_peek.bind (reads_next.bind (reads_next.bind
        (parseUnicodeEscape_pair hh hl hu hv hc)))

/-- The rounds read the characters up to the quote. -/
theorem parseStringRound_loops (hexit : out = true → Allowed .exit) {sb : Option SB}
    {text : List UInt8} (h : Filling out sb text) (hcs : CharsText w cs) :
    Loops Allowed .loopLimit (parseStringRound A) sb (w ++ chr '"' :: s) fun sb' s' =>
      Filling out sb' (text ++ utf8 cs) ∧ s' = s := by
  induction hcs generalizing sb text with
  | nil =>
      refine loops_last (by simp) ?_
      refine reads_peek.bind ?_
      rw [if_pos rfl]
      refine reads_next.bind (accepts_pure ⟨sb, rfl, ?_, rfl⟩)
      rwa [utf8_nil, List.append_nil]
  | @cons w w' c cs hw _ ih =>
      obtain ⟨a, v, rfl, hquote⟩ := head_of_charText hw
      refine loops_round (by simp) ?_
      rw [List.append_assoc, List.cons_append]
      refine reads_peek.bind ?_
      rw [if_neg hquote, ← List.cons_append]
      refine (parseChar_reads hw).bind ?_
      refine (accepts_requests ((storeChar_gives h (length_encode_le c) le_rfl).allow
        fun _ he => mayExit_allowed hexit he) (Q := fun sb' s' =>
          Filling out sb' (text ++ String.utf8EncodeChar c) ∧ s' = w' ++ chr '"' :: s)
        fun sb' h' => ⟨h', rfl⟩).bind ?_
      rintro sb' _ ⟨h', rfl⟩
      refine accepts_pure ⟨?_, sb', rfl, ?_⟩
      · simp only [List.length_append, List.length_cons]
        omega
      · rw [utf8_cons, ← List.append_assoc]
        exact ih h'

/-- **Every string literal is read** for the string it stands for. -/
theorem parseString_reads (hexit : out = true → Allowed .exit) {str : CString}
    (h : StringText w str) :
    Reads Allowed (parseString A out) (w ++ s) (given out str) s := by
  obtain ⟨body, cs, rfl, hcs, hbytes⟩ := h
  rw [List.append_assoc]
  refine reads_next.bind ?_
  rw [if_neg (by simp)]
  refine (accepts_requests ((startString_gives (m := 0)).allow fun _ he =>
      mayExit_allowed hexit he)
    (Q := fun sb s' => Filling out sb [] ∧ s' = body ++ [chr '"'] ++ s)
    fun sb h => ⟨h, by simp⟩).bind ?_
  rintro sb _ ⟨hf, rfl⟩
  rw [List.append_assoc]
  refine (parseStringRound_loops hexit hf hcs).accepts.bind ?_
  rintro sb' _ ⟨hf', rfl⟩
  rw [List.nil_append, ← hbytes] at hf'
  exact accepts_call (finishString_eq hf') ⟨rfl, rfl⟩

end AzureMetadata.Analysis
