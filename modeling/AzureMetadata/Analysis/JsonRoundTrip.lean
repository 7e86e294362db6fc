import AzureMetadata.Analysis.JsonDecoding
import AzureMetadata.Analysis.JsonEmit

/-!
# Encoding and decoding

What `json_decode` makes of the text that `json_stringify` returns, and what
`json_stringify` makes of a value that was decoded.
-/

set_option autoImplicit false

namespace AzureMetadata.Analysis

open Clib AzureMetadata.Model AzureMetadata.Interface

variable {F : Floating} {A A' : Allocator UInt8} {w b : List UInt8} {strs : List CString}
  {Text : List UInt8 → Prop} {n : ℕ}

/-! ## The characters of a text -/

/-- A character that can stand in a JSON text: no control character but white space. -/
def Printable (a : UInt8) : Prop := 0x20 ≤ a.toNat ∨ a = chr '\t' ∨ a = chr '\n' ∨ a = chr '\r'

/-- Blanks are printable. -/
theorem printable_of_blank (h : Blank b) : ∀ a ∈ b, Printable a := by
  intro a ha
  rcases h a ha with rfl | h
  · exact .inl (by decide)
  · exact .inr h

/-- So is what is no control character. -/
theorem printable_of_ge (h : ∀ a ∈ w, 0x20 ≤ a.toNat) : ∀ a ∈ w, Printable a :=
  fun a ha => .inl (h a ha)

/-- Digits are none. -/
theorem digits_printable (h : ∀ c ∈ w, isDigit c = true) : ∀ a ∈ w, 0x20 ≤ a.toNat := by
  have hdigit : ∀ c : UInt8, isDigit c = true → 0x20 ≤ c.toNat := forall_uint8 (by decide +kernel)
  exact fun a ha => hdigit a (h a ha)

/-- Signs are none. -/
theorem forall_mem_sign {sign : List UInt8} (h : sign = [] ∨ sign = [chr '+'] ∨ sign = [chr '-']) :
    ∀ a ∈ sign, 0x20 ≤ a.toNat := by
  rcases h with rfl | rfl | rfl
  · exact fun a ha => nomatch ha
  · simp; decide
  · simp; decide

/-- So there is none in a number. -/
theorem number_printable (h : NumberText w) : ∀ a ∈ w, 0x20 ≤ a.toNat := by
  obtain ⟨sign, whole, f, x, hsign, hwhole, hf, hx, rfl⟩ := h
  have hfraction : ∀ a ∈ f, 0x20 ≤ a.toNat := by
    rcases hf with rfl | ⟨d, hd, rfl⟩
    · exact fun a ha => nomatch ha
    · exact List.forall_mem_cons.mpr ⟨by decide, digits_printable hd.2⟩
  have hexponent : ∀ a ∈ x, 0x20 ≤ a.toNat := by
    rcases hx with rfl | ⟨e, sign, d, he, hsign, hd, rfl⟩
    · exact fun a ha => nomatch ha
    · refine List.forall_mem_cons.mpr ⟨?_, List.forall_mem_append.mpr
        ⟨forall_mem_sign hsign, digits_printable hd.2⟩⟩
      rcases he with rfl | rfl <;> decide
  refine List.forall_mem_append.mpr ⟨forall_mem_sign (hsign.imp_right .inr),
    List.forall_mem_append.mpr ⟨digits_printable (digits_of_whole hwhole).2,
      List.forall_mem_append.mpr ⟨hfraction, hexponent⟩⟩⟩

/-- Nor in a literal. -/
theorem stringText_printable {s : CString} (h : StringText w s) : ∀ a ∈ w, 0x20 ≤ a.toNat := by
  obtain ⟨body, cs, rfl, hcs, -⟩ := h
  exact List.forall_mem_cons.mpr ⟨by decide, List.forall_mem_append.mpr
    ⟨charsText_printable hcs, List.forall_mem_singleton.mpr (by decide)⟩⟩

/-- Nor in a word, which is checked. -/
theorem word_printable {word : List UInt8} (h : (word.all fun a => 0x20 ≤ a.toNat) = true) :
    ∀ a ∈ word, 0x20 ≤ a.toNat := fun a ha => of_decide_eq_true (List.all_eq_true.mp h a ha)

/-- No JSON text has a control character in it that is no white space. -/
theorem derives_printable {sym : Symbol F.double} (h : Derives F sym w) :
    ∀ a ∈ w, Printable a := by
  have hmark : ∀ {a : UInt8}, 0x20 ≤ a.toNat → Printable a := .inl
  induction h with
  | null => exact printable_of_ge (word_printable (by decide))
  | false => exact printable_of_ge (word_printable (by decide))
  | true => exact printable_of_ge (word_printable (by decide))
  | string hw => exact printable_of_ge (stringText_printable hw)
  | number hw => exact printable_of_ge (number_printable hw)
  | array hb hw ih =>
      simp only [List.forall_mem_cons, List.forall_mem_append]
      exact ⟨hmark (by decide), printable_of_blank hb, ih⟩
  | object hb hw ih =>
      simp only [List.forall_mem_cons, List.forall_mem_append]
      exact ⟨hmark (by decide), printable_of_blank hb, ih⟩
  | noElement => exact List.forall_mem_singleton.mpr (hmark (by decide))
  | lastElement hw hb ih =>
      simp only [List.forall_mem_append, List.forall_mem_singleton]
      exact ⟨ih, printable_of_blank hb, hmark (by decide)⟩
  | element hw hb hb' hw' ih ih' =>
      simp only [List.forall_mem_cons, List.forall_mem_append]
      exact ⟨ih, printable_of_blank hb, hmark (by decide), printable_of_blank hb', ih'⟩
  | noMember => exact List.forall_mem_singleton.mpr (hmark (by decide))
  | lastMember hk hb hb' hw hb'' ih =>
      simp only [List.forall_mem_cons, List.forall_mem_append, List.not_mem_nil,
        IsEmpty.forall_iff, implies_true]
      exact ⟨printable_of_ge (stringText_printable hk), printable_of_blank hb, hmark (by decide),
        printable_of_blank hb', ih, printable_of_blank hb'', hmark (by decide), trivial⟩
  | member hk hb hb' hw hb'' hc hw' ih ih' =>
      simp only [List.forall_mem_cons, List.forall_mem_append]
      exact ⟨printable_of_ge (stringText_printable hk), printable_of_blank hb, hmark (by decide),
        printable_of_blank hb', ih, printable_of_blank hb'', hmark (by decide),
        printable_of_blank hc, ih'⟩

/-- No text of the grammar has the character U+001F. -/
theorem separator_notMem_text {v : JsonTree F.double} (h : JsonText F w v) : 0x1F ∉ w := by
  obtain ⟨b, u, b', hb, hu, hb', rfl⟩ := h
  intro hmem
  have hall := List.forall_mem_append.mpr ⟨printable_of_blank hb,
    List.forall_mem_append.mpr ⟨derives_printable hu, printable_of_blank hb'⟩⟩ 0x1F hmem
  revert hall
  unfold Printable
  decide

/-! ## The strings of a decoded value -/

/-- The strings and keys in the values of a symbol. -/
def symbolStrings {double : Type} : Symbol double → List CString
  | .value v => strings v
  | .elements vs => elementStrings vs
  | .members ms => memberStrings ms

/-- The strings in a value are Unicode, and none is longer than a text of the value. -/
theorem strings_of_derives {sym : Symbol F.double} (h : Derives F sym w) :
    ∀ s ∈ symbolStrings sym, IsText s ∧ s.bytes.length ≤ w.length := by
  have hstring : ∀ {k : List UInt8} {s : CString}, StringText k s →
      IsText s ∧ s.bytes.length ≤ k.length := by
    rintro k s ⟨body, cs, rfl, hcs, hbytes⟩
    refine ⟨⟨cs, hbytes⟩, ?_⟩
    have hle := length_utf8_le_text hcs
    rw [hbytes, List.length_append, List.length_cons]
    omega
  induction h with
  | null => exact fun s hs => nomatch hs
  | false => exact fun s hs => nomatch hs
  | true => exact fun s hs => nomatch hs
  | string hw => exact List.forall_mem_singleton.mpr (hstring hw)
  | number hw => exact fun s hs => nomatch hs
  | array hb hw ih =>
      intro s hs
      have hle := (ih s hs).2
      refine ⟨(ih s hs).1, ?_⟩
      rw [List.length_cons, List.length_append]
      omega
  | object hb hw ih =>
      intro s hs
      have hle := (ih s hs).2
      refine ⟨(ih s hs).1, ?_⟩
      rw [List.length_cons, List.length_append]
      omega
  | noElement => exact fun s hs => nomatch hs
  | lastElement hw hb ih =>
      intro s hs
      simp only [symbolStrings, elementStrings, List.append_nil] at hs ih
      have hle := (ih s hs).2
      refine ⟨(ih s hs).1, ?_⟩
      rw [List.length_append]
      omega
  | element hw hb hb' hw' ih ih' =>
      intro s hs
      rw [symbolStrings, elementStrings, List.mem_append] at hs
      simp only [List.length_append, List.length_cons]
      rcases hs with hs | hs
      · have hle := (ih s hs).2
        exact ⟨(ih s hs).1, by omega⟩
      · have hle := (ih' s hs).2
        exact ⟨(ih' s hs).1, by omega⟩
  | noMember => exact fun s hs => nomatch hs
  | lastMember hk hb hb' hw hb'' ih =>
      intro s hs
      rw [symbolStrings, memberStrings, memberStrings, List.append_nil, List.mem_cons] at hs
      simp only [List.length_append, List.length_cons]
      rcases hs with rfl | hs
      · have hle := (hstring hk).2
        exact ⟨(hstring hk).1, by omega⟩
      · have hle := (ih s hs).2
        exact ⟨(ih s hs).1, by omega⟩
  | member hk hb hb' hw hb'' hc hw' ih ih' =>
      intro s hs
      rw [symbolStrings, memberStrings, List.mem_cons, List.mem_append] at hs
      simp only [List.length_append, List.length_cons]
      rcases hs with rfl | hs | hs
      · have hle := (hstring hk).2
        exact ⟨(hstring hk).1, by omega⟩
      · have hle := (ih s hs).2
        exact ⟨(ih s hs).1, by omega⟩
      · have hle := (ih' s hs).2
        exact ⟨(ih' s hs).1, by omega⟩

/-- The strings in a text are encoded and no longer than it. -/
theorem strings_of_text {v : JsonTree F.double} (h : JsonText F w v) :
    ∀ s ∈ strings v, IsText s ∧ s.bytes.length ≤ w.length := by
  obtain ⟨b, u, b', -, hu, -, rfl⟩ := h
  intro s hs
  obtain ⟨htext, hle⟩ := strings_of_derives hu s hs
  refine ⟨htext, hle.trans ?_⟩
  simp only [List.length_append]
  omega

/-! ## The texts that are returned -/

/-- What is written into a new buffer is returned. -/
theorem inBuffer_gives {fill : SB → Requests SB} (h : Emits A n strs fill Text) :
    Gives (EmitStops A n strs) (inBuffer A fill) fun str =>
      (∀ s ∈ strs, IsText s) ∧ str.bytes.length ≤ n ∧ Written strs Text str.bytes := by
  refine (sbInit_gives.allow fun _ => exit_stops).bind ?_
  intro sb hb
  refine (h sb [] n hb (Nat.zero_add n).le).bind ?_
  rintro sb' ⟨htext, w, hlen, hb', hw⟩
  rw [List.nil_append] at hb'
  obtain ⟨str, he, rfl⟩ := sbFinish_eq hb' hw.noNul
  rw [he]
  exact gives_lift (r := .ok str) ⟨htext, hlen, hw⟩

/-- Indentation that is white space and not too long for an `int`. -/
def Indentation (space : Option CString) : Prop :=
  ∀ s ∈ space, Blank s.bytes ∧ s.bytes.length < 2 ^ 31

/-- **What `json_stringify` returns**, and that its assertions hold exactly if the strings
are Unicode. -/
theorem jsonStringify_gives (hformat : ∀ x, (F.format x).bytes.length < 64)
    {space : Option CString} (hspace : Indentation space) (v : JsonTree F.double) :
    Gives (EmitStops A (textLimit space v) (strings v)) (jsonStringify F A v space) fun str =>
      (∀ s ∈ strings v, IsText s) ∧ str.bytes.length ≤ textLimit space v ∧
        Written (strings v) (fun w => Derives F (.value (readBack F v)) w) str.bytes := by
  cases space with
  | none => exact inBuffer_gives (emitValue_emits hformat v 0)
  | some space =>
      obtain ⟨hblank, hlen⟩ := hspace space rfl
      exact inBuffer_gives (emitValueIndented_emits hblank hlen hformat v)

/-- A text of a value is a JSON text as it is. -/
theorem jsonText_of_derives {v : JsonTree F.double} (h : Derives F (.value v) w) :
    JsonText F w v :=
  ⟨[], w, [], blank_nil, h, blank_nil, by simp⟩

/-- A text written for the strings is JSON exactly if none has U+001F. -/
theorem written_jsonText_iff {v : JsonTree F.double}
    (h : Written strs (fun w => Derives F (.value v) w) w) :
    (∃ v', JsonText F w v') ↔ ∀ s ∈ strs, NoSeparator s := by
  constructor
  · rintro ⟨v', hv'⟩ s hs
    by_contra hsep
    exact separator_notMem_text hv' (h.separator ⟨s, hs, hsep⟩)
  · exact fun hno => ⟨v, jsonText_of_derives (h.text hno)⟩

/-- What `json_decode` makes of a text that was written. -/
theorem jsonDecode_written {v : JsonTree F.double} {str : CString}
    (h : Written strs (fun w => Derives F (.value v) w) str.bytes) (hlen : str.bytes.length ≤ n) :
    Yields (OutOfMemory A n) (jsonDecode F A (str.bytes.length + 1) str) fun r =>
      ((∀ s ∈ strs, NoSeparator s) → r = some v) ∧
        ((∃ s ∈ strs, ¬ NoSeparator s) → r = none) := by
  refine ((jsonDecode_yields str (Nat.lt_succ_self _)).allow fun _ he => he.mono hlen).mono ?_
  intro r hr
  refine ⟨fun hno => (hr v).mpr (jsonText_of_derives (h.text hno)), ?_⟩
  rintro ⟨s, hs, hsep⟩
  cases r with
  | none => rfl
  | some v' => exact absurd ((written_jsonText_iff h).mp ⟨v', (hr v').mp rfl⟩ s hs) hsep

/-! ## There and back -/

/-- How a text of at most `n` bytes that is written for the strings, and read again, ends the
program. -/
def RoundTripStops (A A' : Allocator UInt8) (n : ℕ) (strs : List CString) (e : Stop) : Prop :=
  EmitStops A n strs e ∨ OutOfMemory A' n e

/-- It does not for strings that are Unicode, with everything granted. -/
theorem not_roundTripStops {e : Stop} (hall : ∀ k, (A k).granted = true)
    (hall' : ∀ k, (A' k).granted = true) (hsize : 2 * (n + 16) ≤ ptrdiffMax)
    (htext : ∀ s ∈ strs, IsText s) : ¬ RoundTripStops A A' n strs e := by
  rintro ((hmemory | ⟨-, s, hs, hno⟩) | hmemory)
  · exact not_outOfMemory hall hsize hmemory
  · exact hno (htext s hs)
  · exact not_outOfMemory hall' hsize hmemory

/-- **A value that is written and read back.**  It comes back with its numbers as their
texts give them, unless a string has U+001F: the text is then rejected. -/
theorem jsonStringify_jsonDecode (hformat : ∀ x, (F.format x).bytes.length < 64)
    {space : Option CString} (hspace : Indentation space) (v : JsonTree F.double) :
    Gives (RoundTripStops A A' (textLimit space v) (strings v)) (do
        let str ← jsonStringify F A v space
        jsonDecode F A' (str.bytes.length + 1) str) fun r =>
      (∀ s ∈ strings v, IsText s) ∧
        ((∀ s ∈ strings v, NoSeparator s) → r = some (readBack F v)) ∧
          ((∃ s ∈ strings v, ¬ NoSeparator s) → r = none) := by
  refine ((jsonStringify_gives hformat hspace v).allow fun _ => .inl).bind ?_
  rintro str ⟨htext, hlen, hwritten⟩
  refine (gives_lift (jsonDecode_written hwritten hlen)).allow (fun _ => .inr) |>.mono ?_
  exact fun r hr => ⟨htext, hr⟩

/-- The digits of the witnesses take one character. -/
theorem digitNumbers_format : ∀ x, (digitNumbers.format x).bytes.length < 64 :=
  fun _ => show 1 < 64 by decide

/-- No indentation is white space. -/
theorem indentation_none : Indentation none := fun _ h => absurd h (Option.not_mem_none _)

/-- The strings of the object are plain text. -/
theorem memberValue_plain : ∀ s ∈ strings memberValue, NoSeparator s := by
  have hplain : ∀ s ∈ strings memberValue, ¬ 31 ∈ s.bytes := by decide +kernel
  exact hplain

/-- An object with a string is written by `json_encode` and read back. -/
theorem jsonStringify_jsonDecode_member :
    Gives (fun _ => False) (do
        let str ← jsonEncode digitNumbers (generous true 0) memberValue
        jsonDecode digitNumbers (generous true 0) (str.bytes.length + 1) str) fun r =>
      r = some memberValue := by
  have htexts : ∀ s ∈ strings memberValue, IsText s := fun s hs =>
    (strings_of_text memberText_jsonText s hs).1
  refine ((jsonStringify_jsonDecode digitNumbers_format indentation_none memberValue).allow
    fun _ => not_roundTripStops (fun _ => rfl) (fun _ => rfl) (by decide) htexts).mono ?_
  exact fun r hr => hr.2.1 memberValue_plain

/-- `json_decode` and, if it returns a value, `json_stringify`. -/
def recode (F : Floating) (A A' : Allocator UInt8) (json : CString) (space : Option CString) :
    Requests (Option CString) := do
  match ← jsonDecode F A (json.bytes.length + 1) json with
  | none => return none
  | some v => return some (← jsonStringify F A' v space)

/-- How a text that is read and written again ends the program: for want of memory, of the
decoder or of the encoder of its value. -/
def RecodeStops (F : Floating) (A A' : Allocator UInt8) (json : CString) (space : Option CString)
    (e : Stop) : Prop :=
  OutOfMemory A json.bytes.length e ∨
    ∃ v, JsonText F json.bytes v ∧ OutOfMemory A' (textLimit space v) e

/-- **A text that is read and written again**: no assertion fails, and the new text is one
of the value that was read, unless a string in it has U+001F. -/
theorem jsonDecode_jsonStringify (hformat : ∀ x, (F.format x).bytes.length < 64)
    {space : Option CString} (hspace : Indentation space) (json : CString) :
    Gives (RecodeStops F A A' json space) (recode F A A' json space) fun r =>
      (r = none ↔ ¬ ∃ v, JsonText F json.bytes v) ∧
        ∀ str, r = some str → ∃ v, JsonText F json.bytes v ∧
          ((∀ s ∈ strings v, NoSeparator s) → JsonText F str.bytes (readBack F v)) ∧
            ((∃ s ∈ strings v, ¬ NoSeparator s) → ¬ ∃ v', JsonText F str.bytes v') := by
  refine ((gives_lift (jsonDecode_yields json (Nat.lt_succ_self _))).allow fun _ => .inl).bind ?_
  intro r hr
  cases r with
  | none =>
      refine gives_pure ⟨iff_of_true rfl ?_, fun str h => nomatch h⟩
      rintro ⟨v, hv⟩
      cases (hr v).mpr hv
  | some v =>
      have hv := (hr v).mp rfl
      refine ((jsonStringify_gives hformat hspace v).allow ?_).bind ?_
      · rintro e (hmemory | ⟨-, s, hs, hno⟩)
        · exact .inr ⟨v, hv, hmemory⟩
        · exact absurd (strings_of_text hv s hs).1 hno
      · rintro str ⟨-, -, hwritten⟩
        refine gives_pure ⟨iff_of_false (by simp) (not_not.mpr ⟨v, hv⟩), ?_⟩
        rintro _ ⟨⟩
        refine ⟨v, hv, fun hno => jsonText_of_derives (hwritten.text hno), ?_⟩
        rintro ⟨s, hs, hsep⟩ hjson
        exact hsep ((written_jsonText_iff hwritten).mp hjson s hs)

/-- A text has one value, the one that is decoded. -/
theorem jsonText_unique {json : CString} {v v' : JsonTree F.double}
    (hsize : 2 * (json.bytes.length + 16) ≤ ptrdiffMax) (h : JsonText F json.bytes v)
    (h' : JsonText F json.bytes v') : v = v' := by
  obtain ⟨r, -, hr⟩ := returns_of_granted (A := generous true 0) (fun _ => rfl) hsize
    (jsonDecode_yields (F := F) json (Nat.lt_succ_self _))
  exact Option.some.inj (((hr v).mpr h).symm.trans ((hr v').mpr h'))

/-- The text of an object with a string becomes another text of that object. -/
theorem jsonDecode_jsonStringify_member :
    Gives (fun _ => False) (recode digitNumbers (generous true 0) (generous true 0) memberText none)
      fun r => ∃ str, r = some str ∧ JsonText digitNumbers str.bytes memberValue := by
  have hsize : 2 * (memberText.bytes.length + 16) ≤ ptrdiffMax := by decide
  have htext := memberText_jsonText
  generalize memberText = json at hsize htext ⊢
  have hstops : ∀ e,
      ¬ RecodeStops digitNumbers (generous true 0) (generous true 0) json none e := by
    rintro e (hmemory | ⟨v, hv, hmemory⟩)
    · exact not_outOfMemory (fun _ => rfl) hsize hmemory
    · rw [jsonText_unique hsize hv htext] at hmemory
      exact not_outOfMemory (fun _ => rfl) (by decide) hmemory
  refine ((jsonDecode_jsonStringify digitNumbers_format indentation_none json).allow
    hstops).mono ?_
  rintro r ⟨hnone, hsome⟩
  cases r with
  | none => exact absurd ⟨memberValue, htext⟩ (hnone.mp rfl)
  | some str =>
      obtain ⟨v, hv, hplain, -⟩ := hsome str rfl
      obtain rfl := jsonText_unique hsize hv htext
      exact ⟨str, rfl, hplain memberValue_plain⟩

/-- What reading a literal that was written for the string gives: the string, unless it has
U+001F, when the literal is rejected. -/
def ReadsBack (F : Floating) (A A' : Allocator UInt8) (str : CString)
    (encoded : Requests CString) : Prop :=
  Gives (RoundTripStops A A' (stringLimit str) [str]) (do
      let literal ← encoded
      jsonDecode F A' (literal.bytes.length + 1) literal) fun r =>
    IsText str ∧ (NoSeparator str → r = some (.JSON_STRING str)) ∧ (¬ NoSeparator str → r = none)

/-- **A string literal that is written and read back**, by `json_encode_string` or with
either value of `escape_unicode`. -/
theorem jsonEncodeString_jsonDecode (escapes : Bool) (str : CString) :
    ReadsBack F A A' str (jsonEncodeString A str) ∧
      ReadsBack F A A' str (inBuffer A (emitStringWith A escapes str)) := by
  have hboth : ∀ escapes, ReadsBack F A A' str (inBuffer A (emitStringWith A escapes str)) := by
    intro escapes
    have hemits : Emits A (stringLimit str) [str] (emitStringWith A escapes str) fun w =>
        Derives F (.value (.JSON_STRING str)) w :=
      (emitStringWith_emits escapes str).mono le_rfl fun _ => .string
    refine ((inBuffer_gives hemits).allow fun _ => .inl).bind ?_
    rintro literal ⟨htext, hlen, hwritten⟩
    refine (gives_lift (jsonDecode_written hwritten hlen)).allow (fun _ => .inr) |>.mono ?_
    rintro r ⟨hsome, hnone⟩
    refine ⟨List.forall_mem_singleton.mp htext, fun hno => ?_, fun hsep => ?_⟩
    · exact hsome (List.forall_mem_singleton.mpr hno)
    · exact hnone ⟨str, List.mem_singleton_self str, hsep⟩
  exact ⟨hboth false, hboth escapes⟩

end AzureMetadata.Analysis
