import AzureMetadata.Analysis.JsonEmitStrings
import AzureMetadata.Analysis.JsonNumbers

/-!
# Writing values

What `emit_value` and `emit_value_indented` append is a text of the value as it is read
back, provided that its strings have no U+001F, and no longer than `limit` says.  Both loops
over children are followed with what they leave in front of the closing bracket.
-/

set_option autoImplicit false

namespace AzureMetadata.Analysis

open Clib Scanner AzureMetadata.Model AzureMetadata.Interface

variable {F : Floating} {A : Allocator UInt8} {w b : List UInt8} {space : CString}
  {indent_level n : ℕ}

/-! ## Numbers -/

/-- **`number_is_valid` decides the grammar of numbers.** -/
theorem numberIsValid_eq (num : CString) : ∃ valid, numberIsValid F num = .ok valid ∧
    (valid = true ↔ NumberText num.bytes) := by
  have hparse : Parses (fun _ => False) (parseNumber F false) num.bytes fun _ w _ =>
      NumberText w := parseNumber_parses.mono fun _ _ _ _ h => h.1
  have hread : NumberText num.bytes → Reads (fun _ => False) (parseNumber F false)
      (num.bytes ++ [0]) (given false (F.value num.bytes)) [0] := fun h =>
    parseNumber_reads (c := 0) h (by decide)
  unfold numberIsValid
  cases hrun : parseNumber F false (num.bytes ++ [0]) 0 with
  | error e => exact ((hparse 0).of_error hrun).elim
  | ok r =>
      obtain ⟨_ | ⟨a, s⟩, st⟩ := r
      · refine ⟨false, rfl, iff_of_false (by decide) ?_⟩
        intro h
        have hok := (hread h 0).of_ok hrun
        simp at hok
      · have hok := (hparse 0).of_ok hrun
        obtain ⟨w, t', ht, rfl, hw⟩ := hok a s rfl
        cases t' with
        | nil =>
            rw [List.append_nil] at ht
            exact ⟨true, rfl, iff_of_true rfl (ht ▸ hw)⟩
        | cons c t' =>
            have hc : c ≠ 0 := by
              rintro rfl
              exact num.noNul (by simp [ht])
            refine ⟨false, ?_, iff_of_false (by decide) ?_⟩
            · show Except.ok (decide (c = 0)) = _
              rw [decide_eq_false hc]
            · intro h
              have hok := (hread h 0).of_ok hrun
              simp at hok

/-- `emit_number`, for a `sprintf` that stays inside `buf`. -/
theorem emitNumber_emits (hformat : ∀ x, (F.format x).bytes.length < 64) (x : F.double) :
    Emits A 64 [] (emitNumber F A x) fun w => Derives F (.value (readBackNumber F x)) w := by
  obtain ⟨valid, he, hvalid⟩ := numberIsValid_eq (F := F) (F.format x)
  have hlen := hformat x
  intro sb text m hb hm
  unfold emitNumber
  rw [if_neg (by omega)]
  refine gives_call_bind he ?_
  cases valid with
  | true =>
      have htext := hvalid.mp rfl
      rw [if_pos rfl, readBackNumber, if_pos htext]
      refine (emits_puts _ (by omega) (F.format x).noNul).mono hlen.le ?_ sb text m hb hm
      rintro w rfl
      exact .number htext
  | false =>
      have htext : ¬ NumberText (F.format x).bytes := fun h => nomatch hvalid.mpr h
      rw [if_neg (by decide), readBackNumber, if_neg htext]
      refine (emits_puts _ (by decide) (by decide)).mono (by decide) ?_ sb text m hb hm
      rintro w rfl
      exact .null

/-! ## Children -/

/-- What the loop over elements leaves in front of the closing bracket. -/
def ElementsText (F : Floating) : List (JsonTree F.double) → List UInt8 → Prop
  | [], w => w = []
  | v :: vs, w => ∃ b w', Blank b ∧ w = b ++ w' ∧
      ∀ b', Blank b' → Derives F (.elements (v :: vs)) (w' ++ (b' ++ [chr ']']))

/-- What the loop over members leaves in front of the closing brace. -/
def MembersText (F : Floating) : List (CString × JsonTree F.double) → List UInt8 → Prop
  | [], w => w = []
  | m :: ms, w => ∃ b w', Blank b ∧ w = b ++ w' ∧
      ∀ b', Blank b' → Derives F (.members (m :: ms)) (w' ++ (b' ++ [chr '}']))

/-- Blanks may follow blanks. -/
theorem blank_append {b' : List UInt8} (hb : Blank b) (hb' : Blank b') : Blank (b ++ b') := by
  intro c hc
  rcases List.mem_append.mp hc with hc | hc
  · exact hb c hc
  · exact hb' c hc

/-- There may be none. -/
theorem blank_nil : Blank [] := fun _ hc => nomatch hc

/-- A space is one. -/
theorem blank_space : Blank (ascii " ") := by
  intro c hc
  rw [List.mem_singleton.mp hc]
  exact .inl rfl

/-- So is a line feed. -/
theorem blank_newline : Blank (ascii "\n") := by
  intro c hc
  rw [List.mem_singleton.mp hc]
  exact .inr (.inr (.inl rfl))

section Texts

variable {v : JsonTree F.double} {vs : List (JsonTree F.double)}
  {ms : List (CString × JsonTree F.double)} {b' w' : List UInt8}

/-- One element is a text of elements. -/
theorem elementsText_last (hb : Blank b) (hw : Derives F (.value v) w) (hb' : Blank b') :
    ElementsText F [v] (b ++ (w ++ b')) := by
  refine ⟨b, w ++ b', hb, rfl, fun b'' hb'' => ?_⟩
  have hall := Derives.lastElement hw (blank_append hb' hb'')
  simpa using hall

/-- So is an element before others. -/
theorem elementsText_cons {v' : JsonTree F.double} (hb : Blank b) (hw : Derives F (.value v) w)
    (hb' : Blank b') (hrest : ElementsText F (v' :: vs) w') :
    ElementsText F (v :: v' :: vs) (b ++ (w ++ (chr ',' :: b' ++ w'))) := by
  obtain ⟨b₁, w₁, hb₁, rfl, hclose⟩ := hrest
  refine ⟨b, w ++ (chr ',' :: b' ++ (b₁ ++ w₁)), hb, rfl, fun b'' hb'' => ?_⟩
  have hall := Derives.element hw blank_nil (blank_append hb' hb₁) (hclose b'' hb'')
  simpa using hall

/-- One member is a text of members. -/
theorem membersText_last {k b₁ : List UInt8} {key : CString} (hb : Blank b)
    (hk : StringText k key) (hb₁ : Blank b₁) (hw : Derives F (.value v) w) (hb' : Blank b') :
    MembersText F [(key, v)] (b ++ (k ++ (chr ':' :: b₁ ++ (w ++ b')))) := by
  refine ⟨b, k ++ (chr ':' :: b₁ ++ (w ++ b')), hb, rfl, fun b'' hb'' => ?_⟩
  have hall := Derives.lastMember hk blank_nil hb₁ hw (blank_append hb' hb'')
  simpa using hall

/-- So is a member before others. -/
theorem membersText_cons {k b₁ : List UInt8} {key : CString} {m : CString × JsonTree F.double}
    (hb : Blank b) (hk : StringText k key) (hb₁ : Blank b₁) (hw : Derives F (.value v) w)
    (hb' : Blank b') (hrest : MembersText F (m :: ms) w') :
    MembersText F ((key, v) :: m :: ms)
      (b ++ (k ++ (chr ':' :: b₁ ++ (w ++ (chr ',' :: b' ++ w'))))) := by
  obtain ⟨b₂, w₂, hb₂, rfl, hclose⟩ := hrest
  refine ⟨b, k ++ (chr ':' :: b₁ ++ (w ++ (chr ',' :: b' ++ (b₂ ++ w₂)))), hb, rfl,
    fun b'' hb'' => ?_⟩
  have hall := Derives.member hk blank_nil hb₁ hw blank_nil (blank_append hb' hb₂)
    (hclose b'' hb'')
  simpa using hall

/-- In brackets the elements are an array. -/
theorem array_of_elementsText (hb : Blank b) (h : ElementsText F vs w) (hb' : Blank b') :
    Derives F (.value (.JSON_ARRAY vs)) (chr '[' :: b ++ (w ++ (b' ++ [chr ']']))) := by
  cases vs with
  | nil =>
      cases h
      have hall := Derives.array (blank_append hb hb') (.noElement (F := F))
      simpa using hall
  | cons v vs =>
      obtain ⟨b₁, w₁, hb₁, rfl, hclose⟩ := h
      have hall := Derives.array (blank_append hb hb₁) (hclose b' hb')
      simpa using hall

/-- In braces the members are an object. -/
theorem object_of_membersText (hb : Blank b) (h : MembersText F ms w) (hb' : Blank b') :
    Derives F (.value (.JSON_OBJECT ms)) (chr '{' :: b ++ (w ++ (b' ++ [chr '}']))) := by
  cases ms with
  | nil =>
      cases h
      have hall := Derives.object (blank_append hb hb') (.noMember (F := F))
      simpa using hall
  | cons m ms =>
      obtain ⟨b₁, w₁, hb₁, rfl, hclose⟩ := h
      have hall := Derives.object (blank_append hb hb₁) (hclose b' hb')
      simpa using hall

end Texts

/-! ## `emit_value` -/

/-- The comma between two children. -/
theorem emitComma_emits {α : Type} (next : List α) :
    Emits A 1 [] (emitComma A next) fun w => w = if next.isEmpty then [] else [chr ','] := by
  cases next with
  | nil =>
      have hnone : Emits A 0 [] (emitComma A ([] : List α)) fun w => w = [] := emits_pure rfl
      exact hnone.mono (Nat.zero_le _) fun _ => id
  | cons a next => exact emits_putc (by decide)

/-- The loop of `emit_array`. -/
theorem emitElements_emits {vs : List (JsonTree F.double)} (level : ℕ)
    (h : ∀ v ∈ vs, ∀ level, Emits A (limit 0 v level) (strings v) (emitValue F A v) fun w =>
      Derives F (.value (readBack F v)) w) :
    Emits A (elementsLimit 0 vs level) (elementStrings vs) (emitElements F A vs)
      (ElementsText F (readBackElements F vs)) := by
  induction vs with
  | nil => exact emits_pure rfl
  | cons v vs ih =>
      have hrest := ih fun v' hv' => h v' (by simp [hv'])
      refine ((h v (by simp) (level + 1)).seq ((emitComma_emits vs).before hrest)).mono
        (by rw [elementsLimit]; omega) ?_
      rintro _ ⟨w, _, rfl, hw, c, w', rfl, rfl, hw'⟩
      cases vs with
      | nil =>
          cases hw'
          simpa [readBackElements] using elementsText_last blank_nil hw blank_nil
      | cons v' vs => exact elementsText_cons blank_nil hw blank_nil hw'

/-- The loop of `emit_object`. -/
theorem emitMembers_emits {ms : List (CString × JsonTree F.double)} (level : ℕ)
    (h : ∀ m ∈ ms, ∀ level, Emits A (limit 0 m.2 level) (strings m.2) (emitValue F A m.2) fun w =>
      Derives F (.value (readBack F m.2)) w) :
    Emits A (membersLimit 0 ms level) (memberStrings ms) (emitMembers F A ms)
      (MembersText F (readBackMembers F ms)) := by
  induction ms with
  | nil => exact emits_pure rfl
  | cons m ms ih =>
      obtain ⟨key, v⟩ := m
      have hrest := ih fun m hm => h m (by simp [hm])
      have hv : Emits A (limit 0 v (level + 1)) (strings v) (emitValue F A v) fun w =>
          Derives F (.value (readBack F v)) w := h (key, v) (by simp) (level + 1)
      have hvalue := hv.seq ((emitComma_emits (A := A) ms).before hrest)
      have hcolon := (emits_putc (A := A) (c := chr ':') (by decide)).before hvalue
      refine ((emitStringWith_emits false key).seq hcolon).mono
        (by rw [membersLimit]; omega) ?_
      rintro _ ⟨k, _, rfl, hk, _, _, rfl, rfl, w, _, rfl, hw, c, w', rfl, rfl, hw'⟩
      cases ms with
      | nil =>
          cases hw'
          simpa [readBackMembers] using membersText_last blank_nil hk blank_nil hw blank_nil
      | cons m ms => exact membersText_cons blank_nil hk blank_nil hw blank_nil hw'

/-- `emit_array`, around what writes the elements. -/
theorem emitArray_emits {strs : List CString} {elements : SB → Requests SB}
    {vs : List (JsonTree F.double)} (h : Emits A n strs elements (ElementsText F vs)) :
    Emits A (n + 2) strs (emitArray A elements) fun w =>
      Derives F (.value (.JSON_ARRAY vs)) w := by
  refine ((emits_putc (by decide)).before (h.after (emits_putc (by decide)))).mono
    (by omega) ?_
  rintro _ ⟨_, _, rfl, rfl, w, _, rfl, hw, rfl⟩
  exact array_of_elementsText blank_nil hw blank_nil

/-- `emit_object`, around what writes the members. -/
theorem emitObject_emits {strs : List CString} {members : SB → Requests SB}
    {ms : List (CString × JsonTree F.double)} (h : Emits A n strs members (MembersText F ms)) :
    Emits A (n + 2) strs (emitObject A members) fun w =>
      Derives F (.value (.JSON_OBJECT ms)) w := by
  refine ((emits_putc (by decide)).before (h.after (emits_putc (by decide)))).mono
    (by omega) ?_
  rintro _ ⟨_, _, rfl, rfl, w, _, rfl, hw, rfl⟩
  exact object_of_membersText blank_nil hw blank_nil

/-- **`emit_value` writes a text of the value.** -/
theorem emitValue_emits (hformat : ∀ x, (F.format x).bytes.length < 64) (v : JsonTree F.double)
    (level : ℕ) :
    Emits A (limit 0 v level) (strings v) (emitValue F A v) fun w =>
      Derives F (.value (readBack F v)) w := by
  induction v generalizing level with
  | null =>
      refine (emits_puts (ascii "null") (by decide) (by decide)).mono (show 4 ≤ 64 by decide) ?_
      rintro w rfl
      exact .null
  | bool b =>
      cases b with
      | false =>
          refine (emits_puts (ascii "false") (by decide) (by decide)).mono
            (show 5 ≤ 64 by decide) ?_
          rintro w rfl
          exact .false
      | true =>
          refine (emits_puts (ascii "true") (by decide) (by decide)).mono
            (show 4 ≤ 64 by decide) ?_
          rintro w rfl
          exact .true
  | string s => exact (emitStringWith_emits false s).mono le_rfl fun _ => .string
  | number x => exact emitNumber_emits hformat x
  | array children ih =>
      exact (emitArray_emits (emitElements_emits level ih)).mono
        (by rw [limit]; omega) fun _ => id
  | object children ih =>
      exact (emitObject_emits (emitMembers_emits level ih)).mono
        (by rw [limit]; omega) fun _ => id

/-! ## `emit_value_indented` -/

/-- The blanks in front of a line. -/
theorem emitIndent_emits (hspace : Blank space.bytes) (hlen : space.bytes.length < 2 ^ 31) (n : ℕ) :
    Emits A (space.bytes.length * n) [] (emitIndent A space n) Blank := by
  induction n with
  | zero => exact emits_pure blank_nil
  | succ n ih =>
      refine ((emits_puts _ hlen space.noNul).before ih).mono
        (by rw [Nat.mul_succ]; omega) ?_
      rintro _ ⟨_, w, rfl, rfl, hw⟩
      exact blank_append hspace hw

/-- The end of a line. -/
theorem emitNewline_emits {α : Type} (next : List α) : Emits A 2 [] (emitNewline A next) fun w =>
    w = if next.isEmpty then ascii "\n" else chr ',' :: ascii "\n" := by
  cases next with
  | nil => exact (emits_puts (ascii "\n") (by decide) (by decide)).mono (by decide) fun _ => id
  | cons a next => exact emits_puts (ascii ",\n") (by decide) (by decide)

/-- The loop of `emit_array_indented`. -/
theorem emitElementsIndented_emits (hspace : Blank space.bytes)
    (hlen : space.bytes.length < 2 ^ 31) {vs : List (JsonTree F.double)}
    (h : ∀ v ∈ vs, ∀ level, Emits A (limit space.bytes.length v level) (strings v)
      (emitValueIndented F A space v level) fun w => Derives F (.value (readBack F v)) w) :
    Emits A (elementsLimit space.bytes.length vs indent_level) (elementStrings vs)
      (emitElementsIndented F A space vs indent_level)
      (ElementsText F (readBackElements F vs)) := by
  induction vs with
  | nil => exact emits_pure rfl
  | cons v vs ih =>
      have hrest := ih fun v' hv' => h v' (by simp [hv'])
      have hvalue := (h v (by simp) (indent_level + 1)).seq
        ((emitNewline_emits (A := A) vs).before hrest)
      refine ((emitIndent_emits hspace hlen (indent_level + 1)).before hvalue).mono
        (by rw [elementsLimit]; omega) ?_
      rintro _ ⟨b, _, rfl, hb, w, _, rfl, hw, c, w', rfl, rfl, hw'⟩
      cases vs with
      | nil =>
          cases hw'
          simpa [readBackElements] using elementsText_last hb hw blank_newline
      | cons v' vs => exact elementsText_cons hb hw blank_newline hw'

/-- The loop of `emit_object_indented`. -/
theorem emitMembersIndented_emits (hspace : Blank space.bytes)
    (hlen : space.bytes.length < 2 ^ 31) {ms : List (CString × JsonTree F.double)}
    (h : ∀ m ∈ ms, ∀ level, Emits A (limit space.bytes.length m.2 level) (strings m.2)
      (emitValueIndented F A space m.2 level) fun w => Derives F (.value (readBack F m.2)) w) :
    Emits A (membersLimit space.bytes.length ms indent_level) (memberStrings ms)
      (emitMembersIndented F A space ms indent_level)
      (MembersText F (readBackMembers F ms)) := by
  induction ms with
  | nil => exact emits_pure rfl
  | cons m ms ih =>
      obtain ⟨key, v⟩ := m
      have hrest := ih fun m hm => h m (by simp [hm])
      have hv : Emits A (limit space.bytes.length v (indent_level + 1)) (strings v)
          (emitValueIndented F A space v (indent_level + 1)) fun w =>
            Derives F (.value (readBack F v)) w := h (key, v) (by simp) (indent_level + 1)
      have hvalue := hv.seq ((emitNewline_emits (A := A) ms).before hrest)
      have hcolon := (emits_puts (A := A) (ascii ": ") (by decide) (by decide)).before
        hvalue
      refine ((emitIndent_emits hspace hlen (indent_level + 1)).before
        ((emitStringWith_emits false key).seq hcolon)).mono ?_ ?_
      · have htwo : (ascii ": ").length = 2 := rfl
        rw [membersLimit]
        omega
      rintro _ ⟨b, _, rfl, hb, k, _, rfl, hk, _, _, rfl, rfl, w, _, rfl, hw, c, w', rfl, rfl, hw'⟩
      cases ms with
      | nil =>
          cases hw'
          have hcolon : ascii ": " = chr ':' :: ascii " " := rfl
          simpa [readBackMembers, hcolon] using membersText_last hb hk blank_space hw blank_newline
      | cons m ms => exact membersText_cons hb hk blank_space hw blank_newline hw'

/-- `emit_array_indented`, around what writes the elements. -/
theorem emitArrayIndented_emits (hspace : Blank space.bytes) (hlen : space.bytes.length < 2 ^ 31)
    {vs : List (JsonTree F.double)} {elements : SB → Requests SB}
    (h : Emits A n (elementStrings vs) elements (ElementsText F (readBackElements F vs))) :
    Emits A (n + space.bytes.length * indent_level + 4) (elementStrings vs)
      (emitArrayIndented A vs elements space indent_level) fun w =>
        Derives F (.value (.JSON_ARRAY (readBackElements F vs))) w := by
  cases vs with
  | nil =>
      refine (emits_puts (ascii "[]") (by decide) (by decide)).mono
        (show 2 ≤ _ by omega) ?_
      rintro w rfl
      have hempty : ElementsText F [] [] := rfl
      exact array_of_elementsText blank_nil hempty blank_nil
  | cons v vs =>
      refine ((emits_puts (ascii "[\n") (by decide) (by decide)).before
        (h.after ((emitIndent_emits hspace hlen indent_level).before
          (emits_putc (by decide))))).mono (show 2 + _ ≤ _ by omega) ?_
      rintro _ ⟨_, _, rfl, rfl, w, _, rfl, hw, b, _, rfl, hb, rfl⟩
      exact array_of_elementsText blank_newline hw hb

/-- `emit_object_indented`, around what writes the members. -/
theorem emitObjectIndented_emits (hspace : Blank space.bytes) (hlen : space.bytes.length < 2 ^ 31)
    {ms : List (CString × JsonTree F.double)} {members : SB → Requests SB}
    (h : Emits A n (memberStrings ms) members (MembersText F (readBackMembers F ms))) :
    Emits A (n + space.bytes.length * indent_level + 4) (memberStrings ms)
      (emitObjectIndented A ms members space indent_level) fun w =>
        Derives F (.value (.JSON_OBJECT (readBackMembers F ms))) w := by
  cases ms with
  | nil =>
      refine (emits_puts [chr '{', chr '}'] (by decide) (by decide)).mono
        (show 2 ≤ _ by omega) ?_
      rintro w rfl
      have hempty : MembersText F [] [] := rfl
      exact object_of_membersText blank_nil hempty blank_nil
  | cons m ms =>
      refine ((emits_puts [chr '{', chr '\n'] (by decide) (by decide)).before
        (h.after ((emitIndent_emits hspace hlen indent_level).before
          (emits_putc (by decide))))).mono (show 2 + _ ≤ _ by omega) ?_
      rintro _ ⟨_, _, rfl, rfl, w, _, rfl, hw, b, _, rfl, hb, rfl⟩
      exact object_of_membersText blank_newline hw hb

/-- **`emit_value_indented` writes a text of the value**, with any blanks for indentation. -/
theorem emitValueIndented_emits (hspace : Blank space.bytes) (hlen : space.bytes.length < 2 ^ 31)
    (hformat : ∀ x, (F.format x).bytes.length < 64) (v : JsonTree F.double) :
    Emits A (limit space.bytes.length v indent_level) (strings v)
      (emitValueIndented F A space v indent_level) fun w =>
        Derives F (.value (readBack F v)) w := by
  induction v generalizing indent_level with
  | null => exact emitValue_emits hformat .JSON_NULL indent_level
  | bool b => exact emitValue_emits hformat (.JSON_BOOL b) indent_level
  | string s => exact emitValue_emits hformat (.JSON_STRING s) indent_level
  | number x => exact emitValue_emits hformat (.JSON_NUMBER x) indent_level
  | array children ih =>
      exact emitArrayIndented_emits hspace hlen
        (emitElementsIndented_emits hspace hlen fun v hv level => ih v hv)
  | object children ih =>
      exact emitObjectIndented_emits hspace hlen
        (emitMembersIndented_emits hspace hlen fun m hm level => ih m hm)

end AzureMetadata.Analysis
