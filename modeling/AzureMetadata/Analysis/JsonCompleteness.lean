import AzureMetadata.Analysis.JsonSoundness

/-!
# The parser accepts every JSON text

By induction on the derivation of the text: with as many frames as the value is deep the
parser reads it, with fewer the stack overflows.  A loop over elements is followed through
its rounds with what has been collected so far in front.
-/

set_option autoImplicit false

namespace AzureMetadata.Analysis

open Clib Scanner AzureMetadata.Model AzureMetadata.Interface

variable {F : Floating} {A : Allocator UInt8} {Allowed : Stop → Prop} {s t w b : List UInt8}
  {c : UInt8} {out : Bool} {frames : ℕ}

/-! ## The first character of a value -/

/-- A character that begins a value. -/
def isStart (c : UInt8) : Bool :=
  !isJsonSpace c && decide (c ≠ chr ']' ∧ c ≠ chr '}' ∧ c ≠ 0)

/-- The characters that start a number start no other value. -/
theorem isStart_of_number : ∀ c : UInt8, c = chr '-' ∨ isDigit c = true →
    isStart c = true ∧ c ≠ chr 'n' ∧ c ≠ chr 'f' ∧ c ≠ chr 't' ∧ c ≠ chr '"' ∧ c ≠ chr '[' ∧
      c ≠ chr '{' :=
  forall_uint8 (by decide +kernel)

/-- A number starts with a sign or a digit. -/
theorem head_of_number (h : NumberText w) :
    ∃ a w', w = a :: w' ∧ (a = chr '-' ∨ isDigit a = true) := by
  obtain ⟨sign, whole, f, x, hsign, hwhole, -, -, rfl⟩ := h
  obtain ⟨b, d', rfl⟩ := List.exists_cons_of_ne_nil (digits_of_whole hwhole).1
  rcases hsign with rfl | rfl
  · exact ⟨b, _, rfl, .inr ((digits_of_whole hwhole).2 b (by simp))⟩
  · exact ⟨chr '-', _, rfl, .inl rfl⟩

/-- A value starts with a character that is no white space. -/
theorem head_of_value {v : JsonTree F.double} (h : Derives F (.value v) w) :
    ∃ a w', w = a :: w' ∧ isStart a = true := by
  cases h with
  | null => exact ⟨_, _, rfl, by decide⟩
  | false => exact ⟨_, _, rfl, by decide⟩
  | true => exact ⟨_, _, rfl, by decide⟩
  | string hw =>
      obtain ⟨body, cs, rfl, -⟩ := hw
      exact ⟨_, _, rfl, by decide⟩
  | number hw =>
      obtain ⟨a, w', rfl, ha⟩ := head_of_number hw
      exact ⟨a, w', rfl, (isStart_of_number a ha).1⟩
  | array hb hw => exact ⟨_, _, rfl, by decide⟩
  | object hb hw => exact ⟨_, _, rfl, by decide⟩

/-- So do the elements of an array. -/
theorem head_of_elements {v : JsonTree F.double} {vs : List (JsonTree F.double)}
    (h : Derives F (.elements (v :: vs)) w) : ∃ a w', w = a :: w' ∧ isStart a = true := by
  cases h with
  | lastElement hw hb =>
      obtain ⟨a, w', rfl, ha⟩ := head_of_value hw
      exact ⟨a, _, rfl, ha⟩
  | element hw hb hb' hw' =>
      obtain ⟨a, w', rfl, ha⟩ := head_of_value hw
      exact ⟨a, _, rfl, ha⟩

/-- The members of an object start with a quote. -/
theorem head_of_members {m : CString × JsonTree F.double} {ms : List (CString × JsonTree F.double)}
    (h : Derives F (.members (m :: ms)) w) : ∃ w', w = chr '"' :: w' := by
  cases h with
  | lastMember hk =>
      obtain ⟨body, cs, rfl, -⟩ := hk
      exact ⟨_, rfl⟩
  | member hk =>
      obtain ⟨body, cs, rfl, -⟩ := hk
      exact ⟨_, rfl⟩

/-! ## Reading -/

/-- Blanks are white space to the parser. -/
theorem isJsonSpace_of_blank (hb : Blank b) : ∀ c ∈ b, isJsonSpace c = true := by
  intro c hc
  rcases hb c hc with rfl | rfl | rfl | rfl <;> decide

/-- They are skipped up to the first other character. -/
theorem skipSpace_reads (hb : Blank b) (hc : isJsonSpace c = false) :
    Reads Allowed skipSpace (b ++ c :: s) () (c :: s) :=
  reads_skipWhile (isJsonSpace_of_blank hb) hc

/-- So they are in front of a value. -/
theorem skipSpace_start {w : List UInt8} {a : UInt8} {w' : List UInt8} (hb : Blank b)
    (hw : w = a :: w') (ha : isStart a = true) :
    Reads Allowed skipSpace (b ++ (w ++ s)) () (w ++ s) := by
  have hspace : isJsonSpace a = false := by
    unfold isStart at ha
    simp only [Bool.and_eq_true, Bool.not_eq_true'] at ha
    exact ha.1
  rw [hw, List.cons_append]
  exact skipSpace_reads hb hspace

/-- To make a node reads nothing. -/
theorem mknode_reads {α : Type} (hexit : out = true → Allowed .exit) {a : α} :
    Reads Allowed (effect (mknode A (given out a))) s (given out a) s :=
  accepts_requests ((mknode_gives (m := 0)).allow fun _ he => mayExit_allowed hexit he)
    fun _ hr => ⟨hr, rfl⟩

/-- A word is read that is there. -/
theorem expectLiteral_reads {word : List UInt8} :
    Reads Allowed (expectLiteral word) (word ++ s) () s := by
  induction word with
  | nil => exact reads_pure
  | cons c word ih =>
      refine reads_next.bind ?_
      rw [if_neg (not_not.mpr rfl)]
      exact ih

/-- And its value is returned. -/
theorem parseWord_reads (hexit : out = true → Allowed .exit) {word : List UInt8}
    {v : JsonTree F.double} :
    Reads Allowed (parseWord F A out word v) (word ++ s) (given out v) s :=
  expectLiteral_reads.bind (mknode_reads hexit)

/-- The closing bracket ends the list. -/
theorem parseSeparator_close {β : Type} {ret : β} {close : UInt8} :
    Reads Allowed (parseSeparator close ret) (close :: s) (.inr ret) s := by
  refine reads_peek.bind ?_
  rw [if_pos rfl]
  exact reads_next.bind reads_pure

/-- A comma and blanks are read up to what follows. -/
theorem parseSeparator_comma {β : Type} {ret : β} {close a : UInt8} {w : List UInt8}
    (hclose : close ≠ chr ',') (hb : Blank b) {w' : List UInt8} (hw : w = a :: w')
    (ha : isStart a = true) :
    Reads Allowed (parseSeparator close ret) (chr ',' :: (b ++ (w ++ s))) (.inl ret) (w ++ s) := by
  refine reads_peek.bind ?_
  rw [if_neg hclose.symm]
  refine reads_next.bind ?_
  rw [if_neg (not_not.mpr rfl)]
  exact (skipSpace_start hb hw ha).bind reads_pure

/-- The scanner reads `w` as the value `v` wherever what follows may follow a value. -/
def ReadsAs (Allowed : Stop → Prop) (value : JsonScanner (Option (JsonTree F.double))) (out : Bool)
    (v : JsonTree F.double) (w : List UInt8) : Prop :=
  ∀ s, s ≠ [] → Follow s → Reads Allowed value (w ++ s) (given out v) s

/-- The rounds of the loop of `parse_array` read `w` as the elements `vs`. -/
def ReadsElements (Allowed : Stop → Prop) (value : JsonScanner (Option (JsonTree F.double)))
    (out : Bool) (vs : List (JsonTree F.double)) (w : List UInt8) : Prop :=
  ∀ before s, Loops Allowed .loopLimit (parseElement value) (given out before) (w ++ s)
    fun r s' => r = given out (before ++ vs) ∧ s' = s

/-- The rounds of the loop of `parse_object` read `w` as the members `ms`. -/
def ReadsMembers (A : Allocator UInt8) (Allowed : Stop → Prop)
    (value : JsonScanner (Option (JsonTree F.double))) (out : Bool)
    (ms : List (CString × JsonTree F.double)) (w : List UInt8) : Prop :=
  ∀ before s, Loops Allowed .loopLimit (parseMember A value out) (given out before) (w ++ s)
    fun r s' => r = given out (before ++ ms) ∧ s' = s

section Containers

variable {value : JsonScanner (Option (JsonTree F.double))} {v : JsonTree F.double}
  {vs : List (JsonTree F.double)} {ms : List (CString × JsonTree F.double)}

/-- A round of `parse_array` up to what follows the element. -/
theorem parseElement_reads (hv : ReadsAs Allowed value out v w) (hb : Blank b)
    (hc : isFollow c = true) (hspace : isJsonSpace c = false)
    {r : Option (List (JsonTree F.double)) ⊕ Option (List (JsonTree F.double))}
    {s' : List UInt8} (hsep : Reads Allowed
      (parseSeparator (chr ']') (given out (vs ++ [v]))) (c :: s) r s') :
    Reads Allowed (parseElement value (given out vs)) (w ++ (b ++ c :: s)) r s' := by
  refine (hv _ (by simp) (follow_blank hb hc)).bind ?_
  refine (skipSpace_reads hb hspace).bind ?_
  rw [appendTo_given]
  exact hsep

/-- The last element is followed by the bracket. -/
theorem readsElements_last (hv : ReadsAs Allowed value out v w) (hb : Blank b) :
    ReadsElements Allowed value out [v] (w ++ (b ++ [chr ']'])) := by
  intro before s
  have hassoc : w ++ (b ++ [chr ']']) ++ s = w ++ (b ++ chr ']' :: s) := by simp
  rw [hassoc]
  refine loops_last (by simp) ?_
  refine (parseElement_reads hv hb (by decide) (by decide) parseSeparator_close).mono ?_
  rintro _ _ ⟨rfl, rfl⟩
  exact ⟨_, rfl, rfl, rfl⟩

/-- Any other by a comma and the rest. -/
theorem readsElements_cons (hv : ReadsAs Allowed value out v w) (hb : Blank b) {b' w' : List UInt8}
    (hb' : Blank b') {a : UInt8} {w₁ : List UInt8} (hw' : w' = a :: w₁) (ha : isStart a = true)
    (hvs : ReadsElements Allowed value out vs w') :
    ReadsElements Allowed value out (v :: vs) (w ++ (b ++ chr ',' :: (b' ++ w'))) := by
  intro before s
  have hassoc : w ++ (b ++ chr ',' :: (b' ++ w')) ++ s =
      w ++ (b ++ chr ',' :: (b' ++ (w' ++ s))) := by simp
  rw [hassoc]
  refine loops_round (by simp) ?_
  refine (parseElement_reads hv hb (by decide) (by decide)
    (parseSeparator_comma (by decide) hb' hw' ha)).mono ?_
  rintro _ _ ⟨rfl, rfl⟩
  refine ⟨by simp only [List.length_append, List.length_cons]; omega, _, rfl, ?_⟩
  have hrest := hvs (before ++ [v]) s
  rwa [List.append_assoc] at hrest

/-- A round of `parse_object` up to what follows the member. -/
theorem parseMember_reads (hexit : out = true → Allowed .exit) {k b b' b'' : List UInt8}
    {key : CString} (hk : StringText k key) (hb : Blank b) (hb' : Blank b')
    (hv : ReadsAs Allowed value out v w) {a : UInt8} {w₁ : List UInt8} (hw : w = a :: w₁)
    (ha : isStart a = true) (hb'' : Blank b'')
    (hc : isFollow c = true) (hspace : isJsonSpace c = false)
    {r : Option (List (CString × JsonTree F.double)) ⊕ Option (List (CString × JsonTree F.double))}
    {s' : List UInt8} (hsep : Reads Allowed
      (parseSeparator (chr '}') (given out (ms ++ [(key, v)]))) (c :: s) r s') :
    Reads Allowed (parseMember A value out (given out ms))
      (k ++ (b ++ chr ':' :: (b' ++ (w ++ (b'' ++ c :: s))))) r s' := by
  refine (parseString_reads hexit hk).bind ?_
  refine (skipSpace_reads hb (by decide)).bind ?_
  refine reads_next.bind ?_
  rw [if_neg (not_not.mpr rfl)]
  refine (skipSpace_start hb' hw ha).bind ?_
  refine (hv _ (by simp) (follow_blank hb'' hc)).bind ?_
  refine (skipSpace_reads hb'' hspace).bind ?_
  rw [given_bind_mk, appendTo_given]
  exact hsep

/-- The last member is followed by the brace. -/
theorem readsMembers_last (hexit : out = true → Allowed .exit) {k b b' b'' : List UInt8}
    {key : CString} (hk : StringText k key) (hb : Blank b) (hb' : Blank b')
    (hv : ReadsAs Allowed value out v w) {a : UInt8} {w₁ : List UInt8} (hw : w = a :: w₁)
    (ha : isStart a = true) (hb'' : Blank b'') :
    ReadsMembers A Allowed value out [(key, v)]
      (k ++ (b ++ chr ':' :: (b' ++ (w ++ (b'' ++ [chr '}']))))) := by
  intro before s
  have hassoc : k ++ (b ++ chr ':' :: (b' ++ (w ++ (b'' ++ [chr '}'])))) ++ s =
      k ++ (b ++ chr ':' :: (b' ++ (w ++ (b'' ++ chr '}' :: s)))) := by simp
  rw [hassoc]
  refine loops_last (by simp) ?_
  refine (parseMember_reads hexit hk hb hb' hv hw ha hb'' (by decide) (by decide)
    parseSeparator_close).mono ?_
  rintro _ _ ⟨rfl, rfl⟩
  exact ⟨_, rfl, rfl, rfl⟩

/-- Any other by a comma and the rest. -/
theorem readsMembers_cons (hexit : out = true → Allowed .exit) {k b b' b'' b₃ w' : List UInt8}
    {key : CString} (hk : StringText k key) (hb : Blank b) (hb' : Blank b')
    (hv : ReadsAs Allowed value out v w) {a : UInt8} {w₁ : List UInt8} (hw : w = a :: w₁)
    (ha : isStart a = true) (hb'' : Blank b'') (hb₃ : Blank b₃) {w₂ : List UInt8}
    (hw' : w' = chr '"' :: w₂) (hms : ReadsMembers A Allowed value out ms w') :
    ReadsMembers A Allowed value out ((key, v) :: ms)
      (k ++ (b ++ chr ':' :: (b' ++ (w ++ (b'' ++ chr ',' :: (b₃ ++ w')))))) := by
  intro before s
  have hassoc : k ++ (b ++ chr ':' :: (b' ++ (w ++ (b'' ++ chr ',' :: (b₃ ++ w'))))) ++ s =
      k ++ (b ++ chr ':' :: (b' ++ (w ++ (b'' ++ chr ',' :: (b₃ ++ (w' ++ s)))))) := by simp
  rw [hassoc]
  refine loops_round (by simp) ?_
  refine (parseMember_reads hexit hk hb hb' hv hw ha hb'' (by decide) (by decide)
    (parseSeparator_comma (by decide) hb₃ hw' (by decide))).mono ?_
  rintro _ _ ⟨rfl, rfl⟩
  refine ⟨by simp only [List.length_append, List.length_cons]; omega, _, rfl, ?_⟩
  have hrest := hms (before ++ [(key, v)]) s
  rwa [List.append_assoc] at hrest

/-- What stands in an array behind the opening bracket. -/
def ReadsArray (Allowed : Stop → Prop) (value : JsonScanner (Option (JsonTree F.double)))
    (out : Bool) : List (JsonTree F.double) → List UInt8 → Prop
  | [], w => w = [chr ']']
  | v :: vs, w => (∃ a w', w = a :: w' ∧ isStart a = true) ∧
      ReadsElements Allowed value out (v :: vs) w

/-- What stands in an object behind the opening brace. -/
def ReadsObject (A : Allocator UInt8) (Allowed : Stop → Prop)
    (value : JsonScanner (Option (JsonTree F.double))) (out : Bool) :
    List (CString × JsonTree F.double) → List UInt8 → Prop
  | [], w => w = [chr '}']
  | m :: ms, w => (∃ w', w = chr '"' :: w') ∧ ReadsMembers A Allowed value out (m :: ms) w

/-- An array is read if its elements are. -/
theorem parseArray_reads (hexit : out = true → Allowed .exit) (hb : Blank b)
    (hvs : ReadsArray Allowed value out vs w) :
    Reads Allowed (parseArray A value out) (chr '[' :: (b ++ w) ++ s)
      (given out (.JSON_ARRAY vs)) s := by
  rw [List.cons_append, List.append_assoc]
  refine (mknode_reads hexit).bind (reads_next.bind ?_)
  rw [if_neg (not_not.mpr rfl)]
  cases vs with
  | nil =>
      cases hvs
      refine (skipSpace_reads hb (by decide)).bind (reads_peek.bind ?_)
      rw [if_pos rfl]
      refine reads_next.bind ?_
      rw [given_map]
      exact reads_pure
  | cons v vs =>
      obtain ⟨⟨a, w', hw, ha⟩, hvs⟩ := hvs
      refine (skipSpace_start hb hw ha).bind ?_
      have hclose : a ≠ chr ']' := by
        rintro rfl
        exact absurd ha (by decide)
      have hhead : w ++ s = a :: (w' ++ s) := by rw [hw, List.cons_append]
      refine Reads.bind (hhead ▸ reads_peek) ?_
      rw [if_neg hclose]
      refine (hvs [] s).accepts.bind ?_
      rintro _ _ ⟨rfl, rfl⟩
      rw [List.nil_append, given_map]
      exact reads_pure

/-- An object is read if its members are. -/
theorem parseObject_reads (hexit : out = true → Allowed .exit) (hb : Blank b)
    (hms : ReadsObject A Allowed value out ms w) :
    Reads Allowed (parseObject A value out) (chr '{' :: (b ++ w) ++ s)
      (given out (.JSON_OBJECT ms)) s := by
  rw [List.cons_append, List.append_assoc]
  refine (mknode_reads hexit).bind (reads_next.bind ?_)
  rw [if_neg (not_not.mpr rfl)]
  cases ms with
  | nil =>
      cases hms
      refine (skipSpace_reads hb (by decide)).bind (reads_peek.bind ?_)
      rw [if_pos rfl]
      refine reads_next.bind ?_
      rw [given_map]
      exact reads_pure
  | cons m ms =>
      obtain ⟨⟨w', hw⟩, hms⟩ := hms
      refine (skipSpace_start hb hw (by decide)).bind ?_
      have hhead : w ++ s = chr '"' :: (w' ++ s) := by rw [hw, List.cons_append]
      refine Reads.bind (hhead ▸ reads_peek) ?_
      rw [if_neg (by decide)]
      refine (hms [] s).accepts.bind ?_
      rintro _ _ ⟨rfl, rfl⟩
      rw [List.nil_append, given_map]
      exact reads_pure

end Containers

/-! ## Every value -/

/-- The texts of a symbol are read, with frames for the depth of its values. -/
def Readable (F : Floating) (A : Allocator UInt8) (Allowed : Stop → Prop) (out : Bool) :
    Symbol F.double → List UInt8 → Prop
  | .value v, w => ∀ frames, depth v ≤ frames →
      ReadsAs Allowed (parseValue F A out frames) out v w
  | .elements vs, w => ∀ frames, elementsDepth vs ≤ frames →
      ReadsArray Allowed (parseValue F A out frames) out vs w
  | .members ms, w => ∀ frames, membersDepth ms ≤ frames →
      ReadsObject A Allowed (parseValue F A out frames) out ms w

/-- A value needs a frame of its own. -/
theorem depth_pos {double : Type} (v : JsonTree double) : 0 < depth v := by
  cases v <;> simp [depth]

/-- A step of `parse_value`, which has a frame. -/
theorem parseValue_reads {v : JsonTree F.double}
    (h : ∀ frames, depth v ≤ frames + 1 →
      ReadsAs Allowed (parseValue F A out (frames + 1)) out v w) {frames : ℕ}
    (hframes : depth v ≤ frames) : ReadsAs Allowed (parseValue F A out frames) out v w := by
  cases frames with
  | zero =>
      have hpos := depth_pos v
      omega
  | succ frames => exact h frames hframes

/-- A number is read with one frame. -/
theorem parseValue_number (hexit : out = true → Allowed .exit) (hw : NumberText w) :
    ReadsAs Allowed (parseValue F A out (frames + 1)) out (.JSON_NUMBER (F.value w)) w := by
  intro s hs hfollow
  obtain ⟨d, s', rfl⟩ := List.exists_cons_of_ne_nil hs
  obtain ⟨a, w', ha, hstart⟩ := head_of_number hw
  obtain ⟨-, hn, hf, ht, hquote, hopen, hbrace⟩ := isStart_of_number a hstart
  have hhead : w ++ d :: s' = a :: (w' ++ d :: s') := by rw [ha, List.cons_append]
  refine Reads.bind (hhead ▸ reads_peek) ?_
  simp only [hn, hf, ht, hquote, hopen, hbrace, if_false]
  refine (parseNumber_reads hw hfollow).bind ?_
  rw [given_map]
  exact mknode_reads hexit

/-- So is `null`. -/
theorem parseValue_word_null (hexit : out = true → Allowed .exit) :
    ReadsAs Allowed (parseValue F A out (frames + 1)) out .JSON_NULL (ascii "null") := by
  intro s _ _
  refine Reads.bind (reads_peek (c := chr 'n')) ?_
  rw [if_pos rfl]
  exact parseWord_reads hexit

/-- So is `false`. -/
theorem parseValue_word_false (hexit : out = true → Allowed .exit) :
    ReadsAs Allowed (parseValue F A out (frames + 1)) out (.JSON_BOOL false) (ascii "false") := by
  intro s _ _
  refine Reads.bind (reads_peek (c := chr 'f')) ?_
  rw [if_neg (by decide), if_pos rfl]
  exact parseWord_reads hexit

/-- So is `true`. -/
theorem parseValue_word_true (hexit : out = true → Allowed .exit) :
    ReadsAs Allowed (parseValue F A out (frames + 1)) out (.JSON_BOOL true) (ascii "true") := by
  intro s _ _
  refine Reads.bind (reads_peek (c := chr 't')) ?_
  rw [if_neg (by decide), if_neg (by decide), if_pos rfl]
  exact parseWord_reads hexit

/-- So is a string. -/
theorem parseValue_string (hexit : out = true → Allowed .exit) {str : CString}
    (hw : StringText w str) :
    ReadsAs Allowed (parseValue F A out (frames + 1)) out (.JSON_STRING str) w := by
  intro s _ _
  obtain ⟨body, cs, hquote, -⟩ := id hw
  have hhead : w ++ s = chr '"' :: (body ++ [chr '"'] ++ s) := by simp [hquote]
  refine Reads.bind (hhead ▸ reads_peek) ?_
  simp only [if_true, show chr '"' ≠ chr 'n' by decide, show chr '"' ≠ chr 'f' by decide,
    show chr '"' ≠ chr 't' by decide, if_false]
  refine (parseString_reads hexit hw).bind ?_
  rw [given_map]
  exact mknode_reads hexit

/-- **Every text of a value is read** for that value, by induction on its derivation. -/
theorem derives_readable (hexit : out = true → Allowed .exit) {sym : Symbol F.double}
    (h : Derives F sym w) : Readable F A Allowed out sym w := by
  induction h with
  | null => exact fun _ => parseValue_reads fun _ _ => parseValue_word_null hexit
  | false => exact fun _ => parseValue_reads fun _ _ => parseValue_word_false hexit
  | true => exact fun _ => parseValue_reads fun _ _ => parseValue_word_true hexit
  | string hw => exact fun _ => parseValue_reads fun _ _ => parseValue_string hexit hw
  | number hw => exact fun _ => parseValue_reads fun _ _ => parseValue_number hexit hw
  | array hb _ ih =>
      refine fun _ => parseValue_reads fun frames hframes s _ _ => ?_
      refine Reads.bind (reads_peek (c := chr '[')) ?_
      simp only [show chr '[' ≠ chr 'n' by decide, show chr '[' ≠ chr 'f' by decide,
        show chr '[' ≠ chr 't' by decide, show chr '[' ≠ chr '"' by decide, if_false, if_true]
      exact parseArray_reads hexit hb (ih frames (by rw [depth] at hframes; omega))
  | object hb _ ih =>
      refine fun _ => parseValue_reads fun frames hframes s _ _ => ?_
      refine Reads.bind (reads_peek (c := chr '{')) ?_
      simp only [show chr '{' ≠ chr 'n' by decide, show chr '{' ≠ chr 'f' by decide,
        show chr '{' ≠ chr 't' by decide, show chr '{' ≠ chr '"' by decide,
        show chr '{' ≠ chr '[' by decide, if_false, if_true]
      exact parseObject_reads hexit hb (ih frames (by rw [depth] at hframes; omega))
  | noElement => exact fun _ _ => rfl
  | lastElement hw hb ih =>
      intro frames hframes
      rw [elementsDepth, elementsDepth] at hframes
      obtain ⟨a, w', rfl, ha⟩ := head_of_value hw
      exact ⟨⟨a, _, rfl, ha⟩, readsElements_last (ih frames (by omega)) hb⟩
  | @element w b b' w' v v' vs hw hb hb' hw' ih ih' =>
      intro frames hframes
      rw [elementsDepth] at hframes
      obtain ⟨a, w₁, rfl, ha⟩ := head_of_value hw
      obtain ⟨⟨a', w₂, hhead, ha'⟩, hvs⟩ := ih' frames (by omega)
      exact ⟨⟨a, _, rfl, ha⟩, readsElements_cons (ih frames (by omega)) hb hb' hhead ha' hvs⟩
  | noMember => exact fun _ _ => rfl
  | lastMember hk hb hb' hw hb'' ih =>
      intro frames hframes
      rw [membersDepth, membersDepth] at hframes
      obtain ⟨body, cs, hquote, -⟩ := id hk
      obtain ⟨a, w₁, hhead, ha⟩ := head_of_value hw
      exact ⟨⟨_, by rw [hquote]; rfl⟩,
        readsMembers_last hexit hk hb hb' (ih frames (by omega)) hhead ha hb''⟩
  | member hk hb hb' hw hb'' hc hw' ih ih' =>
      intro frames hframes
      rw [membersDepth] at hframes
      obtain ⟨body, cs, hquote, -⟩ := id hk
      obtain ⟨a, w₁, hhead, ha⟩ := head_of_value hw
      obtain ⟨⟨w₂, hhead'⟩, hms⟩ := ih' frames (by omega)
      exact ⟨⟨_, by rw [hquote]; rfl⟩,
        readsMembers_cons hexit hk hb hb' (ih frames (by omega)) hhead ha hb'' hc hhead' hms⟩

/-- The whole of a text. -/
theorem parseText_reads (hexit : out = true → Allowed .exit) {v : JsonTree F.double}
    (h : JsonText F t v) (hframes : depth v ≤ frames) :
    Accepts Allowed (parseText F A out frames) (t ++ [0]) fun r _ => r = given out v := by
  obtain ⟨b, w, b', hb, hw, hb', rfl⟩ := h
  have hassoc : b ++ (w ++ b') ++ [0] = b ++ (w ++ (b' ++ [0])) := by simp
  rw [hassoc]
  obtain ⟨a, w', hhead, ha⟩ := head_of_value hw
  refine (skipSpace_start hb hhead ha).bind ?_
  refine (derives_readable hexit hw frames hframes _ (by simp)
    (follow_blank hb' (by decide))).bind ?_
  refine (skipSpace_reads hb' (by decide)).bind (reads_peek.bind ?_)
  rw [if_neg (not_not.mpr rfl)]
  exact accepts_pure rfl

end AzureMetadata.Analysis
