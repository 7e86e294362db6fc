import AzureMetadata.Analysis.JsonCompleteness

/-!
# Decoding and validating

What `json_decode` and `json_validate` do with a text: both decide the grammar, and the
first returns the value of the text.  The stack is the only limit: a value needs as many
frames as it is deep, and no text needs more than it has characters.
-/

set_option autoImplicit false

namespace AzureMetadata.Analysis

open Clib Scanner AzureMetadata.Model AzureMetadata.Interface

variable {F : Floating} {A : Allocator UInt8} {Allowed : Stop → Prop} {s t w b : List UInt8}
  {out : Bool} {frames : ℕ}

/-! ## Too few frames -/

/-- The loop stops the program, however many rounds it is given. -/
def LoopHalts {β γ : Type} (Allowed : Stop → Prop) (body : β → JsonScanner (β ⊕ γ)) (b : β)
    (s : List UInt8) : Prop :=
  ∀ n, s.length ≤ n → Halts Allowed (loopFor .loopLimit body n b) s

/-- A loop halts whose round halts. -/
theorem loopHalts_first {β γ : Type} {body : β → JsonScanner (β ⊕ γ)} {b : β} (hs : s ≠ [])
    (h : Halts Allowed (body b) s) : LoopHalts Allowed body b s := fun _ hn =>
  loopFor_halts ((List.length_pos_of_ne_nil hs).trans_le hn) h

/-- So does one that halts after a round. -/
theorem loopHalts_round {β γ : Type} {body : β → JsonScanner (β ⊕ γ)} {b b' : β}
    {s' : List UInt8} (hlt : s'.length < s.length) (h : Reads Allowed (body b) s (.inl b') s')
    (hrest : LoopHalts Allowed body b' s') : LoopHalts Allowed body b s := by
  intro n hn
  cases n with
  | zero => omega
  | succ n => exact loopFor_halts_round h (hrest n (by omega))

/-- The texts of a symbol whose values are too deep for the frames stop the program. -/
def Overflows (F : Floating) (A : Allocator UInt8) (Allowed : Stop → Prop) (out : Bool) :
    Symbol F.double → List UInt8 → Prop
  | .value v, w => ∀ frames, frames < depth v → ∀ s, s ≠ [] → Follow s →
      Halts Allowed (parseValue F A out frames) (w ++ s)
  | .elements vs, w => ∀ frames, frames < elementsDepth vs → ∀ before s,
      LoopHalts Allowed (parseElement (parseValue F A out frames)) (given out before) (w ++ s)
  | .members ms, w => ∀ frames, frames < membersDepth ms → ∀ before s,
      LoopHalts Allowed (parseMember A (parseValue F A out frames) out) (given out before) (w ++ s)

/-- With one frame or more, a value that is not deep is no cause of an overflow. -/
theorem overflows_flat {v : JsonTree F.double} (hstack : Allowed .stackOverflow)
    (hdepth : depth v = 1) : Overflows F A Allowed out (.value v) w := by
  intro frames hframes s _ _
  cases frames with
  | zero => exact halts_halt hstack
  | succ frames => omega

/-- An array halts in its elements. -/
theorem parseArray_halts (hexit : out = true → Allowed .exit)
    {value : JsonScanner (Option (JsonTree F.double))} (hb : Blank b) {a : UInt8} {w' : List UInt8}
    (hw : w = a :: w') (ha : isStart a = true)
    (h : LoopHalts Allowed (parseElement value) (given out []) (w ++ s)) :
    Halts Allowed (parseArray A value out) (chr '[' :: (b ++ w) ++ s) := by
  rw [List.cons_append, List.append_assoc]
  refine (mknode_reads hexit).halts (reads_next.halts ?_)
  rw [if_neg (not_not.mpr rfl)]
  refine (skipSpace_start hb hw ha).halts ?_
  have hclose : a ≠ chr ']' := by
    rintro rfl
    exact absurd ha (by decide)
  have hhead : w ++ s = a :: (w' ++ s) := by rw [hw, List.cons_append]
  refine Reads.halts (hhead ▸ reads_peek) ?_
  rw [if_neg hclose]
  exact Halts.bind fun st => h _ le_rfl st

/-- An object halts in its members. -/
theorem parseObject_halts (hexit : out = true → Allowed .exit)
    {value : JsonScanner (Option (JsonTree F.double))} (hb : Blank b) {w' : List UInt8}
    (hw : w = chr '"' :: w')
    (h : LoopHalts Allowed (parseMember A value out) (given out []) (w ++ s)) :
    Halts Allowed (parseObject A value out) (chr '{' :: (b ++ w) ++ s) := by
  rw [List.cons_append, List.append_assoc]
  refine (mknode_reads hexit).halts (reads_next.halts ?_)
  rw [if_neg (not_not.mpr rfl)]
  refine (skipSpace_start hb hw (by decide)).halts ?_
  have hhead : w ++ s = chr '"' :: (w' ++ s) := by rw [hw, List.cons_append]
  refine Reads.halts (hhead ▸ reads_peek) ?_
  rw [if_neg (by decide)]
  exact Halts.bind fun st => h _ le_rfl st

/-- A round of `parse_object` whose value stops the program. -/
theorem parseMember_halts (hexit : out = true → Allowed .exit)
    {value : JsonScanner (Option (JsonTree F.double))} {k b' : List UInt8} {key : CString}
    {ret : Option (List (CString × JsonTree F.double))} (hk : StringText k key) (hb : Blank b)
    (hb' : Blank b') {a : UInt8} {w' : List UInt8} (hw : w = a :: w') (ha : isStart a = true)
    (h : Halts Allowed value (w ++ s)) :
    Halts Allowed (parseMember A value out ret) (k ++ (b ++ chr ':' :: (b' ++ (w ++ s)))) := by
  refine (parseString_reads hexit hk).halts ?_
  refine (skipSpace_reads hb (by decide)).halts ?_
  refine reads_next.halts ?_
  rw [if_neg (not_not.mpr rfl)]
  exact (skipSpace_start hb' hw ha).halts h.bind

/-- **A value that is deeper than the frames** ends the program when it is read. -/
theorem derives_overflows (hexit : out = true → Allowed .exit) (hstack : Allowed .stackOverflow)
    {sym : Symbol F.double} (h : Derives F sym w) : Overflows F A Allowed out sym w := by
  induction h with
  | null => exact overflows_flat hstack rfl
  | false => exact overflows_flat hstack rfl
  | true => exact overflows_flat hstack rfl
  | string _ => exact overflows_flat hstack rfl
  | number _ => exact overflows_flat hstack rfl
  | @array b w vs hb hw ih =>
      intro frames hframes s _ _
      cases frames with
      | zero => exact halts_halt hstack
      | succ frames =>
          rw [depth] at hframes
          cases vs with
          | nil => simp [elementsDepth] at hframes
          | cons v vs =>
              obtain ⟨a, w', hhead, ha⟩ := head_of_elements hw
              refine Reads.halts (reads_peek (c := chr '[')) ?_
              simp only [show chr '[' ≠ chr 'n' by decide, show chr '[' ≠ chr 'f' by decide,
                show chr '[' ≠ chr 't' by decide, show chr '[' ≠ chr '"' by decide, if_false,
                if_true]
              exact parseArray_halts hexit hb hhead ha (ih frames (by omega) [] s)
  | @object b w ms hb hw ih =>
      intro frames hframes s _ _
      cases frames with
      | zero => exact halts_halt hstack
      | succ frames =>
          rw [depth] at hframes
          cases ms with
          | nil => simp [membersDepth] at hframes
          | cons m ms =>
              obtain ⟨w', hhead⟩ := head_of_members hw
              refine Reads.halts (reads_peek (c := chr '{')) ?_
              simp only [show chr '{' ≠ chr 'n' by decide, show chr '{' ≠ chr 'f' by decide,
                show chr '{' ≠ chr 't' by decide, show chr '{' ≠ chr '"' by decide,
                show chr '{' ≠ chr '[' by decide, if_false, if_true]
              exact parseObject_halts hexit hb hhead (ih frames (by omega) [] s)
  | noElement => exact fun frames hframes => absurd hframes (Nat.not_lt_zero _)
  | @lastElement w b v hw hb ih =>
      intro frames hframes before s
      rw [elementsDepth, elementsDepth] at hframes
      have hassoc : w ++ (b ++ [chr ']']) ++ s = w ++ (b ++ chr ']' :: s) := by simp
      rw [hassoc]
      exact loopHalts_first (by simp) (ih frames (by omega) _ (by simp)
        (follow_blank hb (by decide))).bind
  | @element w b b' w' v v' vs hw hb hb' hw' ih ih' =>
      intro frames hframes before s
      rw [elementsDepth] at hframes
      have hassoc : w ++ (b ++ chr ',' :: (b' ++ w')) ++ s =
          w ++ (b ++ chr ',' :: (b' ++ (w' ++ s))) := by simp
      rw [hassoc]
      by_cases hv : frames < depth v
      · exact loopHalts_first (by simp) (ih frames hv _ (by simp)
          (follow_blank hb (by decide))).bind
      · obtain ⟨a, w₁, hhead, ha⟩ := head_of_elements hw'
        refine loopHalts_round (by simp only [List.length_append, List.length_cons]; omega)
          (parseElement_reads (derives_readable hexit hw frames (by omega)) hb (by decide)
            (by decide) (parseSeparator_comma (by decide) hb' hhead ha)) ?_
        exact ih' frames (by omega) (before ++ [v]) s
  | noMember => exact fun frames hframes => absurd hframes (Nat.not_lt_zero _)
  | @lastMember k b w b' b'' key v hk hb hb' hw hb'' ih =>
      intro frames hframes before s
      rw [membersDepth, membersDepth] at hframes
      obtain ⟨a, w₁, hhead, ha⟩ := head_of_value hw
      have hassoc : k ++ (b ++ chr ':' :: (b' ++ (w ++ (b'' ++ [chr '}'])))) ++ s =
          k ++ (b ++ chr ':' :: (b' ++ (w ++ (b'' ++ chr '}' :: s)))) := by simp
      rw [hassoc]
      exact loopHalts_first (by simp) (parseMember_halts hexit hk hb hb' hhead ha
        (ih frames (by omega) _ (by simp) (follow_blank hb'' (by decide))))
  | @member k b w b' b'' b₃ w' key v m ms hk hb hb' hw hb'' hc hw' ih ih' =>
      intro frames hframes before s
      rw [membersDepth] at hframes
      obtain ⟨a, w₁, hhead, ha⟩ := head_of_value hw
      have hassoc : k ++ (b ++ chr ':' :: (b' ++ (w ++ (b'' ++ chr ',' :: (b₃ ++ w'))))) ++ s =
          k ++ (b ++ chr ':' :: (b' ++ (w ++ (b'' ++ chr ',' :: (b₃ ++ (w' ++ s)))))) := by simp
      rw [hassoc]
      by_cases hv : frames < depth v
      · exact loopHalts_first (by simp) (parseMember_halts hexit hk hb hb' hhead ha
          (ih frames hv _ (by simp) (follow_blank hb'' (by decide))))
      · obtain ⟨w₂, hhead'⟩ := head_of_members hw'
        refine loopHalts_round (by simp only [List.length_append, List.length_cons]; omega)
          (parseMember_reads hexit hk hb hb' (derives_readable hexit hw frames (by omega)) hhead ha
            hb'' (by decide) (by decide) (parseSeparator_comma (by decide) hc hhead' (by decide)))
          ?_
        exact ih' frames (by omega) (before ++ [(key, v)]) s

/-- With fewer frames than the value is deep the parser overflows the stack. -/
theorem parseText_halts (hexit : out = true → Allowed .exit) (hstack : Allowed .stackOverflow)
    {v : JsonTree F.double} (h : JsonText F t v) (hframes : frames < depth v) :
    Halts Allowed (parseText F A out frames) (t ++ [0]) := by
  obtain ⟨b, w, b', hb, hw, hb', rfl⟩ := h
  have hassoc : b ++ (w ++ b') ++ [0] = b ++ (w ++ (b' ++ [0])) := by simp
  rw [hassoc]
  obtain ⟨a, w', hhead, ha⟩ := head_of_value hw
  exact (skipSpace_start hb hhead ha).halts (derives_overflows hexit hstack hw frames hframes _
    (by simp) (follow_blank hb' (by decide))).bind

/-! ## Enough frames -/

/-- How deep the values of a symbol are. -/
def symbolDepth {double : Type} : Symbol double → ℕ
  | .value v => depth v
  | .elements vs => elementsDepth vs
  | .members ms => membersDepth ms

/-- No derivation is deeper than its text is long. -/
theorem depth_le_length {sym : Symbol F.double} (h : Derives F sym w) :
    symbolDepth sym ≤ w.length := by
  induction h with
  | null => exact show 1 ≤ 4 by decide
  | false => exact show 1 ≤ 5 by decide
  | true => exact show 1 ≤ 4 by decide
  | string hw =>
      obtain ⟨body, cs, rfl, -⟩ := hw
      simp [symbolDepth, depth]
  | number hw =>
      obtain ⟨a, w', rfl, -⟩ := head_of_number hw
      simp [symbolDepth, depth]
  | array hb hw ih =>
      simp only [symbolDepth, depth, List.length_cons, List.length_append] at ih ⊢
      omega
  | object hb hw ih =>
      simp only [symbolDepth, depth, List.length_cons, List.length_append] at ih ⊢
      omega
  | noElement => exact Nat.zero_le _
  | lastElement hw hb ih =>
      simp only [symbolDepth, elementsDepth, List.length_append] at ih ⊢
      omega
  | element hw hb hb' hw' ih ih' =>
      simp only [symbolDepth, elementsDepth, List.length_append, List.length_cons] at ih ih' ⊢
      omega
  | noMember => exact Nat.zero_le _
  | lastMember hk hb hb' hw hb'' ih =>
      simp only [symbolDepth, membersDepth, List.length_append, List.length_cons] at ih ⊢
      omega
  | member hk hb hb' hw hb'' hc hw' ih ih' =>
      simp only [symbolDepth, membersDepth, List.length_append, List.length_cons] at ih ih' ⊢
      omega

/-- So no text needs more frames than it has characters. -/
theorem depth_le_of_text {v : JsonTree F.double} (h : JsonText F t v) : depth v ≤ t.length := by
  obtain ⟨b, w, b', -, hw, -, rfl⟩ := h
  have hle := depth_le_length hw
  simp only [symbolDepth, List.length_append] at hle ⊢
  omega

/-! ## The two functions -/

/-- The parser returns true on the JSON texts alone, and with the value of the text. -/
theorem parseText_yields (Allowed : Stop → Prop) (out : Bool)
    (json : CString) (hexit : ∀ e, MayExit A json.bytes.length out e → Allowed e)
    (hframes : json.bytes.length < frames) (k : ℕ) :
    Yields Allowed (parseText F A out frames (json.bytes ++ [0]) k) fun r =>
      ∀ ret, r.1.map Prod.fst = some ret ↔ ∃ v, JsonText F json.bytes v ∧ ret = given out v := by
  have hsound := parseText_parses (F := F) hexit le_rfl json.length_lt (.inr hframes) json.noNul k
  have hcomplete : ∀ v, JsonText F json.bytes v →
      Yields (fun _ => True) (parseText F A out frames (json.bytes ++ [0]) k) fun r =>
        r.1.map Prod.fst = some (given out v) := by
    intro v hv
    refine (parseText_reads (fun _ => trivial) hv
      ((depth_le_of_text hv).trans hframes.le) k).mono ?_
    rintro ⟨_, st⟩ ⟨a, s', rfl, rfl⟩
    rfl
  cases hrun : parseText F A out frames (json.bytes ++ [0]) k with
  | error e => exact hsound.of_error hrun
  | ok r =>
      intro ret
      constructor
      · intro hret
        obtain ⟨⟨a, s⟩, hr, rfl⟩ := Option.map_eq_some_iff.mp hret
        obtain ⟨-, -, -, -, v, hv, htext⟩ := hsound.of_ok hrun a s hr
        exact ⟨v, htext, hv⟩
      · rintro ⟨v, htext, rfl⟩
        exact (hcomplete v htext).of_ok hrun

/-- **`json_decode` decides the grammar**, and returns the value of the text.  Where the
stack has a frame for each character, only the memory can run out. -/
theorem jsonDecode_yields (json : CString) (hframes : json.bytes.length < frames) :
    Yields (OutOfMemory A json.bytes.length) (jsonDecode F A frames json) fun r =>
      ∀ v, r = some v ↔ JsonText F json.bytes v := by
  refine (parseText_yields _ true json (fun _ he => he.2) hframes 0).bind ?_
  rintro ⟨_ | ⟨ret, s⟩, st⟩ hr
  · intro v
    have hno := hr (some v)
    simp only [Option.map_none, reduceCtorEq, false_iff] at hno
    show none = some v ↔ _
    simp only [reduceCtorEq, false_iff]
    exact fun htext => hno ⟨v, htext, rfl⟩
  · obtain ⟨v, htext, hret⟩ := (hr ret).mp rfl
    intro v'
    show ret = some v' ↔ _
    constructor
    · rintro rfl
      cases hret
      exact htext
    · intro htext'
      exact (Option.some_inj.mp ((hr (some v')).mpr ⟨v', htext', rfl⟩))

/-- **`json_validate` decides the grammar**, with no memory but the stack. -/
theorem jsonValidate_eq (json : CString) (hframes : json.bytes.length < frames) :
    ∃ valid, jsonValidate F A frames json = .ok valid ∧
      (valid = true ↔ ∃ v, JsonText F json.bytes v) := by
  have h : Yields (fun _ => False) (jsonValidate F A frames json) fun valid =>
      valid = true ↔ ∃ v, JsonText F json.bytes v := by
    refine (parseText_yields _ false json (fun _ he => Bool.false_ne_true he.1) hframes 0).bind ?_
    rintro ⟨_ | ⟨ret, s⟩, st⟩ hr
    · have hvalue := hr none
      simp only [Option.map_none, reduceCtorEq, false_iff] at hvalue
      show false = true ↔ _
      simp only [Bool.false_eq_true, false_iff]
      exact fun ⟨v, htext⟩ => hvalue ⟨v, htext, rfl⟩
    · obtain ⟨v, htext, -⟩ := (hr ret).mp rfl
      exact ⟨fun _ => ⟨v, htext⟩, fun _ => rfl⟩
  cases hrun : jsonValidate F A frames json with
  | error e => exact (h.of_error hrun).elim
  | ok valid => exact ⟨valid, rfl, h.of_ok hrun⟩

/-- The value of a text is read if the stack is as deep, and else the stack overflows, unless
the program exits before. -/
theorem parseText_of_text {json : CString} {v : JsonTree F.double} (h : JsonText F json.bytes v)
    (k : ℕ) : Yields (fun e => e = .exit ∨ e = .stackOverflow ∧ frames < depth v)
      (parseText F A true frames (json.bytes ++ [0]) k) fun r =>
        (∃ s, r.1 = some (some v, s)) ∧ depth v ≤ frames := by
  by_cases hframes : frames < depth v
  · have hhalts : Halts (fun e => e = .exit ∨ e = .stackOverflow ∧ frames < depth v)
        (parseText F A true frames) (json.bytes ++ [0]) :=
      parseText_halts (fun _ => .inl rfl) (.inr ⟨rfl, hframes⟩) h hframes
    exact (hhalts k).mono fun _ hr => hr.elim
  · have hle : depth v ≤ frames := by omega
    have hreads : Accepts (fun e => e = .exit ∨ e = .stackOverflow ∧ frames < depth v)
        (parseText F A true frames) (json.bytes ++ [0]) fun r _ => r = given true v :=
      parseText_reads (fun _ => .inl rfl) h hle
    refine (hreads k).mono ?_
    rintro ⟨_, st⟩ ⟨a, s', rfl, rfl⟩
    exact ⟨⟨s', rfl⟩, hle⟩

/-- **How much stack a JSON text takes**: a frame for each level of its value. -/
theorem jsonDecode_of_text {json : CString} {v : JsonTree F.double}
    (h : JsonText F json.bytes v) :
    Yields (fun e => OutOfMemory A json.bytes.length e ∨ e = .stackOverflow ∧ frames < depth v)
      (jsonDecode F A frames json) fun r => r = some v ∧ depth v ≤ frames := by
  -- That an exit is for want of memory is known of every text.
  have hstops : Parses (fun e => OutOfMemory A json.bytes.length e ∨ e = .stackOverflow)
      (parseText F A true frames) json.bytes fun _ _ _ => True :=
    (parseText_parses (fun _ he => .inl he.2) le_rfl json.length_lt (.inl (.inr rfl))
      json.noNul).mono fun _ _ _ _ _ => trivial
  refine (((hstops 0).and (parseText_of_text h 0)).allow ?_).bind ?_
  · rintro e ⟨hmemory | rfl, hend⟩
    · exact .inl hmemory
    · exact hend.imp_left fun hexit => by cases hexit
  · rintro ⟨_, st⟩ ⟨-, ⟨s, rfl⟩, hle⟩
    exact ⟨rfl, hle⟩

/-- The same of `json_validate`, whose only end is the stack's. -/
theorem jsonValidate_of_text {json : CString} {v : JsonTree F.double}
    (h : JsonText F json.bytes v) :
    jsonValidate F A frames json =
      if depth v ≤ frames then .ok true else .error .stackOverflow := by
  rw [jsonValidate]
  by_cases hframes : depth v ≤ frames
  · have hreads : Accepts (fun _ => False) (parseText F A false frames) (json.bytes ++ [0])
        fun r _ => r = given false v := parseText_reads (fun h => nomatch h) h hframes
    rw [if_pos hframes]
    cases hrun : parseText F A false frames (json.bytes ++ [0]) 0 with
    | error e => exact absurd ((hreads 0).of_error hrun) id
    | ok r =>
        obtain ⟨r, st⟩ := r
        obtain ⟨a, s', rfl, -⟩ := (hreads 0).of_ok hrun
        rfl
  · have hhalts : Halts (· = .stackOverflow) (parseText F A false frames) (json.bytes ++ [0]) :=
      parseText_halts (fun h => nomatch h) rfl h (by omega)
    rw [if_neg hframes]
    cases hrun : parseText F A false frames (json.bytes ++ [0]) 0 with
    | error e =>
        rw [(hhalts 0).of_error hrun]
        rfl
    | ok r => exact ((hhalts 0).of_ok hrun).elim

/-- **Both functions decide the grammar**: `json_decode` returns the value that the text has,
and `json_validate` says whether it has one; no text makes them read behind its end, loop
or fail an assertion, and only the first can end the program, when a request for memory is
refused or the text is too large. -/
theorem json_texts_decided (F : Floating) (A : Allocator UInt8) (json : CString)
    (hframes : json.bytes.length < frames) :
    (Yields (OutOfMemory A json.bytes.length) (jsonDecode F A frames json) fun r =>
        ∀ v, r = some v ↔ JsonText F json.bytes v) ∧
      ∃ valid, jsonValidate F A frames json = .ok valid ∧
        (valid = true ↔ ∃ v, JsonText F json.bytes v) :=
  ⟨jsonDecode_yields json hframes, jsonValidate_eq json hframes⟩

/-- **The stack that a text takes** is a frame for each level of its value, of either
function, and no more: with fewer the program ends, with as many it does not. -/
theorem json_texts_stack (A : Allocator UInt8) {json : CString} {v : JsonTree F.double}
    (h : JsonText F json.bytes v) (frames : ℕ) :
    Yields (fun e => OutOfMemory A json.bytes.length e ∨ e = .stackOverflow ∧ frames < depth v)
        (jsonDecode F A frames json) (fun r => r = some v ∧ depth v ≤ frames) ∧
      jsonValidate F A frames json =
        if depth v ≤ frames then .ok true else .error .stackOverflow :=
  ⟨jsonDecode_of_text h, jsonValidate_of_text h⟩

/-- The numbers of one digit. -/
def digitNumbers : Floating where
  double := Fin 10
  value w := Fin.ofNat 10 ((w.headD 48).toNat - 48)
  format x := ⟨[UInt8.ofNat (48 + x.val)], by revert x; decide, show 1 < ptrdiffMax by decide⟩

/-- `[7]` -/
def sevenText : CString := ⟨[91, 55, 93], by decide, by decide⟩

def sevenValue : JsonTree digitNumbers.double := .JSON_ARRAY [.JSON_NUMBER (7 : Fin 10)]

/-- The grammar derives the array from it. -/
theorem sevenText_jsonText : JsonText digitNumbers sevenText.bytes sevenValue := by
  have hdigits : Digits [55] := ⟨by decide, List.forall_mem_singleton.mpr (by decide)⟩
  have hnumber : NumberText [55] :=
    ⟨[], [55], [], [], .inl rfl, .inr ⟨hdigits, by decide⟩, .inl rfl, .inl rfl, rfl⟩
  have hblank : Blank [] := fun _ hc => absurd hc List.not_mem_nil
  exact ⟨[], _, [], hblank, .array hblank (.lastElement (.number hnumber) hblank), hblank, rfl⟩

/-- Both functions return, with the array and with true. -/
theorem json_texts_decided_seven :
    jsonDecode digitNumbers (generous true 0) 4 sevenText = .ok (some sevenValue) ∧
      jsonValidate digitNumbers (generous true 0) 4 sevenText = .ok true := by
  have hframes : sevenText.bytes.length < 4 := by decide
  obtain ⟨hdecode, valid, hvalidate, hvalid⟩ :=
    json_texts_decided digitNumbers (generous true 0) sevenText hframes
  obtain ⟨r, hrun, hr⟩ := returns_of_granted (fun _ => rfl) (by decide) hdecode
  rw [hrun, hvalidate, (hr sevenValue).mpr sevenText_jsonText,
    hvalid.mpr ⟨sevenValue, sevenText_jsonText⟩]
  exact ⟨rfl, rfl⟩

/-- With one frame the array can be entered, and its element cannot. -/
theorem json_texts_stack_seven :
    jsonValidate digitNumbers (generous true 0) 1 sevenText = .error .stackOverflow :=
  (json_texts_stack (generous true 0) sevenText_jsonText 1).2

/-- `{"id":"pfx"}` -/
def memberText : CString := ⟨ascii "\x7b\"id\":\"pfx\"\x7d", by decide, by decide⟩

def memberKey : CString := ⟨ascii "id", by decide, by decide⟩

def memberString : CString := ⟨ascii "pfx", by decide, by decide⟩

def memberValue : JsonTree digitNumbers.double :=
  .JSON_OBJECT [(memberKey, .JSON_STRING memberString)]

/-- The grammar derives the object from it. -/
theorem memberText_jsonText : JsonText digitNumbers memberText.bytes memberValue := by
  have hblank : Blank [] := fun _ hc => absurd hc List.not_mem_nil
  have hkey : StringText (ascii "\"id\"") memberKey :=
    ⟨_, ['i', 'd'], rfl, charsText_plain (by simp), rfl⟩
  have hstring : StringText (ascii "\"pfx\"") memberString :=
    ⟨_, ['p', 'f', 'x'], rfl, charsText_plain (by simp), rfl⟩
  exact ⟨[], _, [], hblank,
    .object hblank (.lastMember hkey hblank hblank (.string hstring) hblank), hblank, rfl⟩

end AzureMetadata.Analysis
