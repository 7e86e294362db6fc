import AzureMetadata.Analysis.JsonNumbers
import AzureMetadata.Analysis.JsonStrings

/-!
# What the parser accepts is JSON

`ValueRead` is what a call of `parse_value` has done when it returns true: the text it
read is one of the value, provided that what follows may follow a value.  The proviso is
there for numbers, whose value is taken from wherever `strtod` stops; in an array or an
object and at the end of a text it is met, because anything else is rejected there.
-/

set_option autoImplicit false

namespace AzureMetadata.Analysis

open Clib Scanner AzureMetadata.Model AzureMetadata.Interface

variable {F : Floating} {A : Allocator UInt8} {Allowed : Stop → Prop} {s t w b : List UInt8}
  {c : UInt8} {out : Bool} {frames n m : ℕ}

/-- The text ends here, or goes on with what may follow a value. -/
def Follow (t : List UInt8) : Prop := isFollow (t.headD 0) = true

/-- Blanks and a character that may follow a value may follow it. -/
theorem follow_blank (hb : Blank b) (hc : isFollow c = true) : Follow (b ++ c :: t) := by
  cases b with
  | nil => exact hc
  | cons a b =>
      have ha := hb a (by simp)
      show isFollow a = true
      rcases ha with rfl | rfl | rfl | rfl <;> decide

/-- So may blanks at the end. -/
theorem follow_end (hb : Blank b) : Follow b := by
  cases b with
  | nil => rfl
  | cons a b =>
      have ha := hb a (by simp)
      show isFollow a = true
      rcases ha with rfl | rfl | rfl | rfl <;> decide

/-- What the parser takes for white space are blanks. -/
theorem blank_of_isJsonSpace (h : ∀ c ∈ w, isJsonSpace c = true) : Blank w := by
  intro c hc
  have hspace := h c hc
  simp only [isJsonSpace, decide_eq_true_eq] at hspace
  rcases hspace with h | h | h | h
  · exact .inr (.inl h)
  · exact .inr (.inr (.inl h))
  · exact .inr (.inr (.inr h))
  · exact .inl h

/-- What is skipped are blanks. -/
theorem skipSpace_parses : Parses Allowed skipSpace t fun _ w _ => Blank w :=
  parses_skipWhile (by decide) fun _ _ _ hw _ => blank_of_isJsonSpace hw

/-! ## What is stored -/

variable {α : Type}

/-- What is done to an output is done if there is one. -/
@[simp] theorem given_map {β : Type} (f : α → β) (a : α) :
    (given out a).map f = given out (f a) := by
  cases out <;> rfl

/-- An output is appended to an output. -/
@[simp] theorem appendTo_given (as : List α) (a : α) :
    appendTo (given out as) (given out a) = given out (as ++ [a]) := by
  cases out <;> rfl

/-- Two outputs make a pair. -/
@[simp] theorem given_bind_mk {β : Type} (a : α) (b : β) :
    ((given out a).bind fun a => (given out b).map (Prod.mk a)) = given out (a, b) := by
  cases out <;> rfl

/-- `mknode`, where something is stored. -/
theorem mknode_gives {a : α} : Gives (MayExit A m out) (mknode A (given out a)) fun r =>
    r = given out a := by
  intro k
  cases out with
  | false => rfl
  | true =>
      show Yields (MayExit A m true)
        (if (A k).granted then .ok (some a, k + 1) else .error .exit : Except Stop _) _
      split
      · rfl
      · next hg => exact ⟨rfl, rfl, .inl ⟨k, Bool.eq_false_iff.mpr hg⟩⟩

/-- To make a node takes no text. -/
theorem mknode_parses (hexit : ∀ e, MayExit A m out e → Allowed e) {a : α}
    {Q : Option α → List UInt8 → List UInt8 → Prop} (h : Q (given out a) [] t) :
    Parses Allowed (effect (mknode A (given out a))) t Q :=
  parses_requests (mknode_gives.allow hexit) fun _ hr => hr ▸ h

/-- Nor does it before another scanner. -/
theorem mknode_parses_bind {β : Type} (hexit : ∀ e, MayExit A m out e → Allowed e) {a : α}
    {f : Option α → JsonScanner β} {S : β → List UInt8 → List UInt8 → Prop}
    (h : Parses Allowed (f (given out a)) t S) :
    Parses Allowed (effect (mknode A (given out a)) >>= f) t S := by
  refine (mknode_parses hexit (Q := fun r w t' => r = given out a ∧ w = [] ∧ t' = t)
    ⟨rfl, rfl, rfl⟩).bind ?_
  rintro _ _ _ - ⟨rfl, rfl, rfl⟩
  exact h

/-! ## Containers -/

/-- A call of `parse_value` has read `w`, and `t'` is left. -/
def ValueRead (F : Floating) (out : Bool) (r : Option (JsonTree F.double)) (w t' : List UInt8) :
    Prop :=
  ∃ v, r = given out v ∧ w ≠ [] ∧ (Follow t' → Derives F (.value v) w)

/-- A separator is the closing bracket, or a comma and blanks. -/
theorem parseSeparator_parses {β : Type} {ret : β} {close : UInt8} (hclose : close ≠ 0) :
    Parses Allowed (parseSeparator close ret) t fun r w _ =>
      r = .inr ret ∧ w = [close] ∨ r = .inl ret ∧ ∃ b, Blank b ∧ w = chr ',' :: b := by
  refine parses_peek_bind (fun _ => ?_) ?_
  · rw [if_neg hclose.symm]
    exact parses_next_bind (fun _ => rfl) fun _ _ h => nomatch h
  · rintro a t' rfl
    by_cases ha : a = close
    · rw [if_pos ha, ha]
      exact parses_next_cons (parses_pure (.inl ⟨rfl, rfl⟩))
    · rw [if_neg ha]
      refine parses_next_cons ?_
      by_cases hcomma : a = chr ','
      · rw [if_neg (not_not.mpr hcomma), hcomma]
        refine skipSpace_parses.bind ?_
        intro _ b t'' _ hb
        refine parses_pure (.inr ⟨rfl, b, hb, ?_⟩)
        rw [List.append_nil]
      · rw [if_pos hcomma]
        exact parses_fail

variable {value : JsonScanner (Option (JsonTree F.double))}

/-- **The elements of an array.** -/
theorem parseElements_parses
    (hvalue : ∀ t, t.length < n → Parses Allowed value t (ValueRead F out))
    (vs : List (JsonTree F.double)) (ht : t.length < n) :
    Parses Allowed (loop .loopLimit (parseElement value) (given out vs)) t fun r w _ =>
      ∃ v vs', r = given out (vs ++ v :: vs') ∧ Derives F (.elements (v :: vs')) w := by
  refine parses_loop (P := fun vs ret t => ret = given out vs ∧ t.length < n)
    (R := fun vs r w _ => ∃ v vs', r = given out (vs ++ v :: vs') ∧
      Derives F (.elements (v :: vs')) w) ?_ ⟨rfl, ht⟩
  rintro vs _ t ⟨rfl, ht⟩
  refine (hvalue t ht).bind ?_
  rintro _ w t₁ ht₁ ⟨v, rfl, hne, hderives⟩
  refine skipSpace_parses.bind ?_
  intro _ b t₂ ht₂ hb
  rw [appendTo_given]
  refine (parseSeparator_parses (by decide)).mono ?_
  rintro r w' t₃ ht₃ (⟨rfl, rfl⟩ | ⟨rfl, b', hb', rfl⟩)
  · have hv : Derives F (.value v) w := by
      refine hderives ?_
      rw [ht₂, ht₃]
      exact follow_blank hb (by decide)
    exact ⟨v, [], rfl, .lastElement hv hb⟩
  · have hv : Derives F (.value v) w := by
      refine hderives ?_
      rw [ht₂, ht₃]
      exact follow_blank hb (by decide)
    refine ⟨by simp, vs ++ [v], ⟨rfl, ?_⟩, ?_⟩
    · have hlen := congrArg List.length ht₁
      have hlen₂ := congrArg List.length ht₂
      have hlen₃ := congrArg List.length ht₃
      simp only [List.length_append, List.length_cons] at hlen hlen₂ hlen₃
      omega
    · rintro _ w'' _ ⟨v', vs', rfl, hrest⟩
      refine ⟨v, v' :: vs', by simp, ?_⟩
      have hall := Derives.element hv hb hb' hrest
      simpa using hall

/-- **The members of an object.** -/
theorem parseMembers_parses (hexit : ∀ e, MayExit A m out e → Allowed e) (hm : n ≤ m)
    (hn : n ≤ ptrdiffMax)
    (hvalue : ∀ t, t.length < n → Parses Allowed value t (ValueRead F out))
    (ms : List (CString × JsonTree F.double)) (ht : t.length < n) :
    Parses Allowed (loop .loopLimit (parseMember A value out) (given out ms)) t fun r w _ =>
      ∃ m ms', r = given out (ms ++ m :: ms') ∧ Derives F (.members (m :: ms')) w := by
  refine parses_loop (P := fun ms ret t => ret = given out ms ∧ t.length < n)
    (R := fun ms r w _ => ∃ m ms', r = given out (ms ++ m :: ms') ∧
      Derives F (.members (m :: ms')) w) ?_ ⟨rfl, ht⟩
  rintro ms _ t ⟨rfl, ht⟩
  refine (parseString_parses hexit (ht.le.trans hm) (ht.trans_le hn)).bind ?_
  rintro _ k t₁ ht₁ ⟨key, hk, rfl⟩
  refine skipSpace_parses.bind ?_
  intro _ b t₂ ht₂ hb
  refine parses_next_bind (fun _ => rfl) ?_
  intro a t₃ ht₃
  by_cases hcolon : a = chr ':'
  swap
  · rw [if_pos hcolon]
    exact parses_fail
  rw [if_neg (not_not.mpr hcolon), hcolon]
  refine skipSpace_parses.bind ?_
  intro _ b' t₄ ht₄ hb'
  have hlen₁ := congrArg List.length ht₁
  have hlen₂ := congrArg List.length ht₂
  have hlen₃ := congrArg List.length ht₃
  have hlen₄ := congrArg List.length ht₄
  simp only [List.length_append, List.length_cons] at hlen₁ hlen₂ hlen₃ hlen₄
  refine (hvalue t₄ (by omega)).bind ?_
  rintro _ w t₅ ht₅ ⟨v, rfl, hne, hderives⟩
  refine skipSpace_parses.bind ?_
  intro _ b'' t₆ ht₆ hb''
  rw [given_bind_mk, appendTo_given]
  refine (parseSeparator_parses (by decide)).mono ?_
  rintro r w' t₇ ht₇ (⟨rfl, rfl⟩ | ⟨rfl, b₃, hb₃, rfl⟩)
  · have hv : Derives F (.value v) w := by
      refine hderives ?_
      rw [ht₆, ht₇]
      exact follow_blank hb'' (by decide)
    refine ⟨(key, v), [], rfl, ?_⟩
    have hall := Derives.lastMember hk hb hb' hv hb''
    simpa using hall
  · have hv : Derives F (.value v) w := by
      refine hderives ?_
      rw [ht₆, ht₇]
      exact follow_blank hb'' (by decide)
    refine ⟨by simp, ms ++ [(key, v)], ⟨rfl, ?_⟩, ?_⟩
    · have hlen₅ := congrArg List.length ht₅
      have hlen₆ := congrArg List.length ht₆
      have hlen₇ := congrArg List.length ht₇
      simp only [List.length_append, List.length_cons] at hlen₅ hlen₆ hlen₇
      omega
    · rintro _ w'' _ ⟨m, ms', rfl, hrest⟩
      refine ⟨(key, v), m :: ms', by simp, ?_⟩
      have hall := Derives.member hk hb hb' hv hb'' hb₃ hrest
      simpa using hall

/-- What is read as an array is one. -/
theorem parseArray_parses (hexit : ∀ e, MayExit A m out e → Allowed e)
    (hvalue : ∀ t, t.length < n → Parses Allowed value t (ValueRead F out)) (ht : t.length ≤ n) :
    Parses Allowed (parseArray A value out) t (ValueRead F out) := by
  refine mknode_parses_bind hexit (parses_next_bind (fun _ => rfl) ?_)
  rintro a t' rfl
  by_cases hopen : a = chr '['
  swap
  · rw [if_pos hopen]
    exact parses_fail
  rw [if_neg (not_not.mpr hopen), hopen]
  refine skipSpace_parses.bind ?_
  intro _ b t₁ ht₁ hb
  have hlen₁ := congrArg List.length ht₁
  simp only [List.length_append, List.length_cons] at hlen₁ ht
  have helements : Parses Allowed (do
      let ret ← loop .loopLimit (parseElement value) (given out [])
      pure (ret.map JsonTree.JSON_ARRAY)) t₁
      fun r w t' => ValueRead F out r (chr '[' :: (b ++ w)) t' := by
    refine (parseElements_parses hvalue [] (by omega)).bind ?_
    rintro _ w t₂ _ ⟨v, vs, rfl, hw⟩
    refine parses_pure ⟨.JSON_ARRAY (v :: vs), by simp, by simp, fun _ => ?_⟩
    rw [List.append_nil]
    exact .array hb hw
  refine parses_peek_bind (fun hnil => ?_) ?_
  · rw [if_neg (by decide), ← hnil]
    exact helements
  · rintro c t₂ rfl
    by_cases hclose : c = chr ']'
    · rw [if_pos hclose, hclose]
      refine parses_next_cons (parses_pure ⟨.JSON_ARRAY [], by simp, by simp, fun _ => ?_⟩)
      exact .array hb .noElement
    · rw [if_neg hclose]
      exact helements

/-- What is read as an object is one. -/
theorem parseObject_parses (hexit : ∀ e, MayExit A m out e → Allowed e) (hm : n ≤ m)
    (hn : n ≤ ptrdiffMax)
    (hvalue : ∀ t, t.length < n → Parses Allowed value t (ValueRead F out)) (ht : t.length ≤ n) :
    Parses Allowed (parseObject A value out) t (ValueRead F out) := by
  refine mknode_parses_bind hexit (parses_next_bind (fun _ => rfl) ?_)
  rintro a t' rfl
  by_cases hopen : a = chr '{'
  swap
  · rw [if_pos hopen]
    exact parses_fail
  rw [if_neg (not_not.mpr hopen), hopen]
  refine skipSpace_parses.bind ?_
  intro _ b t₁ ht₁ hb
  have hlen₁ := congrArg List.length ht₁
  simp only [List.length_append, List.length_cons] at hlen₁ ht
  have hmembers : Parses Allowed (do
      let ret ← loop .loopLimit (parseMember A value out) (given out [])
      pure (ret.map JsonTree.JSON_OBJECT)) t₁
      fun r w t' => ValueRead F out r (chr '{' :: (b ++ w)) t' := by
    refine (parseMembers_parses hexit hm hn hvalue [] (by omega)).bind ?_
    rintro _ w t₂ _ ⟨m, ms, rfl, hw⟩
    refine parses_pure ⟨.JSON_OBJECT (m :: ms), by simp, by simp, fun _ => ?_⟩
    rw [List.append_nil]
    exact .object hb hw
  refine parses_peek_bind (fun hnil => ?_) ?_
  · rw [if_neg (by decide), ← hnil]
    exact hmembers
  · rintro c t₂ rfl
    by_cases hclose : c = chr '}'
    · rw [if_pos hclose, hclose]
      refine parses_next_cons (parses_pure ⟨.JSON_OBJECT [], by simp, by simp, fun _ => ?_⟩)
      exact .object hb .noMember
    · rw [if_neg hclose]
      exact hmembers

/-! ## Values -/

/-- What is read as a word is the word. -/
theorem expectLiteral_parses {word : List UInt8} (hword : 0 ∉ word) :
    Parses Allowed (expectLiteral word) t fun _ w _ => w = word := by
  induction word generalizing t with
  | nil => exact parses_pure rfl
  | cons c word ih =>
      rw [List.mem_cons, not_or] at hword
      refine parses_next_bind (fun _ => ?_) ?_
      · rw [if_pos hword.1]
        rfl
      · intro a t' _
        by_cases ha : a = c
        · rw [if_neg (not_not.mpr ha), ha]
          exact (ih hword.2).mono fun _ w _ _ hw => by rw [hw]
        · rw [if_pos ha]
          exact parses_fail

/-- It has the word's value. -/
theorem parseWord_parses (hexit : ∀ e, MayExit A m out e → Allowed e) {word : List UInt8}
    {v : JsonTree F.double} (hword : 0 ∉ word) (hne : word ≠ [])
    (hv : Derives F (.value v) word) :
    Parses Allowed (parseWord F A out word v) t (ValueRead F out) := by
  refine (expectLiteral_parses hword).bind ?_
  rintro _ _ t' - rfl
  refine mknode_parses hexit ?_
  rw [List.append_nil]
  exact ⟨v, rfl, hne, fun _ => hv⟩

/-- `parse_value` reads texts of values.  A call inside another is for a shorter text, so
that the stack is large enough if it has more frames than the text has characters. -/
theorem parseValue_parses (hexit : ∀ e, MayExit A m out e → Allowed e) (hm : t.length ≤ m)
    (ht : t.length < ptrdiffMax)
    (hstack : Allowed .stackOverflow ∨ t.length < frames) :
    Parses Allowed (parseValue F A out frames) t (ValueRead F out) := by
  induction frames generalizing t with
  | zero => exact parses_halt (hstack.resolve_right (Nat.not_lt_zero _))
  | succ frames ih =>
      have hinner : ∀ t', t'.length < t.length →
          Parses Allowed (parseValue F A out frames) t' (ValueRead F out) :=
        fun t' ht' => ih (ht'.le.trans hm) (ht'.trans ht) (hstack.imp_right fun h => by omega)
      have hnumber : Parses Allowed (do
          let num ← parseNumber F out
          effect (mknode A (num.map JsonTree.JSON_NUMBER))) t (ValueRead F out) := by
        refine parseNumber_parses.bind ?_
        rintro _ w t' _ ⟨hw, rfl⟩
        rw [given_map]
        refine mknode_parses hexit ⟨_, rfl, ?_, ?_⟩
        · rw [List.append_nil]
          obtain ⟨sign, whole, f, x, -, hwhole, -, -, rfl⟩ := hw
          have hne := (digits_of_whole hwhole).1
          simp [hne]
        · intro hfollow
          rw [List.append_nil]
          have hhead : t' ++ [0] = t'.headD 0 :: (t' ++ [0]).tail := by
            cases t' <;> rfl
          rw [hhead, strtodSubject_number hw hfollow]
          exact .number hw
      refine parses_peek_bind (fun hnil => ?_) ?_
      · subst hnil
        simpa only [show (0 : UInt8) ≠ chr 'n' by decide, show (0 : UInt8) ≠ chr 'f' by decide,
          show (0 : UInt8) ≠ chr 't' by decide, show (0 : UInt8) ≠ chr '"' by decide,
          show (0 : UInt8) ≠ chr '[' by decide, show (0 : UInt8) ≠ chr '{' by decide,
          if_false] using hnumber
      · rintro c t' rfl
        split
        · exact parseWord_parses hexit (by decide) (by decide) .null
        split
        · exact parseWord_parses hexit (by decide) (by decide) .false
        split
        · exact parseWord_parses hexit (by decide) (by decide) .true
        split
        · refine (parseString_parses hexit hm ht).bind ?_
          rintro _ w t'' _ ⟨str, hw, rfl⟩
          rw [given_map]
          refine mknode_parses hexit ⟨_, rfl, ?_, ?_⟩
          · obtain ⟨body, cs, rfl, -⟩ := hw
            simp
          · intro _
            rw [List.append_nil]
            exact .string hw
        split
        · exact parseArray_parses hexit hinner le_rfl
        split
        · exact parseObject_parses hexit hm ht.le hinner le_rfl
        · exact hnumber

/-- The whole of a text. -/
theorem parseText_parses (hexit : ∀ e, MayExit A m out e → Allowed e) (hm : t.length ≤ m)
    (ht : t.length < ptrdiffMax)
    (hstack : Allowed .stackOverflow ∨ t.length < frames) (hnul : 0 ∉ t) :
    Parses Allowed (parseText F A out frames) t fun r _ _ =>
      ∃ v, r = given out v ∧ JsonText F t v := by
  refine skipSpace_parses.bind ?_
  intro _ b t₁ ht₁ hb
  have hlen₁ := congrArg List.length ht₁
  simp only [List.length_append] at hlen₁
  refine (parseValue_parses hexit (by omega) (by omega)
    (hstack.imp_right fun h => by omega)).bind ?_
  rintro _ w t₂ ht₂ ⟨v, rfl, hne, hderives⟩
  refine skipSpace_parses.bind ?_
  intro _ b' t₃ ht₃ hb'
  refine parses_peek_bind (fun hnil => ?_) ?_
  · rw [if_neg (not_not.mpr rfl)]
    rw [hnil, List.append_nil] at ht₃
    refine parses_pure ⟨v, rfl, b, w, b', hb, hderives ?_, hb', ?_⟩
    · rw [ht₃]
      exact follow_end hb'
    · rw [ht₁, ht₂, ht₃]
  · rintro c t₄ hc
    have hne : c ≠ 0 := by
      rintro rfl
      exact hnul (by rw [ht₁, ht₂, ht₃, hc]; simp)
    rw [if_pos hne]
    exact parses_fail

end AzureMetadata.Analysis
