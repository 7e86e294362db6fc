import AzureMetadata.Interface.JsonGrammar
import AzureMetadata.Model.JsonParse

/-!
# Numbers

`parse_number` reads what the pattern of json.c:908-917 allows, as far as it goes, and then
`strtod` reads the same place again.  The two agree on where the number ends when what
follows may follow a value (`strtodSubject_number`); on `0x10` they do not, but that is
rejected later.
-/

set_option autoImplicit false

namespace AzureMetadata.Analysis

open Clib Scanner AzureMetadata.Model AzureMetadata.Interface

variable {F : Floating} {Allowed : Stop → Prop} {s t w d f x : List UInt8} {c : UInt8} {out : Bool}

/-- The cells that may follow a value: the terminator, a blank, or what separates values. -/
def isFollow (c : UInt8) : Bool := c = 0 ∨ isJsonSpace c ∨ c = chr ',' ∨ c = chr ']' ∨ c = chr '}'

/-- What may follow a number is no part of one. -/
theorem not_digit_of_isFollow : ∀ c : UInt8, isFollow c = true →
    isDigit c = false ∧ c ≠ chr '.' ∧ c ≠ chr 'e' ∧ c ≠ chr 'E' ∧ c ≠ chr 'x' ∧ c ≠ chr 'X' :=
  forall_uint8 (by decide +kernel)

/-! ## What is read -/

/-- What is read are digits. -/
theorem parseDigits_parses : Parses Allowed parseDigits t fun _ w _ => Digits w := by
  refine parses_peek_bind (fun _ => parses_fail) ?_
  rintro a t' rfl
  cases ha : isDigit a with
  | false => exact parses_fail
  | true =>
      refine parses_skipWhile rfl ?_
      intro w t'' ht hw hend
      refine ⟨?_, hw⟩
      rintro rfl
      rw [List.nil_append] at ht
      rw [← ht] at hend
      have hno := hend a rfl
      rw [ha] at hno
      cases hno

/-- A sign, or none. -/
theorem parseSign_parses : Parses Allowed parseSign t fun _ w _ => w = [] ∨ w = [chr '-'] := by
  refine parses_peek_bind (fun _ => parses_pure (.inl rfl)) ?_
  rintro a t' rfl
  split
  · next h => exact parses_next_cons (parses_pure (.inr (by rw [h])))
  · exact parses_pure (.inl rfl)

/-- A whole number without leading zeros. -/
theorem parseWhole_parses : Parses Allowed parseWhole t fun _ w _ => WholeText w := by
  refine parses_peek_bind (fun _ => ?_) ?_
  · rw [if_neg (by decide)]
    exact parseDigits_parses.mono fun _ _ _ ht hw =>
      absurd (List.append_eq_nil_iff.mp ht.symm).1 hw.1
  · rintro a t' rfl
    split
    · next h => exact parses_next_cons (parses_pure (.inl (by rw [h])))
    · next h =>
        refine parseDigits_parses.mono ?_
        intro _ w t'' ht hw
        refine .inr ⟨hw, ?_⟩
        obtain ⟨b, w', rfl⟩ := List.exists_cons_of_ne_nil hw.1
        obtain ⟨rfl, -⟩ := List.cons.inj ht
        simpa using h

/-- A fraction, or none. -/
theorem parseFraction_parses : Parses Allowed parseFraction t fun _ w _ => FractionText w := by
  refine parses_peek_bind (fun _ => parses_pure (.inl rfl)) ?_
  rintro a t' rfl
  split
  · next h =>
      refine parses_next_cons (parseDigits_parses.mono ?_)
      intro _ w _ _ hw
      exact .inr ⟨w, hw, by rw [h]⟩
  · exact parses_pure (.inl rfl)

/-- The sign of an exponent, or none. -/
theorem parseExponentSign_parses : Parses Allowed parseExponentSign t fun _ w _ =>
    w = [] ∨ w = [chr '+'] ∨ w = [chr '-'] := by
  refine parses_peek_bind (fun _ => parses_pure (.inl rfl)) ?_
  rintro a t' rfl
  split
  · next h =>
      refine parses_next_cons (parses_pure ?_)
      rcases h with rfl | rfl
      · exact .inr (.inl rfl)
      · exact .inr (.inr rfl)
  · exact parses_pure (.inl rfl)

/-- An exponent, or none. -/
theorem parseExponent_parses : Parses Allowed parseExponent t fun _ w _ => ExponentText w := by
  refine parses_peek_bind (fun _ => parses_pure (.inl rfl)) ?_
  rintro a t' rfl
  split
  · next h =>
      refine parses_next_cons (parseExponentSign_parses.bind ?_)
      intro _ sign t₁ _ hsign
      refine parseDigits_parses.mono ?_
      intro _ d _ _ hd
      exact .inr ⟨a, sign, d, h.symm, hsign, hd, rfl⟩
  · exact parses_pure (.inl rfl)

/-- `parse_number` reads a number; what it stores is the value of the text `strtod` finds. -/
theorem parseNumber_parses : Parses Allowed (parseNumber F out) t fun r w t' =>
    NumberText w ∧ r = given out (F.value (strtodSubject (w ++ (t' ++ [0])))) := by
  refine parses_cells_bind (parseSign_parses.bind ?_)
  intro _ sign t₁ ht₁ hsign
  refine parseWhole_parses.bind ?_
  intro _ whole t₂ ht₂ hwhole
  refine parseFraction_parses.bind ?_
  intro _ fraction t₃ ht₃ hfraction
  refine parseExponent_parses.bind ?_
  intro _ exponent t₄ ht₄ hexponent
  refine parses_pure
    ⟨⟨sign, whole, fraction, exponent, hsign, hwhole, hfraction, hexponent, ?_⟩, ?_⟩
  · rw [List.append_nil]
  · rw [ht₁, ht₂, ht₃, ht₄, strtod]
    simp

/-! ## Every number is read -/

/-- After the fraction comes a cell that is neither a digit nor a point. -/
theorem head_after_fraction (hx : ExponentText x) (hc : isFollow c = true) :
    ∃ a s', x ++ c :: s = a :: s' ∧ isDigit a = false ∧ a ≠ chr '.' ∧ a ≠ chr 'x' ∧
      a ≠ chr 'X' := by
  rcases hx with rfl | ⟨e, sign, d, he, -, -, rfl⟩
  · obtain ⟨hdigit, hpoint, -, -, hx, hX⟩ := not_digit_of_isFollow c hc
    exact ⟨c, s, rfl, hdigit, hpoint, hx, hX⟩
  · refine ⟨e, sign ++ d ++ c :: s, by simp, ?_⟩
    rcases he with rfl | rfl <;> decide

/-- After the whole part comes a cell that is no digit. -/
theorem head_after_whole (hf : FractionText f) (hx : ExponentText x) (hc : isFollow c = true) :
    ∃ a s', f ++ (x ++ c :: s) = a :: s' ∧ isDigit a = false ∧ a ≠ chr 'x' ∧ a ≠ chr 'X' := by
  rcases hf with rfl | ⟨d, -, rfl⟩
  · obtain ⟨a, s', he, hdigit, -, hx⟩ := head_after_fraction (s := s) hx hc
    exact ⟨a, s', he, hdigit, hx⟩
  · exact ⟨chr '.', d ++ (x ++ c :: s), rfl, by decide⟩

/-- Digits are read up to the first other character. -/
theorem parseDigits_reads (hd : Digits d) {a : UInt8} (ha : isDigit a = false) :
    Reads Allowed parseDigits (d ++ a :: s) () (a :: s) := by
  obtain ⟨b, d', rfl⟩ := List.exists_cons_of_ne_nil hd.1
  rw [List.cons_append]
  refine reads_peek.bind ?_
  rw [if_pos (hd.2 b (by simp)), ← List.cons_append]
  exact reads_skipWhile hd.2 ha

/-- Any character may be skipped. -/
theorem skip_reads {a : UInt8} : Reads Allowed (discard derefNext) (a :: s) () s :=
  reads_next.bind (accepts_pure ⟨rfl, rfl⟩)

/-- A whole number is read up to what is no digit. -/
theorem parseWhole_reads (hw : WholeText w) {a : UInt8} (ha : isDigit a = false) :
    Reads Allowed parseWhole (w ++ a :: s) () (a :: s) := by
  rcases hw with rfl | ⟨hd, hhead⟩
  · refine reads_peek.bind ?_
    rw [if_pos rfl]
    exact skip_reads
  · have hread : Reads Allowed parseDigits (w ++ a :: s) () (a :: s) := parseDigits_reads hd ha
    obtain ⟨b, d', rfl⟩ := List.exists_cons_of_ne_nil hd.1
    rw [List.cons_append] at hread ⊢
    refine reads_peek.bind ?_
    rw [if_neg (by simpa using hhead)]
    exact hread

/-- A fraction is. -/
theorem parseFraction_reads (hf : FractionText f) {a : UInt8} (ha : isDigit a = false)
    (hpoint : a ≠ chr '.') : Reads Allowed parseFraction (f ++ a :: s) () (a :: s) := by
  rcases hf with rfl | ⟨d, hd, rfl⟩
  · refine reads_peek.bind ?_
    rw [if_neg hpoint]
    exact reads_pure
  · refine reads_peek.bind ?_
    rw [if_pos rfl]
    exact reads_next.bind (parseDigits_reads hd ha)

/-- The sign of an exponent is. -/
theorem parseExponentSign_reads {sign : List UInt8} {a : UInt8}
    (hsign : sign = [] ∨ sign = [chr '+'] ∨ sign = [chr '-']) (ha : isDigit a = true) :
    Reads Allowed parseExponentSign (sign ++ a :: s) () (a :: s) := by
  rcases hsign with rfl | rfl | rfl
  · refine reads_peek.bind ?_
    rw [if_neg]
    · exact reads_pure
    · rintro (rfl | rfl) <;> cases ha
  · exact reads_peek.bind skip_reads
  · exact reads_peek.bind skip_reads

/-- An exponent is read up to what may follow. -/
theorem parseExponent_reads (hx : ExponentText x) (hc : isFollow c = true) :
    Reads Allowed parseExponent (x ++ c :: s) () (c :: s) := by
  obtain ⟨hdigit, -, he, hE, -, -⟩ := not_digit_of_isFollow c hc
  rcases hx with rfl | ⟨e, sign, d, hmark, hsign, hd, rfl⟩
  · refine reads_peek.bind ?_
    rw [if_neg (by simp [he, hE])]
    exact reads_pure
  · have hread : Reads Allowed parseDigits (d ++ c :: s) () (c :: s) :=
      parseDigits_reads hd hdigit
    obtain ⟨b, d', rfl⟩ := List.exists_cons_of_ne_nil hd.1
    have hb := hd.2 b (by simp)
    rw [List.cons_append, List.append_assoc]
    refine reads_peek.bind ?_
    rw [if_pos hmark.symm]
    refine reads_next.bind ?_
    exact (parseExponentSign_reads hsign hb).bind hread

/-! ## Where `strtod` stops -/

/-- `strtod` takes the digits up to the first other character. -/
theorem takeWhile_digits {a : UInt8} (hd : ∀ c ∈ d, isDigit c = true) (ha : isDigit a = false) :
    (d ++ a :: s).takeWhile isDigit = d ∧ (d ++ a :: s).dropWhile isDigit = a :: s := by
  rw [List.takeWhile_append_of_pos hd, List.dropWhile_append_of_pos hd]
  simp [ha]

/-- It takes the exponent of the grammar. -/
theorem exponentOf_text (hx : ExponentText x) (hc : isFollow c = true) :
    exponentOf [chr 'e', chr 'E'] (x ++ c :: s) = x := by
  obtain ⟨hdigit, -, he, hE, -, -⟩ := not_digit_of_isFollow c hc
  rcases hx with rfl | ⟨e, sign, d, hmark, hsign, hd, rfl⟩
  · simp [exponentOf, he, hE]
  · have htake := (takeWhile_digits (s := s) hd.2 hdigit).1
    have hsignOf : signOf (sign ++ (d ++ c :: s)) = sign := by
      obtain ⟨b, d', rfl⟩ := List.exists_cons_of_ne_nil hd.1
      have hb := hd.2 b (by simp)
      rcases hsign with rfl | rfl | rfl
      · have hne : ¬ (b = chr '+' ∨ b = chr '-') := by
          rintro (rfl | rfl) <;> cases hb
        exact if_neg hne
      · rfl
      · rfl
    have hmem : e ∈ [chr 'e', chr 'E'] := by simpa using hmark
    rw [List.cons_append, List.append_assoc, exponentOf, hsignOf, List.drop_left, htake,
      if_pos ⟨hmem, hd.1⟩]

/-- It takes the digits and the fraction. -/
theorem mantissaOf_text (hd : Digits d) (hf : FractionText f) (hx : ExponentText x)
    (hc : isFollow c = true) : mantissaOf isDigit (d ++ (f ++ (x ++ c :: s))) = d ++ f := by
  obtain ⟨a, s', ha, hdigit, hpoint, -⟩ := head_after_fraction (s := s) hx hc
  rw [ha]
  rcases hf with rfl | ⟨d', hd', rfl⟩
  · obtain ⟨htake, hdrop⟩ := takeWhile_digits (s := s') hd.2 hdigit
    rw [List.nil_append, mantissaOf, htake, hdrop]
    simp [hpoint]
  · obtain ⟨htake, hdrop⟩ := takeWhile_digits (s := d' ++ a :: s') hd.2
      (show isDigit (chr '.') = false by decide)
    have htake' := (takeWhile_digits (s := s') hd'.2 hdigit).1
    rw [List.cons_append, mantissaOf, htake, hdrop]
    simp [htake', hd.1]

/-- It takes no number in base 16. -/
theorem hexOf_text (hw : WholeText w) {a : UInt8} (ha : a ≠ chr 'x' ∧ a ≠ chr 'X') :
    hexOf (w ++ a :: s) = [] := by
  rcases hw with rfl | ⟨hd, hhead⟩
  · show (if _ then _ else _) = _
    rw [if_neg]
    rintro ⟨-, h | h⟩
    · exact ha.1 h
    · exact ha.2 h
  · obtain ⟨b, d', rfl⟩ := List.exists_cons_of_ne_nil hd.1
    have hb : b ≠ chr '0' := by simpa using hhead
    cases d' with
    | nil =>
        show (if _ then _ else _) = _
        rw [if_neg (fun h => hb h.1)]
    | cons b' d' =>
        show (if _ then _ else _) = _
        rw [if_neg (fun h => hb h.1)]

/-- A whole number has digits only. -/
theorem digits_of_whole (hw : WholeText w) : Digits w := by
  rcases hw with rfl | ⟨hd, -⟩
  · refine ⟨List.cons_ne_nil _ _, fun c hc => ?_⟩
    rw [List.mem_singleton.mp hc]
    decide
  · exact hd

/-- Before a cell that may follow a value, `strtod` finds the number that was read. -/
theorem strtodSubject_number (hw : NumberText w) (hc : isFollow c = true) :
    strtodSubject (w ++ c :: s) = w := by
  obtain ⟨sign, whole, f, x, hsign, hwhole, hf, hx, rfl⟩ := hw
  have hd := digits_of_whole hwhole
  obtain ⟨a, s', ha, hdigit, hhex⟩ := head_after_whole (s := s) hf hx hc
  have hsignOf : signOf (sign ++ (whole ++ (f ++ (x ++ c :: s)))) = sign := by
    obtain ⟨b, d', rfl⟩ := List.exists_cons_of_ne_nil hd.1
    have hb := hd.2 b (by simp)
    rcases hsign with rfl | rfl
    · have hne : ¬ (b = chr '+' ∨ b = chr '-') := by
        rintro (rfl | rfl) <;> cases hb
      exact if_neg hne
    · rfl
  have hmantissa := mantissaOf_text (s := s) hd hf hx hc
  have hne : whole ++ f ≠ [] := fun h => hd.1 (List.append_eq_nil_iff.mp h).1
  have hexponent : exponentOf [chr 'e', chr 'E']
      ((whole ++ (f ++ (x ++ c :: s))).drop (whole ++ f).length) = x := by
    rw [← List.append_assoc, List.drop_left]
    exact exponentOf_text hx hc
  have hunsigned : unsignedOf isDigit [chr 'e', chr 'E'] (whole ++ (f ++ (x ++ c :: s))) =
      whole ++ f ++ x := by
    rw [unsignedOf, hmantissa, if_neg hne, hexponent]
  have hassoc : sign ++ (whole ++ (f ++ x)) ++ c :: s =
      sign ++ (whole ++ (f ++ (x ++ c :: s))) := by simp
  have hhexOf := hexOf_text (s := s') hwhole hhex
  rw [← ha] at hhexOf
  have hnumber : whole ++ f ++ x ≠ [] := fun h => hne (List.append_eq_nil_iff.mp h).1
  rw [hassoc, strtodSubject, hsignOf, List.drop_left, hhexOf, if_pos rfl, hunsigned,
    if_neg hnumber, List.append_assoc]

/-- **Every number is read** for the value of its text. -/
theorem parseNumber_reads (hw : NumberText w) (hc : isFollow c = true) :
    Reads Allowed (parseNumber F out) (w ++ c :: s) (given out (F.value w)) (c :: s) := by
  have hvalue : strtod F (w ++ c :: s) = F.value w := by
    rw [strtod, strtodSubject_number hw hc]
  obtain ⟨sign, whole, f, x, hsign, hwhole, hf, hx, rfl⟩ := hw
  obtain ⟨a, s', ha, hdigit, -⟩ := head_after_whole (s := s) hf hx hc
  obtain ⟨a', s'', ha', hdigit', hpoint, -⟩ := head_after_fraction (s := s) hx hc
  have hsigned : Reads Allowed parseSign (sign ++ (whole ++ (f ++ (x ++ c :: s)))) ()
      (whole ++ (f ++ (x ++ c :: s))) := by
    have hd := digits_of_whole hwhole
    obtain ⟨b, d', rfl⟩ := List.exists_cons_of_ne_nil hd.1
    have hb := hd.2 b (by simp)
    rcases hsign with rfl | rfl
    · refine reads_peek.bind ?_
      rw [if_neg]
      · exact reads_pure
      · rintro rfl
        cases hb
    · exact reads_peek.bind skip_reads
  refine reads_cells.bind ?_
  rw [hvalue]
  have hassoc : sign ++ (whole ++ (f ++ x)) ++ c :: s =
      sign ++ (whole ++ (f ++ (x ++ c :: s))) := by simp
  rw [hassoc]
  refine hsigned.bind ?_
  rw [ha]
  refine (parseWhole_reads hwhole hdigit).bind ?_
  rw [← ha, ha']
  refine (parseFraction_reads hf hdigit' hpoint).bind ?_
  rw [← ha']
  exact (parseExponent_reads hx hc).bind reads_pure

end AzureMetadata.Analysis
