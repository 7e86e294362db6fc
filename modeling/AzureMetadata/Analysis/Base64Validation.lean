import AzureMetadata.Analysis.Base64Stream

/-!
# The bytes `base64_decode_ex` accepts

The table of `base64_decode_ex` has 128 entries, and the index is a signed `char`: for a
byte from 128 on it is negative.  `decodeExStep` is described for all bytes, and from it
what the loop does follows from the first byte that is not accepted.
-/

set_option autoImplicit false

namespace AzureMetadata.Analysis

open Clib AzureMetadata.Model

/-- The characters of both alphabets: `-` and `_` are those of 62 and 63 in the second. -/
def inAlphabets (c : UInt8) : Bool := base64Table.contains c || c = 45 || c = 95

/-- The bytes a text may have: the characters of both alphabets, and those to skip. -/
def isAccepted (c : UInt8) : Bool := inAlphabets c || isSkipped c

/-- The value of a character of the alphabets. -/
def digitValue (c : UInt8) : ℕ :=
  if c = 45 then 62 else if c = 95 then 63 else base64Table.idxOf c

/-! ## One byte -/

/-- A property of the first `bound` bytes. -/
theorem forall_byte {P : UInt8 → Prop} {bound : ℕ} (h : ∀ n < bound, P (UInt8.ofNat n)) (c : UInt8)
    (hc : c.toNat < bound) : P c := by
  have hn := h c.toNat hc
  rwa [UInt8.ofNat_toNat] at hn

/-- Below 128 a character is its own value. -/
theorem toInt8_low : ∀ c : UInt8, c.toNat < 128 → c.toInt8.toInt = c.toNat :=
  forall_byte (by decide +kernel)

/-- From 128 on it is negative. -/
theorem toInt8_high : ∀ c : UInt8, c.toNat < 256 → 128 ≤ c.toNat → c.toInt8.toInt < 0 :=
  forall_byte (by decide +kernel)

/-- The reverse table has 64 for every character that is rejected. -/
theorem reverse_rejected : ∀ c : UInt8, c.toNat < 128 → isAccepted c = false →
    base64ReverseTable[c.toNat]? = some 64 :=
  forall_byte (by decide +kernel)

/-- A character of the alphabets is one its value is written with. -/
theorem writes_digitValue {c : UInt8} (hc : inAlphabets c = true) : Writes (digitValue c) c := by
  unfold digitValue
  by_cases hminus : c = 45
  · rw [hminus]
    exact .minus
  · by_cases hunderscore : c = 95
    · rw [hunderscore]
      exact .underscore
    · have hmem : c ∈ base64Table := by simpa [inAlphabets, hminus, hunderscore] using hc
      have hindex := List.idxOf_lt_length_of_mem hmem
      have hchar : base64Char (base64Table.idxOf c) = c := by
        rw [base64Char, List.getD_eq_getElem?_getD, List.getElem?_eq_getElem hindex,
          Option.getD_some, List.getElem_idxOf]
      have hlength : base64Table.length = 64 := rfl
      rw [hlength] at hindex
      have hstandard := Writes.standard hindex
      rw [if_neg hminus, if_neg hunderscore]
      rwa [hchar] at hstandard

/-- A character of an alphabet is collected. -/
theorem decodeExStep_inAlphabets {c : UInt8} (hc : inAlphabets c = true) (s : DecodeEx) :
    decodeExStep s c = .ok (some (collect s (digitValue c))) :=
  decodeExStep_digit (writes_digitValue hc) s

/-- One that is skipped changes nothing. -/
theorem decodeExStep_skipped {c : UInt8} (hc : isSkipped c = true) (s : DecodeEx) :
    decodeExStep s c = .ok (some s) := by
  rw [decodeExStep, if_pos hc]

/-- A byte below 128 that is not accepted has 64 in the table. -/
theorem decodeExStep_rejected {c : UInt8} (hc : isAccepted c = false) (hlow : c.toNat < 128)
    (s : DecodeEx) : decodeExStep s c = .ok none := by
  have hindex := toInt8_low c hlow
  have htable := reverse_rejected c hlow hc
  have hskip : isSkipped c = false := (Bool.or_eq_false_iff.mp hc).2
  have hin : (0 : ℤ) ≤ c.toNat := Int.natCast_nonneg _
  have hbig : 64 > 63 := by omega
  simp only [decodeExStep, hskip, hindex, hin, Int.toNat_natCast, htable, hbig, if_true, if_false,
    Bool.false_eq_true]

/-- Any other is read outside the table. -/
theorem decodeExStep_outside {c : UInt8} (hc : isAccepted c = false) (hhigh : 128 ≤ c.toNat)
    (s : DecodeEx) : decodeExStep s c = .error .outOfBounds := by
  have hindex := toInt8_high c c.toNat_lt hhigh
  have hskip : isSkipped c = false := (Bool.or_eq_false_iff.mp hc).2
  simp only [decodeExStep, hskip, Int.not_le.mpr hindex, if_false, Bool.false_eq_true]

/-! ## The loop -/

/-- The first byte of a text that is not accepted. -/
def firstRejected (src : List UInt8) : Option UInt8 := src.find? fun c => !isAccepted c

/-- So one that is accepted does not end the loop. -/
theorem decodeExStep_accepted {c : UInt8} (hc : isAccepted c = true) (s : DecodeEx) :
    ∃ s', decodeExStep s c = .ok (some s') := by
  cases Bool.or_eq_true_iff.mp hc with
  | inl halphabet => exact ⟨_, decodeExStep_inAlphabets halphabet s⟩
  | inr hskip => exact ⟨s, decodeExStep_skipped hskip s⟩

/-- A text without a rejected character is read to its end. -/
theorem decodeExLoop_accepted {src : List UInt8} (h : firstRejected src = none) (s : DecodeEx) :
    ∃ s', decodeExLoop s src = .ok (0, s') := by
  induction src generalizing s with
  | nil => exact ⟨s, rfl⟩
  | cons c src ih =>
      cases hc : isAccepted c with
      | true =>
          rw [firstRejected, List.find?_cons_of_neg (by simp [hc])] at h
          obtain ⟨s', hstep⟩ := decodeExStep_accepted hc s
          rw [decodeExLoop, hstep]
          exact ih h s'
      | false =>
          rw [firstRejected, List.find?_cons_of_pos (by simp [hc])] at h
          cases h

/-- The first rejected character ends the loop or is read outside the table. -/
theorem decodeExLoop_rejected {src : List UInt8} {c : UInt8} (h : firstRejected src = some c)
    (s : DecodeEx) :
    (c.toNat < 128 → ∃ s', decodeExLoop s src = .ok (-1, s')) ∧
      (128 ≤ c.toNat → decodeExLoop s src = .error .outOfBounds) := by
  induction src generalizing s with
  | nil => cases h
  | cons c' src ih =>
      cases hc : isAccepted c' with
      | true =>
          rw [firstRejected, List.find?_cons_of_neg (by simp [hc])] at h
          obtain ⟨s', hstep⟩ := decodeExStep_accepted hc s
          rw [decodeExLoop, hstep]
          exact ih h s'
      | false =>
          rw [firstRejected, List.find?_cons_of_pos (by simp [hc])] at h
          cases h
          constructor
          · intro hlow
            rw [decodeExLoop, decodeExStep_rejected hc hlow]
            exact ⟨s, rfl⟩
          · intro hhigh
            rw [decodeExLoop, decodeExStep_outside hc hhigh]
            rfl

/-! ## The call -/

/-- The call reads its table inside only, and returns -1 exactly when there is a byte that
is not accepted. -/
def Validates (src : List UInt8) (dst_len : ℕ) : Prop :=
  ∃ r, base64DecodeEx src src.length dst_len = .ok r ∧
    (r.ret = -1 ↔ ∃ c ∈ src, isAccepted c = false)

/-- The call on a text with its own length. -/
theorem base64DecodeEx_loop {src : List UInt8} (hne : src ≠ []) (dst_len : ℕ) :
    base64DecodeEx src src.length dst_len = (do
      let (ret, s) ← decodeExLoop ⟨0, 0, []⟩ src
      if ret ≠ 0 then pure ⟨-1, s.written, dst_len⟩
      else pure ⟨0, s.written, s.written.length⟩) := by
  have hpos := List.length_pos_of_ne_nil hne
  have hchars : max src.length 1 = src.length := by omega
  have hlen : src.length ≠ 0 := by omega
  unfold base64DecodeEx
  simp only [hlen, if_false, hchars, List.take_length, pure_bind, Nat.lt_irrefl]

/-- **The bytes that are told apart.**  The call keeps to its table and rejects what is to
be rejected exactly when the first byte that is not accepted, if there is one, is an ASCII
character. -/
theorem base64DecodeEx_validates_iff {src : List UInt8} (hne : src ≠ []) (dst_len : ℕ) :
    Validates src dst_len ↔ ∀ c, firstRejected src = some c → c.toNat < 128 := by
  unfold Validates
  rw [base64DecodeEx_loop hne]
  cases hfirst : firstRejected src with
  | none =>
      obtain ⟨s', hloop⟩ := decodeExLoop_accepted hfirst ⟨0, 0, []⟩
      have hnone : ¬ ∃ c ∈ src, isAccepted c = false := by
        rintro ⟨c, hc, hrejected⟩
        have hall := List.find?_eq_none.mp hfirst c hc
        simp [hrejected] at hall
      rw [hloop]
      apply iff_of_true
      · exact ⟨⟨0, s'.written, s'.written.length⟩, rfl, by simp [hnone]⟩
      · intro c hc
        cases hc
  | some c =>
      have hsome : ∃ c ∈ src, isAccepted c = false := by
        refine ⟨c, List.mem_of_find?_eq_some hfirst, ?_⟩
        simpa using List.find?_some hfirst
      obtain ⟨hlow, hhigh⟩ := decodeExLoop_rejected hfirst ⟨0, 0, []⟩
      constructor
      · rintro ⟨r, hr, -⟩ c' hc'
        cases hc'
        by_contra houtside
        rw [hhigh (by omega)] at hr
        cases hr
      · intro h
        obtain ⟨s', hloop⟩ := hlow (h c rfl)
        rw [hloop]
        exact ⟨⟨-1, s'.written, dst_len⟩, rfl, by simp [hsome]⟩

/-- `Q*`, with a character of no alphabet. -/
theorem base64DecodeEx_validates_iff_q :
    Validates [81, 42] 0 ↔ ∀ c, firstRejected [81, 42] = some c → c.toNat < 128 :=
  base64DecodeEx_validates_iff (by decide) 0

/-- The byte `80` is read at index -128. -/
theorem base64DecodeEx_outside_80 :
    base64DecodeEx [0x80] 1 0 = .error .outOfBounds ∧ ¬ Validates [0x80] 0 := by
  have hcall : base64DecodeEx [0x80] 1 0 = .error .outOfBounds := by rfl
  refine ⟨hcall, ?_⟩
  rintro ⟨r, hr, -⟩
  rw [show [(0x80 : UInt8)].length = 1 from rfl, hcall] at hr
  cases hr

end AzureMetadata.Analysis
