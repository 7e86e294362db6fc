import AzureMetadata.Analysis.JsonUtf8
import AzureMetadata.Interface.JsonGrammar

/-!
# Surrogate pairs and hexadecimal digits

The two ways a `\u` escape and its value are turned into each other: surrogate pairs for
the values past `0xFFFF`, and four hexadecimal digits for a unit of sixteen bits.
-/

set_option autoImplicit false

namespace AzureMetadata.Analysis

open Clib AzureMetadata.Model AzureMetadata.Interface

variable {n : ℕ} {s t w r : List UInt8}

/-! ## Surrogate pairs -/

/-- A pair is a high and a low surrogate with ten bits each. -/
theorem fromSurrogatePair_eq_some_iff {uc lc : UInt16} {u : UInt32} :
    fromSurrogatePair uc lc = some u ↔ ∃ h l, h < 0x400 ∧ l < 0x400 ∧ uc.toNat = 0xD800 + h ∧
      lc.toNat = 0xDC00 + l ∧ u.toNat = 0x10000 + h * 0x400 + l := by
  have hvalue : ((0x10000 : UInt32) + (((uc.toUInt32 &&& 0x3FF) <<< 10) |||
      (lc &&& 0x3FF).toUInt32)).toNat =
      0x10000 + uc.toNat % 0x400 * 0x400 + lc.toNat % 0x400 := by
    simp only [UInt32.toNat_add, UInt32.toNat_or, UInt32.toNat_and, UInt32.toNat_shiftLeft,
      UInt16.toNat_toUInt32, UInt16.toNat_and, Nat.shiftLeft_eq, UInt32.toNat_ofNat,
      UInt16.toNat_ofNat, Nat.reducePow, Nat.reduceMod, and_1023]
    rw [or_eq_add 10 (by omega) (by omega)]
    omega
  unfold fromSurrogatePair
  simp only [ge_iff_le, UInt16.le_iff_toNat_le, UInt16.toNat_ofNat, Nat.reducePow, Nat.reduceMod]
  constructor
  · intro h
    split at h
    · next hr =>
        cases h
        exact ⟨uc.toNat - 0xD800, lc.toNat - 0xDC00, by omega, by omega, by omega, by omega,
          by rw [hvalue]; omega⟩
    · cases h
  · rintro ⟨h, l, hh, hl, huc, hlc, hu⟩
    rw [if_pos (by omega), Option.some.injEq]
    apply UInt32.toNat_inj.mp
    rw [hvalue]
    omega

/-- A value past `0xFFFF` is written as a pair of surrogates that stands for it. -/
theorem toSurrogatePair_eq {u : UInt32} (hu : 0x10000 ≤ u.toNat) (hu' : u.toNat ≤ 0x10FFFF) :
    ∃ uc lc, toSurrogatePair u = .ok (uc, lc) ∧ fromSurrogatePair uc lc = some u := by
  have hn : (u - 0x10000).toNat = u.toNat - 0x10000 :=
    UInt32.toNat_sub_of_le _ _ (UInt32.le_iff_toNat_le.mpr hu)
  have hshift : ((u - 0x10000) >>> 10).toNat = (u.toNat - 0x10000) / 0x400 := by
    rw [toNat_shiftRight _ (by decide), hn]
    rfl
  have huc : ((((u - 0x10000) >>> 10) &&& 0x3FF) ||| 0xD800 : UInt32).toUInt16.toNat =
      0xD800 + (u.toNat - 0x10000) / 0x400 := by
    simp only [UInt32.toNat_toUInt16, UInt32.toNat_or, UInt32.toNat_and, hshift,
      UInt32.toNat_ofNat, Nat.reducePow, Nat.reduceMod, and_1023]
    rw [Nat.or_comm, or_eq_add 10 (by omega) (by omega)]
    omega
  have hlc : (((u - 0x10000) &&& 0x3FF) ||| 0xDC00 : UInt32).toUInt16.toNat =
      0xDC00 + (u.toNat - 0x10000) % 0x400 := by
    simp only [UInt32.toNat_toUInt16, UInt32.toNat_or, UInt32.toNat_and, hn,
      UInt32.toNat_ofNat, Nat.reducePow, Nat.reduceMod, and_1023]
    rw [Nat.or_comm, or_eq_add 10 (by omega) (by omega)]
    omega
  refine ⟨_, _, if_neg ?_, fromSurrogatePair_eq_some_iff.mpr ?_⟩
  · simp only [ge_iff_le, UInt32.le_iff_toNat_le, UInt32.toNat_ofNat, Nat.reducePow,
      Nat.reduceMod, not_not]
    exact ⟨hu, hu'⟩
  · exact ⟨_, _, by omega, Nat.mod_lt _ (by decide), huc, hlc, by omega⟩

/-! ## Hexadecimal digits -/

/-- A digit of the grammar is one of the parser. -/
theorem hexDigit_of_value {c : UInt8} {v : ℕ} (h : HexDigit c v) :
    ∃ d, hexDigit c = some d ∧ d.toNat = v := by
  have hv : v < 16 := by
    unfold HexDigit at h
    omega
  have hall : ∀ c : UInt8, ∀ v < 16, HexDigit c v → (hexDigit c).map UInt16.toNat = some v :=
    forall_uint8 (by decide +kernel)
  exact Option.map_eq_some_iff.mp (hall c v hv h)

/-- And the other way round, with the same value. -/
theorem value_of_hexDigit {c : UInt8} {d : UInt16} (h : hexDigit c = some d) :
    HexDigit c d.toNat := by
  have hall : ∀ c : UInt8, hexDigit c = none ∨
      ∃ v < 16, HexDigit c v ∧ (hexDigit c).map UInt16.toNat = some v :=
    forall_uint8 (by decide +kernel)
  cases hall c with
  | inl hnone =>
      rw [hnone] at h
      cases h
  | inr hsome =>
      obtain ⟨v, -, hv, hmap⟩ := hsome
      rw [h, Option.map_some, Option.some.injEq] at hmap
      rwa [hmap]

/-- One more digit, as long as the number fits. -/
theorem toNat_push {x d : UInt16} (h : x.toNat * 16 + d.toNat < 65536) :
    ((x <<< 4) + d).toNat = x.toNat * 16 + d.toNat := by
  simp only [UInt16.toNat_add, UInt16.toNat_shiftLeft, Nat.shiftLeft_eq, UInt16.toNat_ofNat,
    Nat.reducePow, Nat.reduceMod]
  omega

/-- Four digits are shifted together without loss. -/
theorem toNat_hex4 {d₁ d₂ d₃ d₄ : UInt16} (h₁ : d₁.toNat < 16) (h₂ : d₂.toNat < 16)
    (h₃ : d₃.toNat < 16) (h₄ : d₄.toNat < 16) :
    ((((((((0 : UInt16) <<< 4) + d₁) <<< 4) + d₂) <<< 4) + d₃) <<< 4 + d₄).toNat =
      d₁.toNat * 4096 + d₂.toNat * 256 + d₃.toNat * 16 + d₄.toNat := by
  have hz : (0 : UInt16).toNat = 0 := rfl
  have e₁ := toNat_push (x := 0) (d := d₁) (by omega)
  have e₂ := toNat_push (x := ((0 : UInt16) <<< 4) + d₁) (d := d₂) (by omega)
  have e₃ := toNat_push (x := ((((0 : UInt16) <<< 4) + d₁) <<< 4) + d₂) (d := d₃) (by omega)
  rw [toNat_push (by omega)]
  omega

/-- A digit has four bits. -/
theorem hexDigit_lt {c : UInt8} {v : ℕ} (h : HexDigit c v) : v < 16 := by
  unfold HexDigit at h
  omega

variable {Allowed : Stop → Prop}

/-- A digit is read, then those that are left. -/
theorem parseHexDigits_parses {i : ℕ} {ret : UInt16} {Q : UInt16 → List UInt8 → List UInt8 → Prop}
    (h : ∀ c d t', t = c :: t' → HexDigit c d.toNat →
      Scanner.Parses Allowed (parseHexDigits i ((ret <<< 4) + d)) t'
        fun v w t'' => Q v (c :: w) t'') :
    Scanner.Parses Allowed (parseHexDigits (i + 1) ret) t Q := by
  refine Scanner.parses_next_bind (fun _ => rfl) ?_
  intro c t' ht
  cases hc : hexDigit c with
  | none => exact Scanner.parses_fail
  | some d => exact h c d t' ht (value_of_hexDigit hc)

/-- `parse_hex16` reads four digits and returns their value. -/
theorem parseHex16_parses :
    Scanner.Parses Allowed parseHex16 t fun v w _ => Hex4 w v.toNat := by
  refine parseHexDigits_parses fun c₁ d₁ t₁ _ h₁ => ?_
  refine parseHexDigits_parses fun c₂ d₂ t₂ _ h₂ => ?_
  refine parseHexDigits_parses fun c₃ d₃ t₃ _ h₃ => ?_
  refine parseHexDigits_parses fun c₄ d₄ t₄ _ h₄ => ?_
  refine Scanner.parses_pure ?_
  exact ⟨c₁, c₂, c₃, c₄, _, _, _, _, rfl, h₁, h₂, h₃, h₄,
    toNat_hex4 (hexDigit_lt h₁) (hexDigit_lt h₂) (hexDigit_lt h₃) (hexDigit_lt h₄)⟩

/-- A digit that is there is read. -/
theorem parseHexDigits_reads {i : ℕ} {ret v d : UInt16} {c : UInt8} (hc : hexDigit c = some d)
    (h : Scanner.Reads Allowed (parseHexDigits i ((ret <<< 4) + d)) s v r) :
    Scanner.Reads Allowed (parseHexDigits (i + 1) ret) (c :: s) v r := by
  refine Scanner.reads_next.bind ?_
  rw [hc]
  exact h

/-- Four digits are read as their value. -/
theorem parseHex16_reads (h : Hex4 w n) :
    ∃ v, v.toNat = n ∧ ∀ s, Scanner.Reads Allowed parseHex16 (w ++ s) v s := by
  obtain ⟨c₁, c₂, c₃, c₄, v₁, v₂, v₃, v₄, rfl, h₁, h₂, h₃, h₄, rfl⟩ := h
  obtain ⟨d₁, e₁, rfl⟩ := hexDigit_of_value h₁
  obtain ⟨d₂, e₂, rfl⟩ := hexDigit_of_value h₂
  obtain ⟨d₃, e₃, rfl⟩ := hexDigit_of_value h₃
  obtain ⟨d₄, e₄, rfl⟩ := hexDigit_of_value h₄
  refine ⟨_, toNat_hex4 (hexDigit_lt h₁) (hexDigit_lt h₂) (hexDigit_lt h₃) (hexDigit_lt h₄), ?_⟩
  intro s
  exact parseHexDigits_reads e₁ (parseHexDigits_reads e₂ (parseHexDigits_reads e₃
    (parseHexDigits_reads e₄ Scanner.reads_pure)))

/-- `write_hex16` writes four digits with the value it is given. -/
theorem writeHex16_hex4 (v : UInt16) : Hex4 (writeHex16 v) v.toNat := by
  have hdigit : ∀ v < 16, HexDigit (hexDigits.getD v 0) v := by decide
  have hand : ∀ x : UInt16, (x &&& 0xF).toNat = x.toNat % 16 := by
    intro x
    rw [UInt16.toNat_and]
    exact and_15 _
  have hlt : ∀ x : UInt16, (x &&& 0xF).toNat < 16 := by
    intro x
    rw [hand]
    omega
  refine ⟨_, _, _, _, _, _, _, _, rfl, hdigit _ (hlt _), hdigit _ (hlt _), hdigit _ (hlt _),
    hdigit _ (hlt _), ?_⟩
  have hbound := v.toNat_lt
  simp only [hand, UInt16.toNat_shiftRight, Nat.shiftRight_eq_div_pow, UInt16.toNat_ofNat,
    Nat.reducePow, Nat.reduceMod]
  omega

/-- **A character past U+FFFF and its escape**: it is written as two surrogates of four digits
each, and these are read for it again. -/
theorem surrogate_escape_round_trip {u : UInt32} (hu : 0x10000 ≤ u.toNat)
    (hu' : u.toNat ≤ 0x10FFFF) : ∃ uc lc, toSurrogatePair u = .ok (uc, lc) ∧
      fromSurrogatePair uc lc = some u ∧
      ∀ v ∈ [uc, lc], ∀ s, Scanner.Reads (fun _ => False) parseHex16 (writeHex16 v ++ s) v s := by
  obtain ⟨uc, lc, hpair, hvalue⟩ := toSurrogatePair_eq hu hu'
  refine ⟨uc, lc, hpair, hvalue, fun v _ s => ?_⟩
  obtain ⟨v', hv', hreads⟩ := parseHex16_reads (writeHex16_hex4 v)
  obtain rfl : v' = v := UInt16.toNat_inj.mp hv'
  exact hreads s

/-- U+1F600. -/
theorem surrogate_escape_emoji : ∃ uc lc, toSurrogatePair 0x1F600 = .ok (uc, lc) ∧
    fromSurrogatePair uc lc = some 0x1F600 ∧
    ∀ v ∈ [uc, lc], ∀ s, Scanner.Reads (fun _ => False) parseHex16 (writeHex16 v ++ s) v s :=
  surrogate_escape_round_trip (by decide) (by decide)

end AzureMetadata.Analysis
