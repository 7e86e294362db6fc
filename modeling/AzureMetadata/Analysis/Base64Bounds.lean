import AzureMetadata.Analysis.Base64Forgiving

/-!
# Where the block decoders write

`base64_decode` counts the characters its table knows, and writes three bytes for every
four of them before it takes padding back.  `base64Decode_bounded` says that the count
covers all that is written, whether or not the decoding succeeds.  For
`base64_decode_forgiving` this is used twice: a decoding that fails leaves the capacity in
`*out_len`, and then nothing is left for the second one.
-/

set_option autoImplicit false

namespace AzureMetadata.Analysis

open Clib AzureMetadata.Model

/-- One decoding keeps to its capacity, and one that fails leaves the length alone. -/
theorem base64Decode_bounded (src : List UInt8) (out : Bool) (cap : ℕ) :
    (base64Decode src out cap).written.length ≤ cap ∧
      (base64Decode src out cap).out_len ≤ cap ∧
      ((base64Decode src out cap).ret = false → (base64Decode src out cap).out_len = cap) := by
  rw [base64Decode, countP_significant]
  split
  · simp
  · next hcount =>
    split
    · simp
    · next hroom =>
      split
      · simp
      · -- The blocks that are read are among those that were counted.
        obtain ⟨bytes, hbytes, hloop⟩ :=
          decodeLoop_known_all (known_of_significant src) (by omega) []
        have hread := blocksRead_le (significant src)
        have hle : bytes.length ≤ cap := by omega
        rw [decodeLoop_significant, hloop]
        simp only [List.nil_append]
        split
        · have hback : bytes.length - padding (significant src) ≤ cap := by omega
          simp [hle, hback]
        · simp [hle]

/-- Both calls of the forgiving decoder keep to the buffer, and so does the length. -/
theorem base64DecodeForgiving_bounded (src : List UInt8) (out : Bool) {cap : ℕ}
    (hcap : cap < sizeMod) :
    (∀ w ∈ (base64DecodeForgiving src out cap).writes, w.1 + w.2.length ≤ cap) ∧
      (base64DecodeForgiving src out cap).out_len ≤ cap := by
  unfold base64DecodeForgiving
  rw [and_3]
  split
  · obtain ⟨hwritten, hlen, -⟩ :=
      base64Decode_bounded (src.take (src.length - src.length % 4)) out cap
    have hsub := sizeSub_eq hcap hlen
    obtain ⟨hwritten', hlen', -⟩ := base64Decode_bounded
      (paddedTail (src.drop (src.length - src.length % 4))) out
      (sizeSub cap (base64Decode (src.take (src.length - src.length % 4)) out cap).out_len)
    constructor
    · intro w hw
      simp only [List.mem_cons, List.not_mem_nil, or_false] at hw
      cases hw with
      | inl hfirst =>
          subst hfirst
          simp only [Nat.zero_add]
          exact hwritten
      | inr hsecond =>
          subst hsecond
          dsimp only
          omega
    · apply le_trans (Nat.mod_le _ _)
      omega
  · obtain ⟨hwritten, hlen, -⟩ := base64Decode_bounded src out cap
    constructor
    · intro w hw
      rw [List.mem_singleton.mp hw, Nat.zero_add]
      exact hwritten
    · exact hlen

/-- **The decoders keep to the capacity.**  All writes are below it, and so is the length
that is reported; what is subtracted from it before the second decoding is not more than
it; and a decoding that returns `NULL` does not change the length. -/
theorem base64_decoders_in_capacity (src : List UInt8) (out : Bool) {cap : ℕ}
    (hcap : cap < sizeMod) :
    ((∀ i < (base64Decode src out cap).written.length, i < cap) ∧
      (base64Decode src out cap).out_len ≤ cap ∧
      ((base64Decode src out cap).ret = false → (base64Decode src out cap).out_len = cap)) ∧
    (∀ w ∈ (base64DecodeForgiving src out cap).writes, ∀ i < w.2.length, w.1 + i < cap) ∧
    (base64DecodeForgiving src out cap).out_len ≤ cap ∧
    (src.length % 4 ≠ 0 → (base64Decode (mainPart src) out cap).out_len ≤ cap) := by
  obtain ⟨hwritten, hlen, hnull⟩ := base64Decode_bounded src out cap
  obtain ⟨hwrites, hout⟩ := base64DecodeForgiving_bounded src out hcap
  refine ⟨⟨?_, hlen, hnull⟩, ?_, hout, ?_⟩
  · intro i hi
    exact lt_of_lt_of_le hi hwritten
  · intro w hw i hi
    have hle := hwrites w hw
    omega
  · intro hparts
    exact (base64Decode_bounded (mainPart src) out cap).2.1

/-- `QUJDRA` with room for five bytes: the second part is not decoded. -/
theorem base64_decoders_in_capacity_abcd :
    ((∀ i < (base64Decode [81, 85, 74, 68, 82, 65] true 5).written.length, i < 5) ∧
      (base64Decode [81, 85, 74, 68, 82, 65] true 5).out_len ≤ 5 ∧
      ((base64Decode [81, 85, 74, 68, 82, 65] true 5).ret = false →
        (base64Decode [81, 85, 74, 68, 82, 65] true 5).out_len = 5)) ∧
    (∀ w ∈ (base64DecodeForgiving [81, 85, 74, 68, 82, 65] true 5).writes,
      ∀ i < w.2.length, w.1 + i < 5) ∧
    (base64DecodeForgiving [81, 85, 74, 68, 82, 65] true 5).out_len ≤ 5 ∧
    (6 % 4 ≠ 0 → (base64Decode (mainPart [81, 85, 74, 68, 82, 65]) true 5).out_len ≤ 5) :=
  base64_decoders_in_capacity [81, 85, 74, 68, 82, 65] true (by decide)

end AzureMetadata.Analysis
