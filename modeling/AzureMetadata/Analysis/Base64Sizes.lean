import AzureMetadata.Analysis.Base64RoundTrip

/-!
# The size of an encoding

The size that `base64_reqbufsz` gives wraps from `2 ^ 62` bytes on, and is then less than
the number of bytes: what is left of four times that number, with a third and a
seventy-second more, stays below it.  So the second check of `base64_encode` lets no
wrapped size through, and an unwrapped one has room for all that is written.
-/

set_option autoImplicit false

namespace AzureMetadata.Analysis

open Clib AzureMetadata.Model

/-- The characters of the form with its padding: four for each started group of three
bytes. -/
def encodedChars (n : ℕ) : ℕ := 4 * ((n + 2) / 3)

/-- A line feed for each started line of 72 characters, of which `line_len` are there. -/
theorem length_encodeText (src : List UInt8) {line_len : ℕ} (hline : line_len < 72)
    (hfour : 4 ∣ line_len) :
    (encodeText src line_len).length =
      encodedChars src.length + (line_len + encodedChars src.length + 71) / 72 := by
  have hend : ∀ line_len ≤ 72, (lineEnd line_len).length = (line_len + 71) / 72 := by
    intro line_len hle
    unfold lineEnd
    split
    · simp only [List.length_cons, List.length_nil]
      omega
    · simp only [List.length_nil]
      omega
  unfold encodedChars
  induction src, line_len using encodeText.induct with
  | case1 line_len =>
      rw [encodeText, hend _ (by omega)]
      simp
  | case2 in0 line_len =>
      rw [encodeText, List.length_append, hend _ (by omega)]
      simp
  | case3 in0 in1 line_len =>
      rw [encodeText, List.length_append, hend _ (by omega)]
      simp
  | case4 in0 in1 in2 src line_len line_len' hfull hmore =>
      simp only [encodeText, List.length_append, List.length_cons, List.length_nil]
      split
      · -- The line is full, and the next one starts.
        rw [List.length_cons, hfull (by decide) (by decide)]
        omega
      · rw [hmore (by omega) (by omega)]
        omega

/-- A size that has wrapped is less than the number of bytes. -/
theorem base64Reqbufsz_lt {n : ℕ} (hlow : 2 ^ 62 ≤ n) (hhigh : n < 2 ^ 64) :
    base64Reqbufsz n < n := by
  have hwrap : sizeMul n 4 = sizeMul (n % 2 ^ 62) 4 := by
    unfold sizeMul sizeMod
    omega
  have hsame : base64Reqbufsz n = base64Reqbufsz (n % 2 ^ 62) := by
    unfold base64Reqbufsz
    rw [hwrap]
  have hreq := base64Reqbufsz_eq (Nat.mod_lt n (by decide : 0 < 2 ^ 62))
  omega

/-- Without a wrap there is room for the characters, the line feeds and the NUL. -/
theorem encodedChars_le {n : ℕ} (hn : n < 2 ^ 62) :
    encodedChars n + (encodedChars n + 71) / 72 + 1 ≤ base64Reqbufsz n := by
  rw [base64Reqbufsz_eq hn]
  unfold encodedChars
  omega

/-- With enough room the text is written, and a NUL behind it. -/
theorem base64Encode_granted {src : List UInt8} {cap : ℕ} (hroom : base64Reqbufsz src.length ≤ cap)
    (hsize : src.length ≤ base64Reqbufsz src.length) :
    base64Encode src true cap =
      ⟨true, encodeText src 0 ++ [0], (encodeText src 0).length⟩ := by
  have hcap : ¬ base64Reqbufsz src.length > cap := by omega
  have hwrap : ¬ base64Reqbufsz src.length < src.length := by omega
  simp [base64Encode, hcap, hwrap]

/-- **The encoder and its capacity.**  Past the two checks the bytes written are those of
the form, one line feed for each started line and a NUL, and they fit.  With less room
than the size asked for, nothing is written and that size is reported.  Below `2 ^ 62` bytes it
is enough for a second call. -/
theorem base64Encode_capacity (src : List UInt8) (hlen : src.length < 2 ^ 64) (cap : ℕ) :
    (base64Reqbufsz src.length ≤ cap → src.length ≤ base64Reqbufsz src.length →
      (base64Encode src true cap).written.length =
        encodedChars src.length + (encodedChars src.length + 71) / 72 + 1 ∧
      encodedChars src.length + (encodedChars src.length + 71) / 72 + 1 ≤ cap) ∧
    (cap < base64Reqbufsz src.length →
      ∀ out, base64Encode src out cap = ⟨false, [], base64Reqbufsz src.length⟩) ∧
    (src.length < 2 ^ 62 → (base64Encode src true (base64Reqbufsz src.length)).ret = true) := by
  refine ⟨?_, ?_, ?_⟩
  · intro hroom hsize
    have hn : src.length < 2 ^ 62 := by
      by_contra hlow
      have := base64Reqbufsz_lt (by omega) hlen
      omega
    have hfits := encodedChars_le hn
    rw [base64Encode_granted hroom hsize, List.length_append,
      length_encodeText src (by decide) (by decide), Nat.zero_add]
    exact ⟨rfl, le_trans hfits hroom⟩
  · intro hcap out
    rw [base64Encode, if_pos hcap]
  · intro hn
    have hsize : src.length ≤ base64Reqbufsz src.length := by
      have hreq := base64Reqbufsz_eq hn
      omega
    rw [base64Encode_granted (le_refl _) hsize]

/-- One byte, in a buffer of seven. -/
theorem base64Encode_capacity_a :
    (base64Reqbufsz 1 ≤ 7 → 1 ≤ base64Reqbufsz 1 →
      (base64Encode [97] true 7).written.length =
        encodedChars 1 + (encodedChars 1 + 71) / 72 + 1 ∧
      encodedChars 1 + (encodedChars 1 + 71) / 72 + 1 ≤ 7) ∧
    (7 < base64Reqbufsz 1 → ∀ out, base64Encode [97] out 7 = ⟨false, [], base64Reqbufsz 1⟩) ∧
    (1 < 2 ^ 62 → (base64Encode [97] true (base64Reqbufsz 1)).ret = true) :=
  base64Encode_capacity [97] (by decide) 7

end AzureMetadata.Analysis
