import AzureMetadata.Analysis.Base64RoundTrip

/-!
# Blocks of four characters

`sextets` gives the numbers below 64 whose characters are the base64 form of a byte
string, without padding, and `blockBytes` the bytes that such numbers stand for.  What
`base64_decode` does depends only on the characters its table knows; on those of a form
with its padding it writes `blockBytes`, and at most two bytes more.
-/

set_option autoImplicit false

namespace AzureMetadata.Analysis

open Clib AzureMetadata.Model

/-! ## The bytes of a list of values -/

/-- The three bytes of a block: each has the low bits of a value and the high bits of the
next. -/
theorem decodeBlock_eq {v0 v1 v2 v3 : ℕ} (h0 : v0 < 64) (h1 : v1 < 64) (h2 : v2 < 64)
    (h3 : v3 < 64) :
    decodeBlock (.ofNat v0) (.ofNat v1) (.ofNat v2) (.ofNat v3) =
      [.ofNat ((v0 * 64 + v1) / 2 ^ 4), .ofNat ((v1 * 64 + v2) / 2 ^ 2),
        .ofNat ((v2 * 64 + v3) / 2 ^ 0)] := by
  have hfirst : v0 * 2 ^ 2 + v1 / 2 ^ 4 = (v0 * 64 + v1) / 2 ^ 4 := by omega
  have hsecond : v1 * 2 ^ 4 + v2 / 2 ^ 2 = (v1 * 64 + v2) / 2 ^ 2 := by omega
  have hthird : v2 * 2 ^ 6 + v3 = (v2 * 64 + v3) / 2 ^ 0 := by omega
  rw [decodeBlock, toNat_ofNat_sextet h0, toNat_ofNat_sextet h1, toNat_ofNat_sextet h2,
    toNat_ofNat_sextet h3, Nat.shiftRight_eq_div_pow, Nat.shiftRight_eq_div_pow,
    shiftLeft_or (by omega), shiftLeft_or (by omega), shiftLeft_or h3, hfirst, hsecond,
    hthird]

/-- The values of the base64 form of a byte string. -/
def sextets : List UInt8 → List ℕ
  | [] => []
  | [a] => [sextet0 a, sextet1 a 0]
  | [a, b] => [sextet0 a, sextet1 a b, sextet2 b 0]
  | a :: b :: c :: src => sextet0 a :: sextet1 a b :: sextet2 b c :: sextet3 c :: sextets src

/-- The bytes the values stand for.  A last group of three or two has two bytes or one,
and its low bits do not count. -/
def blockBytes : List ℕ → List UInt8
  | v0 :: v1 :: v2 :: v3 :: vs =>
    decodeBlock (.ofNat v0) (.ofNat v1) (.ofNat v2) (.ofNat v3) ++ blockBytes vs
  | [v0, v1, v2] => (decodeBlock (.ofNat v0) (.ofNat v1) (.ofNat v2) 0).take 2
  | [v0, v1] => (decodeBlock (.ofNat v0) (.ofNat v1) 0 0).take 1
  | [_] => []
  | [] => []

/-- The sextets of bytes have six bits. -/
theorem sextets_lt {b : List UInt8} {v : ℕ} (hv : v ∈ sextets b) : v < 64 := by
  induction b using sextets.induct with
  | case1 => cases hv
  | case2 a =>
      simp only [sextets, List.mem_cons, List.not_mem_nil, or_false] at hv
      cases hv with
      | inl hv => exact hv ▸ sextet0_lt a
      | inr hv => exact hv ▸ sextet1_lt a 0
  | case3 a b =>
      simp only [sextets, List.mem_cons, List.not_mem_nil, or_false] at hv
      rcases hv with hv | hv | hv
      · exact hv ▸ sextet0_lt a
      · exact hv ▸ sextet1_lt a b
      · exact hv ▸ sextet2_lt b 0
  | case4 a b c src ih =>
      simp only [sextets, List.mem_cons] at hv
      rcases hv with hv | hv | hv | hv | hv
      · exact hv ▸ sextet0_lt a
      · exact hv ▸ sextet1_lt a b
      · exact hv ▸ sextet2_lt b c
      · exact hv ▸ sextet3_lt c
      · exact ih hv

/-- The form of a byte string stands for it. -/
theorem blockBytes_sextets (b : List UInt8) : blockBytes (sextets b) = b := by
  induction b using sextets.induct with
  | case1 => rfl
  | case2 a =>
      have hblock : decodeBlock (.ofNat (sextet0 a)) (.ofNat (sextet1 a 0)) 0 0 = [a, 0, 0] :=
        decodeBlock_sextets a 0 0
      rw [sextets, blockBytes, hblock]
      rfl
  | case3 a b =>
      have hblock : decodeBlock (.ofNat (sextet0 a)) (.ofNat (sextet1 a b))
          (.ofNat (sextet2 b 0)) 0 = [a, b, 0] := decodeBlock_sextets a b 0
      rw [sextets, blockBytes, hblock]
      rfl
  | case4 a b c src ih =>
      rw [sextets, blockBytes, decodeBlock_sextets, ih]
      rfl

/-- Four values for three bytes, and one more for each byte left. -/
theorem length_sextets (b : List UInt8) : (sextets b).length = (4 * b.length + 2) / 3 := by
  induction b using sextets.induct with
  | case1 => simp [sextets]
  | case2 a => simp [sextets]
  | case3 a b => simp [sextets]
  | case4 a b c src ih =>
      simp only [sextets, List.length_cons, ih]
      omega

/-- Whole groups of three bytes have a form of their own. -/
theorem sextets_append {a : List UInt8} (ha : 3 ∣ a.length) (b : List UInt8) :
    sextets (a ++ b) = sextets a ++ sextets b := by
  induction a using sextets.induct with
  | case1 => rfl
  | case2 in0 => simp at ha
  | case3 in0 in1 => simp at ha
  | case4 in0 in1 in2 a ih =>
      have hrest : 3 ∣ a.length := by
        simp only [List.length_cons] at ha
        omega
      simp only [List.cons_append, sextets, ih hrest]

/-! ## The characters that count -/

/-- The characters the table of `base64_decode` has a value for. -/
def significant (src : List UInt8) : List UInt8 := src.filter fun c => dtable c ≠ 0x80

/-- The first pass counts the significant characters. -/
theorem countP_significant (src : List UInt8) :
    (src.countP fun c => dtable c ≠ 0x80) = (significant src).length :=
  List.countP_eq_length_filter

/-- The loop passes the other characters by. -/
theorem decodeLoop_significant (src block : List UInt8) (pad : ℕ) (written : List UInt8) :
    decodeLoop src block pad written = decodeLoop (significant src) block pad written := by
  induction src generalizing block pad written with
  | nil => rfl
  | cons c src ih =>
      by_cases hc : dtable c = 0x80
      · have hskip : significant (c :: src) = significant src := by simp [significant, hc]
        rw [decodeLoop, if_pos hc, hskip]
        exact ih block pad written
      · have hkeep : significant (c :: src) = c :: significant src := by simp [significant, hc]
        rw [hkeep, decodeLoop, decodeLoop, if_neg hc, if_neg hc]
        simp only [ih]

/-! ## A form with its padding -/

/-- All characters of a group and its pads are significant. -/
theorem significant_form {vs : List ℕ} (hvs : ∀ v ∈ vs, v < 64) (pads : ℕ) :
    significant (vs.map base64Char ++ List.replicate pads equalsSign) =
      vs.map base64Char ++ List.replicate pads equalsSign := by
  unfold significant
  apply List.filter_eq_self.mpr
  intro c hc
  rw [List.mem_append] at hc
  cases hc with
  | inl hc =>
      obtain ⟨v, hv, rfl⟩ := List.mem_map.mp hc
      simpa using dtable_ne (hvs v hv)
  | inr hc =>
      rw [List.eq_of_mem_replicate hc, dtable_equalsSign]
      rfl

/-- The loop on a form with `pads` characters `=` at its end, whatever the low bits of
the last value. -/
theorem decodeLoop_padded {vs : List ℕ} (hvs : ∀ v ∈ vs, v < 64) {pads : ℕ}
    (hpads : pads ≤ 2) (hlen : (vs.length + pads) % 4 = 0) (written : List UInt8) :
    ∃ extra, decodeLoop (vs.map base64Char ++ List.replicate pads equalsSign) [] 0 written =
      ⟨true, written ++ blockBytes vs ++ extra, (written ++ blockBytes vs).length⟩ := by
  induction vs using blockBytes.induct generalizing written with
  | case1 v0 v1 v2 v3 vs ih =>
      simp only [List.mem_cons, forall_eq_or_imp] at hvs
      obtain ⟨h0, h1, h2, h3, hvs⟩ := hvs
      have hrest : (vs.length + pads) % 4 = 0 := by
        simp only [List.length_cons] at hlen
        omega
      obtain ⟨extra, hloop⟩ := ih hvs hrest
        (written ++ decodeBlock (.ofNat v0) (.ofNat v1) (.ofNat v2) (.ofNat v3))
      refine ⟨extra, ?_⟩
      simp only [List.map_cons, List.cons_append]
      rw [decodeLoop_block h0 h1 h2 h3, hloop, blockBytes]
      simp only [List.append_assoc]
  | case2 v0 v1 v2 =>
      have hone : pads = 1 := by
        simp only [List.length_cons, List.length_nil] at hlen
        omega
      refine ⟨(decodeBlock (.ofNat v0) (.ofNat v1) (.ofNat v2) 0).drop 2, ?_⟩
      simp only [List.map_cons, List.map_nil, List.cons_append, List.nil_append, hone,
        List.replicate_one]
      rw [decodeLoop_onePad (hvs v0 (by simp)) (hvs v1 (by simp)) (hvs v2 (by simp)),
        List.append_assoc, blockBytes, List.take_append_drop]
      simp [decodeBlock]
  | case3 v0 v1 =>
      have htwo : pads = 2 := by
        simp only [List.length_cons, List.length_nil] at hlen
        omega
      refine ⟨(decodeBlock (.ofNat v0) (.ofNat v1) 0 0).drop 1, ?_⟩
      simp only [List.map_cons, List.map_nil, List.cons_append, List.nil_append, htwo,
        List.replicate_succ, List.replicate_zero]
      rw [decodeLoop_twoPads (hvs v0 (by simp)) (hvs v1 (by simp)), List.append_assoc,
        blockBytes, List.take_append_drop]
      simp [decodeBlock]
  | case4 v0 =>
      simp only [List.length_cons, List.length_nil] at hlen
      omega
  | case5 =>
      have hnone : pads = 0 := by
        simp only [List.length_nil] at hlen
        omega
      refine ⟨[], ?_⟩
      simp [hnone, blockBytes, decodeLoop]

/-- **Decoding a form.**  The text may have any characters between those of the form that
the table does not know. -/
theorem base64Decode_padded {text : List UInt8} {vs : List ℕ} {pads : ℕ}
    (htext : significant text = vs.map base64Char ++ List.replicate pads equalsSign)
    (hvs : ∀ v ∈ vs, v < 64) (hpads : pads ≤ 2) (hpos : 0 < vs.length + pads)
    (hfour : 4 ∣ vs.length + pads) {cap : ℕ} (hcap : 3 * (vs.length + pads) / 4 ≤ cap) :
    ∃ extra, base64Decode text true cap =
      ⟨true, blockBytes vs ++ extra, (blockBytes vs).length⟩ := by
  have hlen : (significant text).length = vs.length + pads := by simp [htext]
  have hcount : ¬ (vs.length + pads = 0 ∨ (vs.length + pads) % 4 ≠ 0) := by omega
  have hroom : ¬ (vs.length + pads) / 4 * 3 > cap := by omega
  obtain ⟨extra, hloop⟩ := decodeLoop_padded hvs hpads (by omega) []
  refine ⟨extra, ?_⟩
  rw [base64Decode, countP_significant, hlen, if_neg hcount, if_neg hroom,
    if_neg (by decide), decodeLoop_significant, htext, hloop]
  simp

end AzureMetadata.Analysis
