import AzureMetadata.Analysis.Base64Blocks

/-!
# The decoder with an accumulator

`base64_decode_ex` never clears its accumulator, so its upper bits are those of values
long past.  A byte it writes has only bits of the last two values, and after four values
no bit of them is still to be written: `foldl_collect` says that from such a point on the
bytes written are `blockBytes` of the values, whatever is in the accumulator.

A `Rendering` of some values is a text in which their characters stand in order, those of
62 and 63 from either alphabet, with any number of skipped characters anywhere.
-/

set_option autoImplicit false

namespace AzureMetadata.Analysis

open Clib AzureMetadata.Model

/-! ## The accumulator -/

/-- A low byte does not depend on the sign that the shift to the right copies. -/
theorem toNat_sshiftRight_and (x : BitVec 32) {k : ℕ} (hk : k ≤ 24) :
    (x.sshiftRight k &&& 0xff#32).toNat = x.toNat / 2 ^ k % 256 := by
  have hbits : x.sshiftRight k &&& 0xff#32 = (x >>> k) &&& 0xff#32 := by
    apply BitVec.eq_of_getLsbD_eq
    intro i hi
    rw [BitVec.getLsbD_and, BitVec.getLsbD_and, BitVec.getLsbD_sshiftRight,
      BitVec.getLsbD_ushiftRight]
    by_cases hlow : i < 8
    · have hin : k + i < 32 := by omega
      have hout : ¬ 32 ≤ i := by omega
      simp [hin, hout]
    · have hmask : (0xff#32).getLsbD i = false := by
        rw [BitVec.getLsbD_ofNat, Nat.testBit_lt_two_pow, Bool.and_false]
        exact lt_of_lt_of_le (by decide : 255 < 2 ^ 8) (Nat.pow_le_pow_right (by decide) (by omega))
      rw [hmask, Bool.and_false, Bool.and_false]
  rw [hbits, BitVec.toNat_and, BitVec.toNat_ushiftRight, Nat.shiftRight_eq_div_pow]
  exact Nat.and_two_pow_sub_one_eq_mod _ 8

/-- A sextet is shifted into the accumulator, modulo `2 ^ 32`. -/
theorem toNat_shiftLeft_or (x : BitVec 32) {v : ℕ} (hv : v < 64) :
    (x <<< 6 ||| BitVec.ofNat 32 v).toNat = (x.toNat * 64 + v) % 2 ^ 32 := by
  have hval : v % 2 ^ 32 = v := Nat.mod_eq_of_lt (by omega)
  have hwrap : x.toNat <<< 6 % 2 ^ 32 = (x.toNat % 2 ^ 26) <<< 6 := by
    rw [Nat.shiftLeft_eq, Nat.shiftLeft_eq]
    omega
  rw [BitVec.toNat_or, BitVec.toNat_shiftLeft, BitVec.toNat_ofNat, hval, hwrap, shiftLeft_or hv]
  omega

/-- Nor does it depend on bits above it. -/
theorem mod_div_mod (x : ℕ) {k n : ℕ} (hkn : k + 8 ≤ n) :
    x % 2 ^ n / 2 ^ k % 256 = x / 2 ^ k % 256 := by
  have hsplit : 2 ^ n = 2 ^ k * 2 ^ (n - k) := by
    rw [← pow_add]
    congr 1
    omega
  have hbyte : 2 ^ 8 ∣ 2 ^ (n - k) := Nat.pow_dvd_pow 2 (by omega)
  rw [hsplit, Nat.mod_mul_right_div_self]
  exact Nat.mod_mod_of_dvd _ hbyte

variable {accumulator : BitVec 32} {written : List UInt8} {v v0 v1 v2 v3 : ℕ}

/-- With no bits collected a value only enters the accumulator. -/
theorem collect_first (accumulator : BitVec 32) (v : ℕ) (written : List UInt8) :
    collect ⟨accumulator, 0, written⟩ v =
      ⟨accumulator <<< 6 ||| BitVec.ofNat 32 v, 6, written⟩ := rfl

/-- With two bits or more it completes a byte, of its own bits and of the last value's. -/
theorem collect_byte {u k : ℕ} (hu : u < 64) (hv : v < 64) (hk : k ≤ 4) :
    collect ⟨accumulator <<< 6 ||| BitVec.ofNat 32 u, k + 2, written⟩ v =
      ⟨(accumulator <<< 6 ||| BitVec.ofNat 32 u) <<< 6 ||| BitVec.ofNat 32 v, k,
        written ++ [UInt8.ofNat ((u * 64 + v) / 2 ^ k)]⟩ := by
  have hfull : k + 2 + 6 ≥ 8 := by omega
  have hbits : k + 2 + 6 - 8 = k := by omega
  have hlow : ((accumulator.toNat * 64 + u) % 2 ^ 32 * 64 + v) % 2 ^ 12 =
      (u * 64 + v) % 2 ^ 12 := by omega
  have hbyte : ((accumulator.toNat * 64 + u) % 2 ^ 32 * 64 + v) % 2 ^ 32 / 2 ^ k % 256 =
      (u * 64 + v) / 2 ^ k % 256 := by
    rw [mod_div_mod _ (by omega), ← mod_div_mod (n := 12) _ (by omega), hlow,
      mod_div_mod _ (by omega)]
  simp only [collect, hfull, if_true, hbits]
  rw [toNat_sshiftRight_and _ (by omega), toNat_shiftLeft_or _ hv, toNat_shiftLeft_or _ hu, hbyte]
  congr 3
  apply UInt8.toNat_inj.mp
  simp

/-- Four values from a point where no bits are left. -/
theorem collect_block (accumulator : BitVec 32) (written : List UInt8) (h0 : v0 < 64)
    (h1 : v1 < 64) (h2 : v2 < 64) (h3 : v3 < 64) :
    ∃ accumulator', [v0, v1, v2, v3].foldl collect ⟨accumulator, 0, written⟩ =
      ⟨accumulator', 0,
        written ++ decodeBlock (.ofNat v0) (.ofNat v1) (.ofNat v2) (.ofNat v3)⟩ := by
  simp only [List.foldl_cons, List.foldl_nil]
  rw [collect_first, collect_byte h0 h1 (by decide), collect_byte h1 h2 (by decide),
    collect_byte h2 h3 (by decide), decodeBlock_eq h0 h1 h2 h3]
  simp

/-- The bytes written for some values, from a point where no bits are left.  Fewer than
four leave bits that are never written. -/
theorem foldl_collect {vs : List ℕ} (hvs : ∀ v ∈ vs, v < 64) (accumulator : BitVec 32)
    (written : List UInt8) :
    (vs.foldl collect ⟨accumulator, 0, written⟩).written = written ++ blockBytes vs := by
  induction vs using blockBytes.induct generalizing accumulator written with
  | case1 v0 v1 v2 v3 vs ih =>
      simp only [List.mem_cons, forall_eq_or_imp] at hvs
      obtain ⟨h0, h1, h2, h3, hvs⟩ := hvs
      obtain ⟨accumulator', hblock⟩ := collect_block accumulator written h0 h1 h2 h3
      have hsplit : v0 :: v1 :: v2 :: v3 :: vs = [v0, v1, v2, v3] ++ vs := rfl
      rw [hsplit, List.foldl_append, hblock, ih hvs, List.append_assoc]
      rfl
  | case2 v0 v1 v2 =>
      have h0 := hvs v0 (by simp)
      have h1 := hvs v1 (by simp)
      have h2 := hvs v2 (by simp)
      have hblock : decodeBlock (.ofNat v0) (.ofNat v1) (.ofNat v2) 0 = _ :=
        decodeBlock_eq h0 h1 h2 (by decide : 0 < 64)
      simp only [List.foldl_cons, List.foldl_nil]
      rw [collect_first, collect_byte h0 h1 (by decide), collect_byte h1 h2 (by decide),
        blockBytes, hblock, List.append_assoc]
      rfl
  | case3 v0 v1 =>
      have h0 := hvs v0 (by simp)
      have h1 := hvs v1 (by simp)
      have hblock : decodeBlock (.ofNat v0) (.ofNat v1) 0 0 = _ :=
        decodeBlock_eq h0 h1 (by decide : 0 < 64) (by decide : 0 < 64)
      simp only [List.foldl_cons, List.foldl_nil]
      rw [collect_first, collect_byte h0 h1 (by decide), blockBytes, hblock]
      rfl
  | case4 v0 => simp [blockBytes, collect]
  | case5 => simp [blockBytes]

/-! ## The texts of a list of values -/

/-- The characters of a value: those of 62 and 63 are not the same in the two alphabets. -/
inductive Writes : ℕ → UInt8 → Prop
  | standard {v : ℕ} (hv : v < 64) : Writes v (base64Char v)
  | minus : Writes 62 45
  | underscore : Writes 63 95

/-- The texts that have the characters of the values in order, and between them, before
them and after them characters that do not count. -/
inductive Rendering : List ℕ → List UInt8 → Prop
  | nil : Rendering [] []
  | skip {vs : List ℕ} {text : List UInt8} (c : UInt8) (hc : c ∈ [equalsSign, 32, 13, lineFeed]) :
      Rendering vs text → Rendering vs (c :: text)
  | digit {v : ℕ} {c : UInt8} {vs : List ℕ} {text : List UInt8} (hc : Writes v c) :
      Rendering vs text → Rendering (v :: vs) (c :: text)

/-- What a character writes has six bits. -/
theorem Writes.lt {v : ℕ} {c : UInt8} (h : Writes v c) : v < 64 := by
  cases h with
  | standard hv => exact hv
  | minus => decide
  | underscore => decide

/-- So have the sextets of a rendering. -/
theorem Rendering.lt {vs : List ℕ} {text : List UInt8} (h : Rendering vs text) :
    ∀ v ∈ vs, v < 64 := by
  induction h with
  | nil => simp
  | skip c hc h ih => exact ih
  | digit hc h ih => simpa using ⟨hc.lt, ih⟩

/-- The pad and white space are passed over. -/
theorem decodeExStep_skip {c : UInt8} (hc : c ∈ [equalsSign, 32, 13, lineFeed]) (s : DecodeEx) :
    decodeExStep s c = .ok (some s) := by
  have hskip : isSkipped c = true := by simpa [isSkipped] using hc
  rw [decodeExStep, if_pos hskip]

/-- The characters of both alphabets are inside the table, which has their values. -/
theorem base64ReverseTable_base64Char : ∀ v < 64, isSkipped (base64Char v) = false ∧
    0 ≤ (base64Char v).toInt8.toInt ∧
      base64ReverseTable[(base64Char v).toInt8.toInt.toNat]? = some v := by
  decide +kernel

/-- The reverse table has the sextet of each character that writes one. -/
theorem Writes.reverse {v : ℕ} {c : UInt8} (h : Writes v c) : isSkipped c = false ∧
    0 ≤ c.toInt8.toInt ∧ base64ReverseTable[c.toInt8.toInt.toNat]? = some v := by
  cases h with
  | standard hv => exact base64ReverseTable_base64Char v hv
  | minus => decide
  | underscore => decide

/-- Such a character is collected. -/
theorem decodeExStep_digit {v : ℕ} {c : UInt8} (h : Writes v c) (s : DecodeEx) :
    decodeExStep s c = .ok (some (collect s v)) := by
  obtain ⟨hskip, hindex, htable⟩ := h.reverse
  have hlt : ¬ v > 63 := by
    have := h.lt
    omega
  simp only [decodeExStep, hskip, hindex, htable, hlt, if_true, if_false,
    Bool.false_eq_true]

/-- The loop on a rendering collects its values. -/
theorem decodeExLoop_rendering {vs : List ℕ} {text : List UInt8} (h : Rendering vs text)
    (s : DecodeEx) : decodeExLoop s text = .ok (0, vs.foldl collect s) := by
  induction h generalizing s with
  | nil => rfl
  | skip c hc h ih =>
      rw [decodeExLoop, decodeExStep_skip hc]
      exact ih s
  | digit hc h ih =>
      rw [decodeExLoop, decodeExStep_digit hc]
      exact ih _

/-- The decoder on a rendering in memory gives the bytes its values stand for. -/
theorem base64DecodeEx_rendering {vs : List ℕ} {text : List UInt8} (h : Rendering vs text)
    (hne : text ≠ []) (rest : List UInt8) (dst_len : ℕ) :
    base64DecodeEx (text ++ rest) text.length dst_len =
      .ok ⟨0, blockBytes vs, (blockBytes vs).length⟩ := by
  have hpos := List.length_pos_of_ne_nil hne
  have hchars : max text.length 1 = text.length := by omega
  have hbytes : (vs.foldl collect ⟨0, 0, []⟩).written = blockBytes vs :=
    foldl_collect h.lt 0 []
  have hin : ¬ (text ++ rest).length < text.length := by simp
  have hlen : text.length ≠ 0 := by omega
  unfold base64DecodeEx
  simp only [hlen, if_false, hchars, List.take_left, pure_bind, decodeExLoop_rendering h, hin]
  rw [← hbytes]
  rfl

/-- A rendering of sextets has characters. -/
theorem Rendering.ne_nil {vs : List ℕ} {text : List UInt8} (h : Rendering vs text)
    (hne : vs ≠ []) : text ≠ [] := by
  cases h with
  | nil => exact absurd rfl hne
  | skip c hc h => exact List.cons_ne_nil _ _
  | digit hc h => exact List.cons_ne_nil _ _

/-- **Decoding a rendering.**  For every byte string that is not empty and every text with
the characters of its base64 form in either alphabet, with or without padding and with
characters to skip anywhere, the decoder gives the byte string and its length. -/
theorem base64DecodeEx_sextets {b : List UInt8} (hne : b ≠ []) {text : List UInt8}
    (htext : Rendering (sextets b) text) (rest : List UInt8) (dst_len : ℕ) :
    base64DecodeEx (text ++ rest) text.length dst_len = .ok ⟨0, b, b.length⟩ := by
  have hvalues : sextets b ≠ [] := by
    intro hnil
    have hbytes := blockBytes_sextets b
    rw [hnil] at hbytes
    exact hne hbytes.symm
  rw [base64DecodeEx_rendering htext (htext.ne_nil hvalues), blockBytes_sextets]

/-- The byte `fb` as ` -\n==w`, with more memory after it. -/
theorem base64DecodeEx_sextets_fb :
    base64DecodeEx ([32, 45, 10, 61, 61, 119] ++ [0]) 6 0 = .ok ⟨0, [0xfb], 1⟩ :=
  have htext : Rendering [62, 48] [32, 45, 10, 61, 61, 119] :=
    .skip 32 (by decide) (.digit .minus (.skip 10 (by decide) (.skip 61 (by decide)
      (.skip 61 (by decide) (.digit (.standard (by decide)) .nil)))))
  base64DecodeEx_sextets (b := [0xfb]) (by decide) htext [0] 0

/-! ## Both decoders on one text -/

/-- Space, carriage return and line feed. -/
def isSpace (c : UInt8) : Bool := c = 32 ∨ c = 13 ∨ c = lineFeed

/-- The text is a base64 form in the standard alphabet with `pads` characters `=` at its
end, and with spaces and ends of lines anywhere. -/
def Spaced (vs : List ℕ) (pads : ℕ) (text : List UInt8) : Prop :=
  text.filter (fun c => !isSpace c) = vs.map base64Char ++ List.replicate pads equalsSign

/-- A text of the encoder's with white space is a rendering of its sextets. -/
theorem Spaced.rendering {vs : List ℕ} {pads : ℕ} {text : List UInt8} (h : Spaced vs pads text)
    (hvs : ∀ v ∈ vs, v < 64) : Rendering vs text := by
  unfold Spaced at h
  induction text generalizing vs pads with
  | nil =>
      have hnone : vs = [] := by
        have := (List.append_eq_nil_iff.mp h.symm).1
        exact List.map_eq_nil_iff.mp this
      rw [hnone]
      exact .nil
  | cons c text ih =>
      by_cases hc : isSpace c = true
      · have hskip : c ∈ [equalsSign, 32, 13, lineFeed] := by
          have := of_decide_eq_true hc
          simp [this]
        rw [List.filter_cons_of_neg (by simp [hc])] at h
        exact .skip c hskip (ih h hvs)
      · rw [List.filter_cons_of_pos (by simp [hc])] at h
        cases vs with
        | nil =>
            -- Only padding is left.
            cases pads with
            | zero => cases h
            | succ pads =>
                obtain ⟨hpad, hrest⟩ := List.cons_eq_cons.mp h
                have hmore : text.filter (fun c => !isSpace c) =
                    [].map base64Char ++ List.replicate pads equalsSign := hrest
                exact .skip c (by simp [hpad]) (ih hmore (by simp))
        | cons v vs =>
            obtain ⟨hchar, hrest⟩ := List.cons_eq_cons.mp h
            rw [hchar]
            simp only [List.mem_cons, forall_eq_or_imp] at hvs
            exact .digit (.standard hvs.1) (ih hrest hvs.2)

/-- White space is unknown to the other decoder. -/
theorem dtable_isSpace (c : UInt8) (hc : isSpace c = true) : dtable c = 0x80 := by
  simp only [isSpace, decide_eq_true_eq] at hc
  rcases hc with rfl | rfl | rfl <;> rfl

/-- Both tables leave out the spaces and the ends of lines. -/
theorem Spaced.significant_eq {vs : List ℕ} {pads : ℕ} {text : List UInt8} (h : Spaced vs pads text)
    (hvs : ∀ v ∈ vs, v < 64) :
    significant text = vs.map base64Char ++ List.replicate pads equalsSign := by
  have hspaces : significant text = significant (text.filter fun c => !isSpace c) := by
    unfold significant
    rw [List.filter_filter]
    apply List.filter_congr
    intro c hc
    by_cases hspace : isSpace c = true
    · simp [dtable_isSpace c hspace]
    · simp [hspace]
  rw [hspaces, h, significant_form hvs]

/-- **The two decoders agree.**  On a text of this kind, whatever the bits of the last
value that no byte has, both succeed with the same bytes and the same length. -/
theorem base64_decoders_agree (vs : List ℕ) (hvs : ∀ v ∈ vs, v < 64) (pads : ℕ)
    (hpads : pads ≤ 2) (hpos : 0 < vs.length + pads) (hfour : 4 ∣ vs.length + pads)
    {text : List UInt8} (htext : Spaced vs pads text) {cap : ℕ}
    (hcap : 3 * (vs.length + pads) / 4 ≤ cap) (rest : List UInt8) (dst_len : ℕ) :
    ∃ bytes extra, base64Decode text true cap = ⟨true, bytes ++ extra, bytes.length⟩ ∧
      base64DecodeEx (text ++ rest) text.length dst_len = .ok ⟨0, bytes, bytes.length⟩ := by
  have hsome : vs ≠ [] := by
    intro hnil
    rw [hnil, List.length_nil] at hpos hfour
    omega
  have hrendering := htext.rendering hvs
  obtain ⟨extra, hblocks⟩ :=
    base64Decode_padded (htext.significant_eq hvs) hvs hpads hpos hfour hcap
  exact ⟨blockBytes vs, extra, hblocks,
    base64DecodeEx_rendering hrendering (hrendering.ne_nil hsome) rest dst_len⟩

/-- `Q Q=\r\n=` with the unused bits 0, and `QR==` with bits that are not. -/
theorem base64_decoders_agree_qr :
    ∃ bytes extra, base64Decode [81, 32, 82, 61, 13, 10, 61] true 3 =
        ⟨true, bytes ++ extra, bytes.length⟩ ∧
      base64DecodeEx ([81, 32, 82, 61, 13, 10, 61] ++ []) 7 0 =
        .ok ⟨0, bytes, bytes.length⟩ :=
  base64_decoders_agree [16, 17] (by decide) 2 (by decide) (by decide)
    (by decide) (by unfold Spaced; decide) (by decide) [] 0

end AzureMetadata.Analysis
