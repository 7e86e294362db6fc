import AzureMetadata.Model.Base64

/-!
# Encoding and decoding again

The shifts and masks of both functions are rewritten as arithmetic on numbers: the four
characters of a block are the digits to the base 64 of the number whose digits to the
base 256 are the three bytes.  With that, `decodeLoop_encodeText` follows the encoder's
own recursion, a block of the text at a time, past any line feed.
-/

set_option autoImplicit false

namespace AzureMetadata.Analysis

open Clib AzureMetadata.Model

variable {a b c : UInt8}

/-! ## Six bits at a time -/

/-- A number shifted is joined with the low bits by an addition. -/
theorem shiftLeft_or {x y k : ℕ} (hy : y < 2 ^ k) : x <<< k ||| y = x * 2 ^ k + y := by
  rw [← Nat.shiftLeft_add_eq_or_of_lt hy, Nat.shiftLeft_eq]

/-- The four characters of a block, as numbers. -/
def sextet0 (a : UInt8) : ℕ := a.toNat / 4
def sextet1 (a b : UInt8) : ℕ := a.toNat % 4 * 16 + b.toNat / 16
def sextet2 (b c : UInt8) : ℕ := b.toNat % 16 * 4 + c.toNat / 64
def sextet3 (c : UInt8) : ℕ := c.toNat % 64

/-- The first sextet has six bits. -/
theorem sextet0_lt (a : UInt8) : sextet0 a < 64 := by
  have := a.toNat_lt
  unfold sextet0
  omega

/-- So has the second. -/
theorem sextet1_lt (a b : UInt8) : sextet1 a b < 64 := by
  have := b.toNat_lt
  unfold sextet1
  omega

/-- So has the third. -/
theorem sextet2_lt (b c : UInt8) : sextet2 b c < 64 := by
  have := c.toNat_lt
  unfold sextet2
  omega

/-- So has the fourth. -/
theorem sextet3_lt (c : UInt8) : sextet3 c < 64 := Nat.mod_lt _ (by decide)

/-- The first index that the encoder computes is the first sextet. -/
theorem encode_char0 (a : UInt8) : (a.toNat >>> 2) &&& 0x3f = sextet0 a := by
  have hlt := sextet0_lt a
  rw [and_63, Nat.shiftRight_eq_div_pow]
  exact Nat.mod_eq_of_lt hlt

/-- The second one takes two bits of the first byte. -/
theorem encode_char1 (a b : UInt8) :
    (((a.toNat &&& 0x03) <<< 4) ||| (b.toNat >>> 4)) &&& 0x3f = sextet1 a b := by
  have hlt := sextet1_lt a b
  have hb : b.toNat / 2 ^ 4 < 2 ^ 4 := by
    have := b.toNat_lt
    omega
  rw [and_63, and_3, Nat.shiftRight_eq_div_pow, shiftLeft_or hb]
  exact Nat.mod_eq_of_lt hlt

/-- The third one takes four bits of the second byte. -/
theorem encode_char2 (b c : UInt8) :
    (((b.toNat &&& 0x0f) <<< 2) ||| (c.toNat >>> 6)) &&& 0x3f = sextet2 b c := by
  have hlt := sextet2_lt b c
  have hc : c.toNat / 2 ^ 6 < 2 ^ 2 := by
    have := c.toNat_lt
    omega
  rw [and_63, and_15, Nat.shiftRight_eq_div_pow, shiftLeft_or hc]
  exact Nat.mod_eq_of_lt hlt

/-- The fourth one is the rest of the third byte. -/
theorem encode_char3 (c : UInt8) : c.toNat &&& 0x3f = sextet3 c := and_63 _

/-- With no next byte the low bits are those of a next byte 0. -/
theorem encode_tail1 (a : UInt8) : ((a.toNat &&& 0x03) <<< 4) &&& 0x3f = sextet1 a 0 := by
  rw [← encode_char1]
  simp

/-- Two bytes end in a third sextet without a third byte. -/
theorem encode_tail2 (b : UInt8) : ((b.toNat &&& 0x0f) <<< 2) &&& 0x3f = sextet2 b 0 := by
  rw [← encode_char2]
  simp

/-- A sextet is a byte. -/
theorem toNat_ofNat_sextet {n : ℕ} (hn : n < 64) : (UInt8.ofNat n).toNat = n := by
  rw [UInt8.toNat_ofNat']
  exact Nat.mod_eq_of_lt (by omega)

/-- The decoder's three bytes of a block are the encoder's. -/
theorem decodeBlock_sextets (a b c : UInt8) :
    decodeBlock (.ofNat (sextet0 a)) (.ofNat (sextet1 a b)) (.ofNat (sextet2 b c))
      (.ofNat (sextet3 c)) = [a, b, c] := by
  have ha := a.toNat_lt
  have hb := b.toNat_lt
  have hc := c.toNat_lt
  have h1 : sextet1 a b / 2 ^ 4 < 2 ^ 2 := by
    have := sextet1_lt a b
    omega
  have h2 : sextet2 b c / 2 ^ 2 < 2 ^ 4 := by
    have := sextet2_lt b c
    omega
  have hfirst : UInt8.ofNat (sextet0 a * 2 ^ 2 + sextet1 a b / 2 ^ 4) = a := by
    apply UInt8.toNat_inj.mp
    rw [UInt8.toNat_ofNat']
    unfold sextet0 sextet1
    omega
  have hsecond : UInt8.ofNat (sextet1 a b * 2 ^ 4 + sextet2 b c / 2 ^ 2) = b := by
    apply UInt8.toNat_inj.mp
    rw [UInt8.toNat_ofNat']
    unfold sextet1 sextet2
    omega
  have hthird : UInt8.ofNat (sextet2 b c * 2 ^ 6 + sextet3 c) = c := by
    apply UInt8.toNat_inj.mp
    rw [UInt8.toNat_ofNat']
    unfold sextet2 sextet3
    omega
  rw [decodeBlock, toNat_ofNat_sextet (sextet0_lt a), toNat_ofNat_sextet (sextet1_lt a b),
    toNat_ofNat_sextet (sextet2_lt b c), toNat_ofNat_sextet (sextet3_lt c),
    Nat.shiftRight_eq_div_pow, Nat.shiftRight_eq_div_pow, shiftLeft_or h1, shiftLeft_or h2,
    shiftLeft_or (sextet3_lt c), hfirst, hsecond, hthird]

/-! ## The decoder's table -/

/-- The two tables, index by index. -/
theorem base64Char_checked : ∀ i < 64, dtable (base64Char i) = UInt8.ofNat i ∧
    base64Char i ≠ equalsSign ∧ UInt8.ofNat i ≠ 0x80 := by
  decide +kernel

/-- The decoder's table is the inverse of the encoder's. -/
theorem dtable_base64Char : ∀ i < 64, dtable (base64Char i) = UInt8.ofNat i :=
  fun i hi => (base64Char_checked i hi).1

/-- No character of the encoder's table is the pad, and none of its values is unknown. -/
theorem base64Char_ne : ∀ i < 64, base64Char i ≠ equalsSign ∧ UInt8.ofNat i ≠ 0x80 :=
  fun i hi => (base64Char_checked i hi).2

/-- The pad counts as 0. -/
theorem dtable_equalsSign : dtable equalsSign = 0 := by rfl

/-- The line feed is unknown. -/
theorem dtable_lineFeed : dtable lineFeed = 0x80 := by rfl

/-- A character of the alphabet becomes the next value of the block, until there are
four. -/
theorem decodeLoop_char {i : ℕ} (hi : i < 64) (src : List UInt8) {block : List UInt8}
    (hblock : block.length < 3) (pad : ℕ) (written : List UInt8) :
    decodeLoop (base64Char i :: src) block pad written =
      decodeLoop src (block ++ [UInt8.ofNat i]) pad written := by
  obtain ⟨hne, hval⟩ := base64Char_ne i hi
  rw [decodeLoop]
  simp only [dtable_base64Char i hi, hval, hne, if_false]
  match block, hblock with
  | [], _ => rfl
  | [_], _ => rfl
  | [_, _], _ => rfl

/-- A block of four characters. -/
theorem decodeLoop_block {i j k l : ℕ} (hi : i < 64) (hj : j < 64) (hk : k < 64) (hl : l < 64)
    (src written : List UInt8) :
    decodeLoop (base64Char i :: base64Char j :: base64Char k :: base64Char l :: src) [] 0 written =
      decodeLoop src [] 0 (written ++ decodeBlock (.ofNat i) (.ofNat j) (.ofNat k) (.ofNat l)) := by
  rw [decodeLoop_char hi _ (by simp), decodeLoop_char hj _ (by simp),
    decodeLoop_char hk _ (by simp)]
  obtain ⟨hne, hval⟩ := base64Char_ne l hl
  rw [decodeLoop]
  simp [dtable_base64Char l hl, hval, hne]

/-- A block that ends in one `=` gives two bytes and ends the loop. -/
theorem decodeLoop_onePad {i j k : ℕ} (hi : i < 64) (hj : j < 64) (hk : k < 64)
    (src written : List UInt8) :
    decodeLoop (base64Char i :: base64Char j :: base64Char k :: equalsSign :: src) [] 0 written =
      ⟨true, written ++ decodeBlock (.ofNat i) (.ofNat j) (.ofNat k) 0, written.length + 2⟩ := by
  rw [decodeLoop_char hi _ (by simp), decodeLoop_char hj _ (by simp),
    decodeLoop_char hk _ (by simp), decodeLoop]
  simp [dtable_equalsSign, decodeBlock]

/-- A block that ends in two gives one byte. -/
theorem decodeLoop_twoPads {i j : ℕ} (hi : i < 64) (hj : j < 64) (src written : List UInt8) :
    decodeLoop (base64Char i :: base64Char j :: equalsSign :: equalsSign :: src) [] 0 written =
      ⟨true, written ++ decodeBlock (.ofNat i) (.ofNat j) 0 0, written.length + 1⟩ := by
  rw [decodeLoop_char hi _ (by simp), decodeLoop_char hj _ (by simp)]
  simp [decodeLoop, dtable_equalsSign, decodeBlock]

/-- So the decoder goes over it. -/
theorem decodeLoop_lineFeed (src block : List UInt8) (pad : ℕ) (written : List UInt8) :
    decodeLoop (lineFeed :: src) block pad written = decodeLoop src block pad written := by
  rw [decodeLoop]
  simp [dtable_lineFeed]

/-! ## The whole text -/

/-- At the end of the last line there is nothing to decode. -/
theorem decodeLoop_lineEnd (line_len : ℕ) (written : List UInt8) :
    decodeLoop (lineEnd line_len) [] 0 written = ⟨true, written, written.length⟩ := by
  unfold lineEnd
  split
  · rw [decodeLoop_lineFeed]
    rfl
  · rfl

/-- From any point of the encoding, with any bytes written: the loop reports that many
and those still to encode, and has written them. -/
theorem decodeLoop_encodeText (src : List UInt8) (line_len : ℕ) (written : List UInt8) :
    ∃ extra, decodeLoop (encodeText src line_len) [] 0 written =
      ⟨true, written ++ src ++ extra, written.length + src.length⟩ := by
  induction src, line_len using encodeText.induct generalizing written with
  | case1 line_len =>
      refine ⟨[], ?_⟩
      rw [encodeText, decodeLoop_lineEnd]
      simp
  | case2 in0 line_len =>
      have hblock : decodeBlock (.ofNat (sextet0 in0)) (.ofNat (sextet1 in0 0)) 0 0 = [in0, 0, 0] :=
        decodeBlock_sextets in0 0 0
      refine ⟨[0, 0], ?_⟩
      rw [encodeText, encode_char0, encode_tail1]
      simp only [List.cons_append, List.nil_append]
      rw [decodeLoop_twoPads (sextet0_lt in0) (sextet1_lt in0 0), hblock]
      simp
  | case3 in0 in1 line_len =>
      have hblock : decodeBlock (.ofNat (sextet0 in0)) (.ofNat (sextet1 in0 in1))
          (.ofNat (sextet2 in1 0)) 0 = [in0, in1, 0] := decodeBlock_sextets in0 in1 0
      refine ⟨[0], ?_⟩
      rw [encodeText, encode_char0, encode_char1, encode_tail2]
      simp only [List.cons_append, List.nil_append]
      rw [decodeLoop_onePad (sextet0_lt in0) (sextet1_lt in0 in1) (sextet2_lt in1 0), hblock]
      simp
  | case4 in0 in1 in2 src line_len line_len' hfull hmore =>
      -- The line feed, if there is one, is skipped; the rest follows the three bytes.
      have hrest : ∃ extra, decodeLoop (if line_len' ≥ 72 then lineFeed :: encodeText src 0
          else encodeText src line_len') [] 0 (written ++ [in0, in1, in2]) =
          ⟨true, written ++ [in0, in1, in2] ++ src ++ extra,
            (written ++ [in0, in1, in2]).length + src.length⟩ := by
        split
        · rw [decodeLoop_lineFeed]
          exact hfull _
        · exact hmore _
      obtain ⟨extra, hrest⟩ := hrest
      refine ⟨extra, ?_⟩
      rw [encodeText, encode_char0, encode_char1, encode_char2, encode_char3]
      simp only [List.cons_append, List.nil_append]
      rw [decodeLoop_block (sextet0_lt in0) (sextet1_lt in0 in1) (sextet2_lt in1 in2)
        (sextet3_lt in2), decodeBlock_sextets]
      rw [hrest]
      simp
      omega

/-- A character of the encoder is known to the decoder. -/
theorem dtable_ne {i : ℕ} (hi : i < 64) : dtable (base64Char i) ≠ 0x80 := by
  rw [dtable_base64Char i hi]
  exact (base64Char_ne i hi).2

/-- The characters the decoder counts: four for each started block of three bytes. -/
theorem countP_encodeText (src : List UInt8) (line_len : ℕ) :
    ((encodeText src line_len).countP fun c => dtable c ≠ 0x80) =
      4 * ((src.length + 2) / 3) := by
  have hend : ∀ line_len, ((lineEnd line_len).countP fun c => dtable c ≠ 0x80) = 0 := by
    intro line_len
    unfold lineEnd
    split
    · simp [dtable_lineFeed]
    · rfl
  induction src, line_len using encodeText.induct with
  | case1 line_len => simpa [encodeText] using hend line_len
  | case2 in0 line_len =>
      rw [encodeText, List.countP_append, hend, encode_char0, encode_tail1]
      simp [dtable_ne (sextet0_lt in0), dtable_ne (sextet1_lt in0 0), dtable_equalsSign]
  | case3 in0 in1 line_len =>
      rw [encodeText, List.countP_append, hend, encode_char0, encode_char1, encode_tail2]
      simp [dtable_ne (sextet0_lt in0), dtable_ne (sextet1_lt in0 in1),
        dtable_ne (sextet2_lt in1 0), dtable_equalsSign]
  | case4 in0 in1 in2 src line_len line_len' hfull hmore =>
      have hrest : ((if line_len' ≥ 72 then lineFeed :: encodeText src 0
          else encodeText src line_len').countP fun c => dtable c ≠ 0x80) =
          4 * ((src.length + 2) / 3) := by
        split
        · rw [List.countP_cons, hfull]
          simp [dtable_lineFeed]
        · exact hmore
      rw [encodeText, List.countP_append, hrest, encode_char0, encode_char1, encode_char2,
        encode_char3]
      simp [dtable_ne (sextet0_lt in0), dtable_ne (sextet1_lt in0 in1),
        dtable_ne (sextet2_lt in1 in2), dtable_ne (sextet3_lt in2)]
      omega

/-- Up to `2 ^ 62` bytes the size asked for does not wrap. -/
theorem base64Reqbufsz_eq {n : ℕ} (hn : n < 2 ^ 62) :
    base64Reqbufsz n = n * 4 / 3 + 4 + (n * 4 / 3 + 4) / 72 + 2 := by
  have hchars : n * 4 % 2 ^ 64 = n * 4 := Nat.mod_eq_of_lt (by omega)
  have htext : (n * 4 / 3 + 4) % 2 ^ 64 = n * 4 / 3 + 4 := Nat.mod_eq_of_lt (by omega)
  have hlines : (n * 4 / 3 + 4 + (n * 4 / 3 + 4) / 72) % 2 ^ 64 =
      n * 4 / 3 + 4 + (n * 4 / 3 + 4) / 72 := Nat.mod_eq_of_lt (by omega)
  simp only [base64Reqbufsz, sizeAdd, sizeMul, sizeMod, base64LineLength, hchars, htext, hlines]
  omega

/-- **Encoding and decoding.**  For every byte string that is not empty and capacities
as large as the sizes asked for, both calls succeed and give the byte string back. -/
theorem base64_round_trip {b : List UInt8} (hne : b ≠ []) (hlen : b.length < 2 ^ 62)
    {encode_cap decode_cap : ℕ} (hencode : base64Reqbufsz b.length ≤ encode_cap)
    (hdecode : 3 * ((b.length + 2) / 3) ≤ decode_cap) :
    ∃ text written, base64Encode b true encode_cap = ⟨true, text ++ [0], text.length⟩ ∧
      base64Decode text true decode_cap = ⟨true, written, b.length⟩ ∧
      written.take b.length = b := by
  obtain ⟨extra, hloop⟩ := decodeLoop_encodeText b 0 []
  have hpos := List.length_pos_of_ne_nil hne
  have hcount := countP_encodeText b 0
  have hreq := base64Reqbufsz_eq hlen
  refine ⟨encodeText b 0, b ++ extra, ?_, ?_, List.take_left⟩
  · have hroom : ¬ base64Reqbufsz b.length > encode_cap := by omega
    have hsize : ¬ base64Reqbufsz b.length < b.length := by omega
    simp [base64Encode, hroom, hsize]
  · have hsome : ¬ (4 * ((b.length + 2) / 3) = 0 ∨ 4 * ((b.length + 2) / 3) % 4 ≠ 0) := by omega
    have hroom : ¬ 4 * ((b.length + 2) / 3) / 4 * 3 > decode_cap := by omega
    rw [base64Decode, hcount, if_neg hsome, if_neg hroom, if_neg (by decide), hloop]
    simp

/-- Four bytes are a group and a tail with two pads. -/
theorem base64_round_trip_abcd :
    ∃ text written, base64Encode [97, 98, 99, 100] true 11 = ⟨true, text ++ [0], text.length⟩ ∧
      base64Decode text true 6 = ⟨true, written, 4⟩ ∧ written.take 4 = [97, 98, 99, 100] :=
  base64_round_trip (by decide) (by decide) (by decide) (by decide)

end AzureMetadata.Analysis
