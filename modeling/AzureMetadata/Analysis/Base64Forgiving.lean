import AzureMetadata.Analysis.Base64Blocks

/-!
# The two decodings of a text without its padding

`base64_decode_forgiving` decodes the whole blocks of the text, and then the rest of it
filled up with `=`, at the position the first decoding reports and with the capacity that
is left.  It looks at neither result, and a decoding that fails leaves the length it was
given: the capacity.

`Decodes` says when one decoding succeeds, from the text and the capacity alone.  With it
the result is described for every text, and both theorems of this module follow.
-/

set_option autoImplicit false

namespace AzureMetadata.Analysis

open Clib AzureMetadata.Model

/-! ## When a decoding succeeds -/

/-- The characters `=` of the first block that has one, where the loop ends. -/
def padding : List UInt8 → ℕ
  | c0 :: c1 :: c2 :: c3 :: u =>
    if [c0, c1, c2, c3].count equalsSign = 0 then padding u
    else [c0, c1, c2, c3].count equalsSign
  | _ => 0

/-- The blocks up to its end. -/
def blocksRead : List UInt8 → ℕ
  | c0 :: c1 :: c2 :: c3 :: u =>
    if [c0, c1, c2, c3].count equalsSign = 0 then blocksRead u + 1 else 1
  | _ => 0

/-- The text has whole blocks, the capacity is enough for them, and the padding is not
invalid. -/
def Decodes (src : List UInt8) (cap : ℕ) : Prop :=
  significant src ≠ [] ∧ 4 ∣ (significant src).length ∧
    (significant src).length / 4 * 3 ≤ cap ∧ padding (significant src) ≤ 2

/-- The bytes the text stands for: three for each block, less one for each `=`. -/
def decodedLength (src : List UInt8) : ℕ :=
  3 * blocksRead (significant src) - padding (significant src)

/-- The pads are the characters `=` seen so far. -/
theorem pad_count (c : UInt8) (pad : ℕ) :
    (if c = equalsSign then pad + 1 else pad) = pad + [c].count equalsSign := by
  simp only [List.count_singleton, beq_iff_eq]
  split <;> rfl

/-- A character the table knows, when the block still needs another after it. -/
theorem decodeLoop_known {c : UInt8} (hc : dtable c ≠ 0x80) (src : List UInt8)
    {block : List UInt8} (hblock : block.length < 3) (pad : ℕ) (written : List UInt8) :
    decodeLoop (c :: src) block pad written =
      decodeLoop src (block ++ [dtable c]) (pad + [c].count equalsSign) written := by
  rw [decodeLoop]
  simp only [hc, if_false, pad_count]
  rcases block with _ | ⟨b0, _ | ⟨b1, _ | ⟨b2, block⟩⟩⟩
  · rfl
  · rfl
  · rfl
  · simp only [List.length_cons] at hblock
    omega

/-- The fourth character of a block writes its three bytes. -/
theorem decodeLoop_fourth {c0 c1 c2 c3 : UInt8} (h0 : dtable c0 ≠ 0x80) (h1 : dtable c1 ≠ 0x80)
    (h2 : dtable c2 ≠ 0x80) (h3 : dtable c3 ≠ 0x80) (src written : List UInt8) :
    decodeLoop (c0 :: c1 :: c2 :: c3 :: src) [] 0 written =
      let written' := written ++ decodeBlock (dtable c0) (dtable c1) (dtable c2) (dtable c3)
      let pads := [c0, c1, c2, c3].count equalsSign
      if pads = 0 then decodeLoop src [] 0 written'
      else if pads ≤ 2 then ⟨true, written', written'.length - pads⟩
      else ⟨false, written', 0⟩ := by
  have hcount : 0 + [c0].count equalsSign + [c1].count equalsSign + [c2].count equalsSign +
      [c3].count equalsSign = [c0, c1, c2, c3].count equalsSign := by
    rw [Nat.zero_add, ← List.count_append, ← List.count_append, ← List.count_append]
    rfl
  rw [decodeLoop_known h0 _ (by simp), decodeLoop_known h1 _ (by simp),
    decodeLoop_known h2 _ (by simp), decodeLoop]
  simp only [h3, if_false, pad_count, hcount, List.nil_append, List.cons_append]
  rcases [c0, c1, c2, c3].count equalsSign with _ | _ | _ | pads
  · rfl
  · rfl
  · rfl
  · have hinvalid : ¬ pads + 3 ≤ 2 := by omega
    simp [hinvalid]

/-- Whole blocks, from any bytes already written. -/
theorem decodeLoop_known_all {u : List UInt8} (hu : ∀ c ∈ u, dtable c ≠ 0x80)
    (hlen : 4 ∣ u.length) (written : List UInt8) :
    ∃ bytes, bytes.length = 3 * blocksRead u ∧ decodeLoop u [] 0 written =
      if padding u ≤ 2 then ⟨true, written ++ bytes, (written ++ bytes).length - padding u⟩
      else ⟨false, written ++ bytes, 0⟩ := by
  induction u using padding.induct generalizing written with
  | case1 c0 c1 c2 c3 u hnone ih =>
      simp only [List.mem_cons, forall_eq_or_imp] at hu
      obtain ⟨h0, h1, h2, h3, hu⟩ := hu
      have hrest : 4 ∣ u.length := by
        simp only [List.length_cons] at hlen
        omega
      obtain ⟨bytes, hbytes, hloop⟩ := ih hu hrest
        (written ++ decodeBlock (dtable c0) (dtable c1) (dtable c2) (dtable c3))
      refine ⟨decodeBlock (dtable c0) (dtable c1) (dtable c2) (dtable c3) ++ bytes, ?_, ?_⟩
      · simp only [blocksRead, hnone, if_true, decodeBlock, List.length_append, List.length_cons,
          List.length_nil, hbytes]
        omega
      · simp only [decodeLoop_fourth h0 h1 h2 h3, hnone, if_true, hloop, padding, List.append_assoc]
  | case2 c0 c1 c2 c3 u hsome =>
      simp only [List.mem_cons, forall_eq_or_imp] at hu
      obtain ⟨h0, h1, h2, h3, hu⟩ := hu
      refine ⟨decodeBlock (dtable c0) (dtable c1) (dtable c2) (dtable c3), ?_, ?_⟩
      · simp only [blocksRead, hsome, if_false, decodeBlock, List.length_cons, List.length_nil]
      · simp only [decodeLoop_fourth h0 h1 h2 h3, hsome, if_false, padding]
  | case3 u hshort =>
      rcases u with _ | ⟨c0, _ | ⟨c1, _ | ⟨c2, _ | ⟨c3, u⟩⟩⟩⟩
      · exact ⟨[], rfl, by simp [decodeLoop, padding]⟩
      · simp at hlen
      · simp at hlen
      · simp at hlen
      · exact absurd rfl (hshort c0 c1 c2 c3 u)

/-- The significant characters are those of the table. -/
theorem known_of_significant (src : List UInt8) : ∀ c ∈ significant src, dtable c ≠ 0x80 := by
  intro c hc
  simpa using List.of_mem_filter hc

/-- A decoding, whether or not it succeeds. -/
theorem base64Decode_decodes {src : List UInt8} {cap : ℕ} (h : Decodes src cap) :
    ∃ bytes, decodedLength src ≤ bytes.length ∧
      base64Decode src true cap = ⟨true, bytes, decodedLength src⟩ := by
  obtain ⟨hne, hfour, hcap, hpads⟩ := h
  have hpos := List.length_pos_of_ne_nil hne
  obtain ⟨bytes, hbytes, hloop⟩ := decodeLoop_known_all (known_of_significant src) hfour []
  have hcount : ¬ ((significant src).length = 0 ∨ (significant src).length % 4 ≠ 0) := by omega
  have hroom : ¬ (significant src).length / 4 * 3 > cap := by omega
  refine ⟨bytes, ?_, ?_⟩
  · unfold decodedLength
    omega
  · rw [base64Decode, countP_significant, if_neg hcount, if_neg hroom, if_neg (by decide),
      decodeLoop_significant, hloop, if_pos hpads, List.nil_append, hbytes]
    rfl

/-- A decoding that fails leaves the length alone. -/
theorem base64Decode_fails {src : List UInt8} {cap : ℕ} (h : ¬ Decodes src cap) :
    ∃ bytes, base64Decode src true cap = ⟨false, bytes, cap⟩ := by
  rw [base64Decode, countP_significant]
  split
  · exact ⟨[], rfl⟩
  · next hcount =>
    split
    · exact ⟨[], rfl⟩
    · next hroom =>
      obtain ⟨bytes, hbytes, hloop⟩ :=
        decodeLoop_known_all (known_of_significant src) (by omega) []
      have hinvalid : ¬ padding (significant src) ≤ 2 := by
        intro hpads
        apply h
        refine ⟨?_, by omega, by omega, hpads⟩
        intro hnil
        simp [hnil] at hcount
      rw [if_neg (by decide), decodeLoop_significant, hloop, if_neg hinvalid]
      exact ⟨bytes, rfl⟩

/-- There are no more blocks than fours of characters. -/
theorem blocksRead_le (u : List UInt8) : blocksRead u ≤ u.length / 4 := by
  induction u using blocksRead.induct with
  | case1 c0 c1 c2 c3 u hnone ih =>
      simp only [blocksRead, hnone, if_true, List.length_cons]
      omega
  | case2 c0 c1 c2 c3 u hsome =>
      simp only [blocksRead, hsome, if_false, List.length_cons]
      omega
  | case3 u hshort => simp [blocksRead]

/-- What a call decodes fits its buffer. -/
theorem decodedLength_le {src : List UInt8} {cap : ℕ} (h : Decodes src cap) :
    decodedLength src ≤ cap := by
  have hblocks := blocksRead_le (significant src)
  have hcap := h.2.2.1
  unfold decodedLength
  omega

/-! ## Both decodings -/

/-- The whole blocks of the text, and the rest of it. -/
def mainPart (src : List UInt8) : List UInt8 := src.take (src.length - src.length % 4)

def tailPart (src : List UInt8) : List UInt8 :=
  paddedTail (src.drop (src.length - src.length % 4))

/-- The decodings of a call, with the positions their bytes are for. -/
def decodings (src : List UInt8) (cap : ℕ) : List (ℕ × Base64Result) :=
  if src.length % 4 ≠ 0 then
    let r := base64Decode (mainPart src) true cap
    [(0, r), (r.out_len, base64Decode (tailPart src) true (sizeSub cap r.out_len))]
  else [(0, base64Decode src true cap)]

/-- The writes of a call are those of its decodings. -/
theorem writes_decodings (src : List UInt8) (cap : ℕ) :
    (base64DecodeForgiving src true cap).writes =
      (decodings src cap).map fun d => (d.1, d.2.written) := by
  unfold base64DecodeForgiving decodings
  rw [and_3]
  split <;> rfl

variable {src : List UInt8} {cap : ℕ}

/-- With no room nothing is decoded. -/
theorem not_decodes_zero (src : List UInt8) : ¬ Decodes src 0 := by
  rintro ⟨hne, hfour, hcap, hpads⟩
  have hpos := List.length_pos_of_ne_nil hne
  omega

/-- A text of whole blocks is decoded as it is. -/
theorem forgiving_whole (hsrc : src.length % 4 = 0) (cap : ℕ) :
    decodings src cap = [(0, base64Decode src true cap)] ∧
      (base64DecodeForgiving src true cap).out_len = (base64Decode src true cap).out_len := by
  unfold base64DecodeForgiving decodings
  rw [and_3]
  simp only [hsrc, ne_eq, not_true_eq_false, if_false, and_self]

/-- Any other is decoded in two parts. -/
theorem forgiving_parts (hsrc : src.length % 4 ≠ 0) {r r' : Base64Result}
    (hmain : base64Decode (mainPart src) true cap = r)
    (htail : base64Decode (tailPart src) true (sizeSub cap r.out_len) = r') :
    decodings src cap = [(0, r), (r.out_len, r')] ∧
      (base64DecodeForgiving src true cap).out_len = sizeAdd r.out_len r'.out_len := by
  subst hmain htail
  unfold base64DecodeForgiving decodings
  rw [and_3, if_pos hsrc, if_pos hsrc]
  exact ⟨rfl, rfl⟩

/-- After a failure for the main part nothing is left for the rest. -/
theorem forgiving_main_fails (hsrc : src.length % 4 ≠ 0) (hcap : cap < sizeMod)
    (hmain : ¬ Decodes (mainPart src) cap) :
    ∃ bytes bytes', decodings src cap = [(0, ⟨false, bytes, cap⟩), (cap, ⟨false, bytes', 0⟩)] ∧
      (base64DecodeForgiving src true cap).out_len = cap := by
  obtain ⟨bytes, hr⟩ := base64Decode_fails hmain
  obtain ⟨bytes', hr'⟩ := base64Decode_fails (not_decodes_zero (tailPart src))
  have hrest : sizeSub cap cap = 0 := by rw [sizeSub_eq hcap (le_refl _), Nat.sub_self]
  rw [← hrest] at hr'
  obtain ⟨hparts, hlen⟩ := forgiving_parts hsrc hr hr'
  refine ⟨bytes, bytes', ?_, ?_⟩
  · rw [hparts, hrest]
  · rw [hlen, hrest]
    exact Nat.mod_eq_of_lt hcap

/-- After a success the second decoding has the capacity that is left. -/
theorem forgiving_main_decodes (hsrc : src.length % 4 ≠ 0) (hcap : cap < sizeMod)
    (hmain : Decodes (mainPart src) cap) {r' : Base64Result}
    (htail : base64Decode (tailPart src) true (cap - decodedLength (mainPart src)) = r') :
    ∃ bytes, decodedLength (mainPart src) ≤ bytes.length ∧
      decodings src cap = [(0, ⟨true, bytes, decodedLength (mainPart src)⟩),
        (decodedLength (mainPart src), r')] ∧
      (base64DecodeForgiving src true cap).out_len =
        sizeAdd (decodedLength (mainPart src)) r'.out_len := by
  obtain ⟨bytes, hbytes, hr⟩ := base64Decode_decodes hmain
  rw [← sizeSub_eq hcap (decodedLength_le hmain)] at htail
  exact ⟨bytes, hbytes, forgiving_parts hsrc hr htail⟩

/-! ## What the caller is told -/

/-- Each byte of `out` below the length reported is one that a decoding which succeeded
has written there, below the length it reports itself. -/
def Truthful (src : List UInt8) (cap : ℕ) : Prop :=
  ∀ i < (base64DecodeForgiving src true cap).out_len, ∃ d ∈ decodings src cap,
    d.2.ret = true ∧ ∃ k < d.2.out_len, k < d.2.written.length ∧ i = d.1 + k

/-- When every decoding fails, the length reported is the capacity. -/
theorem truthful_of_none (hall : ∀ d ∈ decodings src cap, d.2.ret = false)
    (hlen : (base64DecodeForgiving src true cap).out_len = cap) :
    Truthful src cap ↔ cap = 0 := by
  constructor
  · intro h
    by_contra hcap
    obtain ⟨d, hd, hret, -⟩ := h 0 (by omega)
    rw [hall d hd] at hret
    cases hret
  · intro hcap i hi
    omega

/-- A whole number of blocks is decoded in one call. -/
theorem truthful_whole (hsrc : src.length % 4 = 0) :
    Truthful src cap ↔ cap = 0 ∨ Decodes src cap := by
  obtain ⟨hd, hlen⟩ := forgiving_whole hsrc cap
  by_cases h : Decodes src cap
  · obtain ⟨bytes, hbytes, hr⟩ := base64Decode_decodes h
    rw [hr] at hd hlen
    have htrue : Truthful src cap := by
      intro i hi
      rw [hlen] at hi
      refine ⟨_, by rw [hd]; exact List.mem_singleton_self _, rfl, i, hi, ?_, ?_⟩
      · exact lt_of_lt_of_le hi hbytes
      · exact (Nat.zero_add i).symm
    exact ⟨fun _ => .inr h, fun _ => htrue⟩
  · obtain ⟨bytes, hr⟩ := base64Decode_fails h
    rw [hr] at hd hlen
    rw [truthful_of_none (by simp [hd]) hlen]
    simp [h]

/-- After two successes the bytes of both are told. -/
theorem truthful_of_both (hsrc : src.length % 4 ≠ 0) (hcap : cap < sizeMod)
    (hmain : Decodes (mainPart src) cap)
    (htail : Decodes (tailPart src) (cap - decodedLength (mainPart src))) : Truthful src cap := by
  obtain ⟨bytes', hbytes', hr'⟩ := base64Decode_decodes htail
  obtain ⟨bytes, hbytes, hd, hlen⟩ := forgiving_main_decodes hsrc hcap hmain hr'
  have hmainle := decodedLength_le hmain
  have htaille := decodedLength_le htail
  have hsum : sizeAdd (decodedLength (mainPart src)) (decodedLength (tailPart src)) =
      decodedLength (mainPart src) + decodedLength (tailPart src) :=
    Nat.mod_eq_of_lt (by omega)
  intro i hi
  rw [hlen, hsum] at hi
  rw [hd]
  by_cases hlow : i < decodedLength (mainPart src)
  · exact ⟨_, List.mem_cons_self, rfl, i, hlow, lt_of_lt_of_le hlow hbytes, (Nat.zero_add i).symm⟩
  · have hk : i - decodedLength (mainPart src) < decodedLength (tailPart src) := by omega
    exact ⟨_, List.mem_cons_of_mem _ List.mem_cons_self, rfl, i - decodedLength (mainPart src), hk,
      lt_of_lt_of_le hk hbytes', (Nat.add_sub_of_le (not_lt.mp hlow)).symm⟩

/-- After a failure for the rest only, the capacity is told, and the bytes there are those
of the main part. -/
theorem truthful_of_main (hsrc : src.length % 4 ≠ 0) (hcap : cap < sizeMod)
    (hmain : Decodes (mainPart src) cap)
    (htail : ¬ Decodes (tailPart src) (cap - decodedLength (mainPart src))) :
    Truthful src cap ↔ cap = decodedLength (mainPart src) := by
  obtain ⟨bytes', hr'⟩ := base64Decode_fails htail
  obtain ⟨bytes, hbytes, hd, hlen⟩ := forgiving_main_decodes hsrc hcap hmain hr'
  have hmainle := decodedLength_le hmain
  have hsum :
      sizeAdd (decodedLength (mainPart src)) (cap - decodedLength (mainPart src)) = cap := by
    unfold sizeAdd
    rw [Nat.add_sub_cancel' hmainle, Nat.mod_eq_of_lt hcap]
  unfold Truthful
  rw [hlen, hd, hsum]
  constructor
  · intro h
    by_contra hne
    -- The first byte after those of the main part belongs to no decoding.
    obtain ⟨d, hmem, hret, k, hk, -, hi⟩ := h (decodedLength (mainPart src)) (by omega)
    simp only [List.mem_cons, List.not_mem_nil, or_false] at hmem
    cases hmem with
    | inl hfirst =>
        subst hfirst
        simp only [Nat.zero_add] at hk hi
        omega
    | inr hsecond =>
        subst hsecond
        cases hret
  · intro heq i hi
    have hlow : i < decodedLength (mainPart src) := by omega
    exact ⟨_, List.mem_cons_self, rfl, i, hlow, lt_of_lt_of_le hlow hbytes, (Nat.zero_add i).symm⟩

/-- Otherwise the main part and the tail are decoded one after the other. -/
theorem truthful_parts (hsrc : src.length % 4 ≠ 0) (hcap : cap < sizeMod) :
    Truthful src cap ↔ cap = 0 ∨ Decodes (mainPart src) cap ∧
      (Decodes (tailPart src) (cap - decodedLength (mainPart src)) ∨
        cap = decodedLength (mainPart src)) := by
  by_cases hmain : Decodes (mainPart src) cap
  · have hpos : cap ≠ 0 := by
      intro hzero
      rw [hzero] at hmain
      exact not_decodes_zero _ hmain
    by_cases htail : Decodes (tailPart src) (cap - decodedLength (mainPart src))
    · have htrue := truthful_of_both hsrc hcap hmain htail
      simp [htrue, hmain, htail]
    · rw [truthful_of_main hsrc hcap hmain htail]
      simp [hpos, hmain, htail]
  · obtain ⟨bytes, bytes', hd, hlen⟩ := forgiving_main_fails hsrc hcap hmain
    rw [truthful_of_none (by simp [hd]) hlen]
    simp [hmain]

/-- There is no room at all, the decodings that take place succeed, or the bytes of the
main part fill the room. -/
def Covered (src : List UInt8) (cap : ℕ) : Prop :=
  cap = 0 ∨ src.length % 4 = 0 ∧ Decodes src cap ∨
    src.length % 4 ≠ 0 ∧ Decodes (mainPart src) cap ∧
      (Decodes (tailPart src) (cap - decodedLength (mainPart src)) ∨
        cap = decodedLength (mainPart src))

/-- The result is 0, whatever the two calls return. -/
theorem forgiving_ret (src : List UInt8) (out : Bool) (cap : ℕ) :
    (base64DecodeForgiving src out cap).ret = 0 := by
  unfold base64DecodeForgiving
  split <;> rfl

/-- **When the length is the truth.**  A call always returns 0, and the length it reports
is one of decoded bytes in these cases only. -/
theorem base64DecodeForgiving_truthful (src : List UInt8) {cap : ℕ} (hcap : cap < sizeMod) :
    ((base64DecodeForgiving src true cap).ret = 0 → Truthful src cap) ↔ Covered src cap := by
  rw [imp_iff_right (forgiving_ret src true cap)]
  unfold Covered
  by_cases hsrc : src.length % 4 = 0
  · rw [truthful_whole hsrc]
    simp [hsrc]
  · rw [truthful_parts hsrc hcap]
    simp [hsrc]

/-- Four characters are decoded in one call, into three bytes. -/
theorem base64DecodeForgiving_truthful_qqqq :
    ((base64DecodeForgiving [81, 81, 81, 81] true 3).ret = 0 → Truthful [81, 81, 81, 81] 3) ↔
      Covered [81, 81, 81, 81] 3 :=
  base64DecodeForgiving_truthful [81, 81, 81, 81] (by decide)

/-- Of `QQ` nothing is decoded, and with room for three bytes three are reported. -/
theorem not_truthful_qq :
    (base64DecodeForgiving [81, 81] true 3).ret = 0 ∧
      (base64DecodeForgiving [81, 81] true 3).out_len = 3 ∧
      (base64DecodeForgiving [81, 81] true 3).writes = [(0, []), (3, [])] ∧
      ¬ Truthful [81, 81] 3 := by
  have hnone : ∀ d ∈ decodings [81, 81] 3, d.2.ret = false := by decide +kernel
  have hlen : (base64DecodeForgiving [81, 81] true 3).out_len = 3 := by decide +kernel
  refine ⟨rfl, hlen, by decide +kernel, ?_⟩
  rw [truthful_of_none hnone hlen]
  decide

/-! ## The form of a byte string -/

/-- The caller's buffer after the writes of a call. -/
def afterWrites (buffer : List UInt8) (writes : List (ℕ × List UInt8)) : List UInt8 :=
  writes.foldl (fun cells w => overwrite cells w.1 w.2) buffer

/-- The call on the form of `b`, without padding and on one line, gives `b` back. -/
def Recovers (b : List UInt8) (cap : ℕ) : Prop :=
  let r := base64DecodeForgiving ((sextets b).map base64Char) true cap
  r.ret = 0 ∧ r.out_len = b.length ∧
    ∀ buffer : List UInt8, buffer.length = cap → (afterWrites buffer r.writes).take b.length = b

/-- A form of whole blocks, with its padding. -/
theorem base64Decode_form {b : List UInt8} (hne : b ≠ []) (pads cap : ℕ) (hpads : pads ≤ 2)
    (hfour : 4 ∣ (sextets b).length + pads)
    (hcap : 3 * ((sextets b).length + pads) / 4 ≤ cap) :
    ∃ extra, base64Decode ((sextets b).map base64Char ++ List.replicate pads equalsSign) true cap =
      ⟨true, b ++ extra, b.length⟩ := by
  have hvs : ∀ v ∈ sextets b, v < 64 := fun v hv => sextets_lt hv
  have hpos := List.length_pos_of_ne_nil hne
  have hlen := length_sextets b
  obtain ⟨extra, hr⟩ :=
    base64Decode_padded (significant_form hvs pads) hvs hpads (by omega) hfour hcap
  rw [blockBytes_sextets] at hr
  exact ⟨extra, hr⟩

/-- A text without pads is decoded in one call. -/
theorem recovers_whole {b : List UInt8} (hne : b ≠ []) (hwhole : b.length % 3 = 0) {cap : ℕ}
    (hcap : b.length ≤ cap) : Recovers b cap := by
  have hlen := length_sextets b
  obtain ⟨extra, hr⟩ := base64Decode_form hne 0 cap (by omega) (by omega) (by omega)
  rw [List.replicate_zero, List.append_nil] at hr
  have hsrc : ((sextets b).map base64Char).length % 4 = 0 := by
    rw [List.length_map]
    omega
  obtain ⟨hd, hout⟩ := forgiving_whole hsrc cap
  refine ⟨forgiving_ret _ _ _, ?_, ?_⟩
  · rw [hout, hr]
  · intro buffer hbuffer
    have hbytes := take_overwrite_append b extra (Nat.zero_le buffer.length)
    rw [Nat.zero_add] at hbytes
    rw [writes_decodings, hd, hr]
    simpa [afterWrites] using hbytes

/-- Where the form of whole groups and fewer than three bytes after them is cut. -/
theorem parts_form {a c : List UInt8} (ha : 3 ∣ a.length) (hc : c.length < 3) :
    mainPart ((sextets (a ++ c)).map base64Char) = (sextets a).map base64Char ∧
      tailPart ((sextets (a ++ c)).map base64Char) =
        (sextets c).map base64Char ++ List.replicate (4 - (sextets c).length) equalsSign := by
  have hlena := length_sextets a
  have hlenc := length_sextets c
  have hform : (sextets (a ++ c)).map base64Char =
      (sextets a).map base64Char ++ (sextets c).map base64Char := by
    rw [sextets_append ha, List.map_append]
  have hcut : ((sextets (a ++ c)).map base64Char).length -
      ((sextets (a ++ c)).map base64Char).length % 4 = ((sextets a).map base64Char).length := by
    rw [hform, List.length_append, List.length_map, List.length_map]
    omega
  constructor
  · unfold mainPart
    rw [hcut, hform, List.take_left]
  · unfold tailPart paddedTail
    rw [hcut, hform, List.drop_left, overwrite_zero, List.drop_replicate, List.length_map]

/-- A main part of whole groups, and one or two bytes after it. -/
theorem recovers_append {a c : List UInt8} (hane : a ≠ []) (ha : 3 ∣ a.length) (hcne : c ≠ [])
    (hc : c.length < 3) {cap : ℕ} (hcap : a.length + 3 ≤ cap) (hsize : cap < sizeMod) :
    Recovers (a ++ c) cap := by
  have hapos := List.length_pos_of_ne_nil hane
  have hcpos := List.length_pos_of_ne_nil hcne
  have hlena := length_sextets a
  have hlenc := length_sextets c
  obtain ⟨hmain, htail⟩ := parts_form ha hc
  have hsrc : ((sextets (a ++ c)).map base64Char).length % 4 ≠ 0 := by
    rw [sextets_append ha, List.length_map, List.length_append]
    omega
  obtain ⟨extra, hr⟩ := base64Decode_form hane 0 cap (by omega) (by omega) (by omega)
  rw [List.replicate_zero, List.append_nil] at hr
  obtain ⟨extra', hr'⟩ := base64Decode_form hcne (4 - (sextets c).length) (cap - a.length)
    (by omega) (by omega) (by omega)
  rw [← hmain] at hr
  rw [← htail, ← sizeSub_eq hsize (by omega : a.length ≤ cap)] at hr'
  obtain ⟨hd, hout⟩ := forgiving_parts hsrc hr hr'
  have hsum : sizeAdd a.length c.length = a.length + c.length := Nat.mod_eq_of_lt (by omega)
  refine ⟨forgiving_ret _ _ _, ?_, ?_⟩
  · rw [hout, List.length_append]
    exact hsum
  · intro buffer hbuffer
    -- The second decoding writes after the bytes of the first, over what it wrote beyond them.
    have hfirst := take_overwrite_append a extra (Nat.zero_le buffer.length)
    rw [Nat.zero_add, List.take_zero, List.nil_append] at hfirst
    have hroom : a.length ≤ (overwrite buffer 0 (a ++ extra)).length := by
      rw [length_overwrite_zero]
      omega
    have hsecond := take_overwrite_append c extra' hroom
    rw [hfirst] at hsecond
    rw [writes_decodings, hd, List.length_append]
    exact hsecond

/-- **The form of a byte string without its padding.**  It is given back exactly when it
has three bytes or more. -/
theorem base64DecodeForgiving_sextets {b : List UInt8} (hne : b ≠ []) {cap : ℕ}
    (hcap : 3 * ((b.length + 2) / 3) ≤ cap) (hsize : cap < sizeMod) :
    Recovers b cap ↔ 3 ≤ b.length := by
  constructor
  · intro h
    by_contra hshort
    have hpos := List.length_pos_of_ne_nil hne
    have hlen := length_sextets b
    have hlenmap : ((sextets b).map base64Char).length = (sextets b).length := List.length_map _
    have hmain : mainPart ((sextets b).map base64Char) = [] := by
      apply List.take_eq_nil_iff.mpr
      omega
    have hfails : ¬ Decodes (mainPart ((sextets b).map base64Char)) cap := by
      rw [hmain]
      rintro ⟨hsome, -⟩
      exact hsome rfl
    obtain ⟨bytes, bytes', hd, hout⟩ := forgiving_main_fails (by omega) hsize hfails
    have := h.2.1
    omega
  · intro hthree
    by_cases hwhole : b.length % 3 = 0
    · exact recovers_whole hne hwhole (by omega)
    · have hsplit := List.take_append_drop (b.length - b.length % 3) b
      have hmain : (b.take (b.length - b.length % 3)).length = b.length - b.length % 3 := by
        rw [List.length_take]
        omega
      have htail : (b.drop (b.length - b.length % 3)).length = b.length % 3 := by
        rw [List.length_drop]
        omega
      rw [← hsplit]
      apply recovers_append
      · apply List.ne_nil_of_length_pos
        omega
      · omega
      · apply List.ne_nil_of_length_pos
        omega
      · omega
      · omega
      · exact hsize

/-- The three bytes of `QUJD`, in a buffer of three. -/
theorem base64DecodeForgiving_sextets_abc : Recovers [65, 66, 67] 3 ↔ 3 ≤ 3 :=
  base64DecodeForgiving_sextets (b := [65, 66, 67]) (by decide) (by decide) (by decide)

/-- The form `QQ` of one byte: with room for three bytes, three are reported and none is
written. -/
theorem not_recovers_a : ¬ Recovers [65] 3 ∧ (sextets [65]).map base64Char = [81, 81] ∧
    (base64DecodeForgiving [81, 81] true 3).out_len = 3 ∧
      (base64DecodeForgiving [81, 81] true 3).writes = [(0, []), (3, [])] := by
  have hlen : (base64DecodeForgiving ((sextets [65]).map base64Char) true 3).out_len = 3 := by
    decide +kernel
  refine ⟨?_, rfl, hlen, by decide +kernel⟩
  intro h
  have := h.2.1
  rw [hlen] at this
  cases this

end AzureMetadata.Analysis
