import AzureMetadata.Model.JsonBuffer

/-!
# The string buffer holds what was put into it

`Buffered sb text` is the invariant: the block begins with `text`, and `cur` stands behind
it, at `end` or before.  Every operation keeps it or ends the program for want of memory;
`sb_need` makes the room that the stores after it rely on, since these do not check.  The
doublings ask for less than twice what is needed, so that memory is not wanting when the
allocator refuses nothing and the text is not as large as the address space.
-/

set_option autoImplicit false

namespace AzureMetadata.Analysis

open Clib AzureMetadata.Model

variable {A : Allocator UInt8} {sb : SB} {text bytes : List UInt8} {n : ℕ}

/-- The buffer holds `text`. -/
structure Buffered (sb : SB) (text : List UInt8) : Prop where
  take : sb.block.bytes.take sb.cur = text
  cur_eq : sb.cur = text.length
  cur_le : sb.cur ≤ sb.size
  size_pos : 16 ≤ sb.size

/-- Running out of memory with a text of at most `n` bytes: the allocator refuses a request,
or a buffer for the text can be too large to be asked for. -/
def OutOfMemory (A : Allocator UInt8) (n : ℕ) (e : Stop) : Prop :=
  e = .exit ∧ ((∃ k, (A k).granted = false) ∨ ptrdiffMax < 2 * (n + 16))

/-- A longer text can run out of memory where a shorter one does. -/
theorem OutOfMemory.mono {m : ℕ} {e : Stop} (h : OutOfMemory A n e) (hle : n ≤ m) :
    OutOfMemory A m e :=
  h.imp_right fun hwhy => hwhy.imp_right fun hlarge => by omega

/-- With everything granted, a text that is not enormous does not run out of memory. -/
theorem not_outOfMemory {e : Stop} (hall : ∀ k, (A k).granted = true)
    (hsize : 2 * (n + 16) ≤ ptrdiffMax) : ¬ OutOfMemory A n e := by
  rintro ⟨-, ⟨k, hk⟩ | hlarge⟩
  · exact Bool.false_ne_true (hk.symm.trans (hall k))
  · exact absurd hsize (not_le.mpr hlarge)

/-- A call that can only run out of memory then returns. -/
theorem returns_of_granted {β : Type} {r : Except Stop β} {P : β → Prop}
    (hall : ∀ k, (A k).granted = true) (hsize : 2 * (n + 16) ≤ ptrdiffMax)
    (h : Yields (OutOfMemory A n) r P) : ∃ b, r = .ok b ∧ P b :=
  h.returns fun _ => not_outOfMemory hall hsize

/-- The block has one cell behind `end`. -/
theorem Buffered.length_block (h : Buffered sb text) : sb.block.bytes.length = sb.size + 1 := by
  have hpos := h.size_pos
  unfold SB.size at *
  omega

/-- No block is larger than `PTRDIFF_MAX`. -/
theorem Buffered.size_lt (h : Buffered sb text) : sb.size < ptrdiffMax := by
  have hlen := h.length_block
  have hle := sb.block.length_le
  omega

/-! ## Growing -/

/-- A request gives a block of that size with the old cells, or was refused. -/
theorem request_gives {size : ℕ} {old : List UInt8} (hsize : size ≤ 2 * (n + 16)) :
    Gives (OutOfMemory A n) (request A size old) fun block => block.bytes.length = size ∧
      size ≤ ptrdiffMax ∧ ∀ k, k ≤ old.length → k ≤ size → block.bytes.take k = old.take k := by
  intro k
  show Yields (OutOfMemory A n) (request A size old k) _
  unfold request
  split
  · next hg => exact ⟨length_resize .., hg.2, fun k hk hks => take_resize _ hk hks⟩
  · next hg =>
      rw [not_and_or] at hg
      exact ⟨rfl, hg.imp (fun hrefused => ⟨k, Bool.eq_false_iff.mpr hrefused⟩)
        fun hlarge => (not_le.mp hlarge).trans_le hsize⟩

/-- The doublings stop at a size that is large enough, before `size_t` wraps, and less than
twice as large as needed. -/
theorem growAlloc_eq {n alloc target : ℕ} (hn : 0 < n) (halloc : alloc < 2 ^ 63)
    (hless : alloc < target) (htarget : target ≤ alloc * 2 ^ n)
    (hfits : target ≤ 2 * alloc ∨ target ≤ 2 ^ 63) :
    ∃ alloc', growAlloc n alloc target = .ok alloc' ∧ target ≤ alloc' ∧ alloc' < 2 * target ∧
      alloc' < 2 ^ 64 - 1 := by
  induction n generalizing alloc with
  | zero => exact absurd hn (Nat.lt_irrefl 0)
  | succ n ih =>
      have hmul : sizeMul alloc 2 = alloc * 2 := Nat.mod_eq_of_lt (by unfold sizeMod; omega)
      rw [growAlloc, hmul]
      by_cases hlt : alloc * 2 < target
      · have hn' : 0 < n := by
          rcases Nat.eq_zero_or_pos n with rfl | hpos
          · rw [Nat.zero_add, pow_one] at htarget
            omega
          · exact hpos
        have hdouble : alloc * 2 ^ (n + 1) = alloc * 2 * 2 ^ n := by
          rw [pow_succ, Nat.mul_comm (2 ^ n) 2, Nat.mul_assoc]
        obtain ⟨alloc', he, hresult⟩ :=
          ih hn' (by omega) hlt (hdouble ▸ htarget) (Or.inr (by omega))
        exact ⟨alloc', by rw [if_pos hlt]; exact he, hresult⟩
      · exact ⟨alloc * 2, if_neg hlt, by omega, by omega, by omega⟩

/-- `sb_grow`, where there is not enough room. -/
theorem sbGrow_gives {need : ℕ} (h : Buffered sb text) (hneed : need < 2 ^ 31)
    (hless : sb.size < text.length + need) (hn : text.length + need ≤ n + 16) :
    Gives (OutOfMemory A n) (sbGrow A sb need) fun sb' =>
      Buffered sb' text ∧ text.length + need ≤ sb'.size := by
  have hsize := h.size_lt
  have hpos := h.size_pos
  have hcur := h.cur_le
  have hsum : sizeAdd sb.cur need = sb.cur + need := by
    refine Nat.mod_eq_of_lt ?_
    unfold ptrdiffMax at hsize
    unfold sizeMod
    omega
  have htarget : sb.cur + need ≤ sb.size * 2 ^ 64 := by
    calc sb.cur + need ≤ sb.size + 2 ^ 31 := by omega
      _ ≤ sb.size * 2 ^ 64 := by omega
  have hless' : sb.size < sb.cur + need := by
    rw [h.cur_eq]
    exact hless
  obtain ⟨alloc, he, ht, hlt, hmax⟩ := growAlloc_eq (n := 64) (by omega)
    (by unfold ptrdiffMax at hsize; omega) hless' htarget (by unfold ptrdiffMax at hsize; omega)
  have hle : sb.size ≤ alloc := hless'.le.trans ht
  have hrequest : alloc + 1 ≤ 2 * (n + 16) := by
    rw [h.cur_eq] at hlt
    omega
  have hadd : sizeAdd alloc 1 = alloc + 1 := Nat.mod_eq_of_lt (by unfold sizeMod; omega)
  rw [sbGrow, hsum, he]
  refine (gives_lift (r := .ok alloc) (P := fun a => a = alloc) rfl).bind ?_
  intro a ha
  rw [ha, hadd]
  refine (request_gives hrequest).bind ?_
  rintro block ⟨hlen, -, htake⟩
  have hlength := h.length_block
  have hnew : ({ sb with block := block } : SB).size = alloc := by
    unfold SB.size
    rw [hlen]
    rfl
  refine gives_pure ⟨⟨?_, h.cur_eq, ?_, ?_⟩, ?_⟩
  · rw [htake sb.cur (by omega) (by omega)]
    exact h.take
  · rw [hnew]
    exact hcur.trans hle
  · rw [hnew]
    omega
  · rw [hnew, ← h.cur_eq]
    exact ht

/-- `sb_need` makes room. -/
theorem sbNeed_gives (need : ℕ) (h : Buffered sb text) (hneed : need < 2 ^ 31)
    (hn : text.length + need ≤ n + 16) :
    Gives (OutOfMemory A n) (sbNeed A sb need) fun sb' =>
      Buffered sb' text ∧ text.length + need ≤ sb'.size := by
  have hcur := h.cur_eq
  unfold sbNeed
  split
  · rw [Int.toNat_natCast]
    exact sbGrow_gives h hneed (by omega) hn
  · exact gives_pure ⟨h, by omega⟩

/-! ## Storing -/

/-- Stores that the room allows for. -/
theorem sbStore_eq (bytes : List UInt8) (h : Buffered sb text)
    (hroom : text.length + bytes.length ≤ sb.size) :
    ∃ sb', sbStore sb bytes = .ok sb' ∧ Buffered sb' (text ++ bytes) ∧ sb'.size = sb.size := by
  have hlen := h.length_block
  have hcur := h.cur_eq
  have hfit : sb.cur + bytes.length ≤ sb.block.bytes.length := by omega
  have hsize : ∀ b : CBytes, b.bytes.length = sb.block.bytes.length →
      ({ block := b, cur := sb.cur + bytes.length } : SB).size = sb.size := by
    intro b hb
    unfold SB.size
    rw [hb]
  refine ⟨_, dif_pos hfit, ⟨?_, ?_, ?_, ?_⟩, hsize _ (length_overwrite hfit)⟩
  · rw [← h.take]
    exact take_overwrite_end bytes (by omega)
  · rw [List.length_append, ← hcur]
  · rw [hsize _ (length_overwrite hfit)]
    show sb.cur + bytes.length ≤ sb.size
    omega
  · rw [hsize _ (length_overwrite hfit)]
    exact h.size_pos

/-- `sb_init`. -/
theorem sbInit_gives : Gives (OutOfMemory A n) (sbInit A) fun sb => Buffered sb [] := by
  refine (request_gives (by omega)).bind ?_
  rintro block ⟨hlen, -, -⟩
  refine gives_pure ⟨rfl, rfl, Nat.zero_le _, ?_⟩
  unfold SB.size
  rw [hlen]

/-- `sb_putc`. -/
theorem sbPutc_gives {c : UInt8} (h : Buffered sb text) (hn : text.length + 1 ≤ n + 16) :
    Gives (OutOfMemory A n) (sbPutc A sb c) fun sb' => Buffered sb' (text ++ [c]) := by
  have hgrow : Gives (OutOfMemory A n) (if sb.cur ≥ sb.size then sbGrow A sb 1 else pure sb)
      fun sb' => Buffered sb' text ∧ text.length + 1 ≤ sb'.size := by
    have hcur := h.cur_eq
    split
    · exact sbGrow_gives h (by omega) (by omega) hn
    · exact gives_pure ⟨h, by omega⟩
  refine hgrow.bind ?_
  rintro sb₁ ⟨hb₁, hroom⟩
  obtain ⟨sb₂, he, hb₂, -⟩ := sbStore_eq [c] hb₁ hroom
  rw [he]
  exact gives_lift hb₂

/-- A length below 2³¹ goes through an `int` as it is. -/
theorem intOfSize_eq {n : ℕ} (hn : n < 2 ^ 31) : intOfSize n = n := by
  unfold intOfSize
  exact Int.bmod_eq_of_le (by omega) (by omega)

/-- `sb_puts`, of a string whose length is an `int`. -/
theorem sbPuts_gives (h : Buffered sb text) (hlen : bytes.length < 2 ^ 31)
    (hn : text.length + bytes.length ≤ n + 16) :
    Gives (OutOfMemory A n) (sbPuts A sb bytes) fun sb' => Buffered sb' (text ++ bytes) := by
  rw [sbPuts, intOfSize_eq hlen, sbPut]
  refine (sbNeed_gives _ h hlen hn).bind ?_
  rintro sb₁ ⟨hb₁, hroom⟩
  rw [if_neg (by omega), Int.toNat_natCast, List.take_length]
  obtain ⟨sb₂, he, hb₂, -⟩ := sbStore_eq bytes hb₁ hroom
  rw [he]
  exact gives_lift hb₂

/-- `sb_finish` hands over the text as a string, and its assertion holds. -/
theorem sbFinish_eq (h : Buffered sb text) (hnul : 0 ∉ text) :
    ∃ str : CString, sbFinish sb = .ok str ∧ str.bytes = text := by
  have hlen := h.length_block
  have hcur := h.cur_eq
  have hfit : sb.cur + ([0] : List UInt8).length ≤ sb.block.bytes.length := by
    have hle := h.cur_le
    rw [List.length_singleton]
    omega
  have hblock : overwrite sb.block.bytes sb.cur [0] =
      text ++ 0 :: sb.block.bytes.drop (sb.cur + 1) := by
    rw [overwrite, h.take, List.append_assoc]
    rfl
  have hstring := cString_append_zero text (sb.block.bytes.drop (sb.cur + 1))
  rw [beforeNul_eq_self hnul, ← hblock] at hstring
  have hle := (length_overwrite hfit).le.trans sb.block.length_le
  obtain ⟨str, hstr, hbytes⟩ := CBytes.string_eq
    (b := ⟨overwrite sb.block.bytes sb.cur [0], hle⟩) hstring
  refine ⟨str, ?_, hbytes⟩
  rw [sbFinish, sbStore, dif_pos hfit, stop_ok_bind, hstr]
  exact if_pos (by rw [hbytes, hcur])

/-! ## Runs -/

/-- The calls of `sb_puts` on one buffer. -/
def sbPutsAll (A : Allocator UInt8) (pieces : List (List UInt8)) (sb : SB) : Requests SB :=
  pieces.foldlM (fun sb piece => sbPuts A sb piece) sb

/-- The calls put their strings one behind the other. -/
theorem sbPutsAll_gives {pieces : List (List UInt8)} (h : Buffered sb text)
    (hlen : ∀ piece ∈ pieces, piece.length < 2 ^ 31)
    (hn : text.length + pieces.flatten.length ≤ n) :
    Gives (OutOfMemory A n) (sbPutsAll A pieces sb) fun sb' =>
      Buffered sb' (text ++ pieces.flatten) := by
  induction pieces generalizing sb text with
  | nil =>
      rw [List.flatten_nil, List.append_nil]
      exact gives_pure h
  | cons piece pieces ih =>
      have hrest := List.forall_mem_cons.mp hlen
      rw [List.flatten_cons, List.length_append, ← Nat.add_assoc] at hn
      rw [List.flatten_cons, ← List.append_assoc]
      refine (sbPuts_gives h hrest.1 (by omega)).bind fun sb' h' => ih h' hrest.2 ?_
      rwa [List.length_append]

/-- **What is put into a buffer comes out of it**, in order and whole, however often it had
to grow; memory runs out only if a request is refused or the text is enormous. -/
theorem sb_finish_pieces (A : Allocator UInt8) {pieces : List (List UInt8)}
    (hlen : ∀ piece ∈ pieces, piece.length < 2 ^ 31) (hnul : ∀ piece ∈ pieces, 0 ∉ piece) :
    Gives (OutOfMemory A pieces.flatten.length) (do
        let sb ← sbInit A
        let sb ← sbPutsAll A pieces sb
        sbFinish sb) fun str => str.bytes = pieces.flatten := by
  refine sbInit_gives.bind fun sb h => ?_
  refine (sbPutsAll_gives h hlen (Nat.zero_add _).le).bind fun sb' h' => ?_
  rw [List.nil_append] at h'
  have hflat : 0 ∉ pieces.flatten := by
    rw [List.mem_flatten]
    rintro ⟨piece, hpiece, hzero⟩
    exact hnul piece hpiece hzero
  obtain ⟨str, he, hstr⟩ := sbFinish_eq h' hflat
  rw [he]
  exact gives_lift (r := .ok str) hstr

/-- The first string fills the buffer, and it grows for the second; nothing is refused. -/
theorem sb_finish_two_pieces : Gives (fun _ => False) (do
    let sb ← sbInit (generous true 0)
    let sb ← sbPutsAll (generous true 0) [ascii "[\"access_token\"", ascii ",\"client_id\"]"] sb
    sbFinish sb) fun str => str.bytes = ascii "[\"access_token\",\"client_id\"]" := by
  refine Gives.allow (sb_finish_pieces (generous true 0) ?_ ?_) fun _ =>
    not_outOfMemory (fun _ => rfl) (by decide)
  · decide
  · decide

end AzureMetadata.Analysis
