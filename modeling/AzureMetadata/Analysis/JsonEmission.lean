import AzureMetadata.Analysis.JsonBuffer
import AzureMetadata.Interface.JsonValues

/-!
# What is appended to a buffer

`Emits A n strs fill Text`: whatever the buffer holds, `fill` appends a text of at most `n`
bytes as `Text` says of the strings `strs`.  The two ways in which a string can be no text
for JSON are kept apart: one that is not Unicode fails an assertion, and one with U+001F
leaves that in the text.  Calls that follow each other emit their texts one behind the other.
-/

set_option autoImplicit false

namespace AzureMetadata.Analysis

open Clib AzureMetadata.Model AzureMetadata.Interface

variable {A : Allocator UInt8} {n n' : ℕ} {w w' : List UInt8} {strs strs' : List CString}
  {Text Text' : List UInt8 → Prop} {fill fill' : SB → Requests SB}

/-- How writing the strings in a text of at most `n` bytes ends the program. -/
def EmitStops (A : Allocator UInt8) (n : ℕ) (strs : List CString) (e : Stop) : Prop :=
  OutOfMemory A n e ∨ e = .assertion ∧ ∃ s ∈ strs, ¬ IsText s

/-- `w` was written for the strings. -/
structure Written (strs : List CString) (Text : List UInt8 → Prop) (w : List UInt8) : Prop where
  text : (∀ s ∈ strs, NoSeparator s) → Text w
  separator : (∃ s ∈ strs, ¬ NoSeparator s) → 0x1F ∈ w
  noNul : 0 ∉ w

/-- `fill` appends a text of at most `n` bytes for the strings, and its assertions hold if
these are Unicode. -/
def Emits (A : Allocator UInt8) (n : ℕ) (strs : List CString) (fill : SB → Requests SB)
    (Text : List UInt8 → Prop) : Prop :=
  ∀ sb text m, Buffered sb text → text.length + n ≤ m →
    Gives (EmitStops A m strs) (fill sb) fun sb' =>
      (∀ s ∈ strs, IsText s) ∧ ∃ w, w.length ≤ n ∧ Buffered sb' (text ++ w) ∧ Written strs Text w

/-- Running out of memory is one of the ways. -/
theorem exit_stops {e : Stop} (he : OutOfMemory A n e) : EmitStops A n strs e := .inl he

/-- More strings allow for more. -/
theorem EmitStops.mono {e : Stop} (h : EmitStops A n strs e) (hsub : ∀ s ∈ strs, s ∈ strs') :
    EmitStops A n strs' e :=
  h.imp_right fun ⟨ha, s, hs, hno⟩ => ⟨ha, s, hsub s hs, hno⟩

/-- A text without strings. -/
theorem written_plain (h0 : 0 ∉ w) (h : Text w) : Written [] Text w :=
  ⟨fun _ => h, fun ⟨_, hs, _⟩ => absurd hs List.not_mem_nil, h0⟩

/-- A text as `Text` says with one as `Text'` says behind it. -/
def Then (Text Text' : List UInt8 → Prop) (w : List UInt8) : Prop :=
  ∃ u u', w = u ++ u' ∧ Text u ∧ Text' u'

/-- Two texts that were written one behind the other. -/
theorem Written.append (h : Written strs Text w) (h' : Written strs' Text' w') :
    Written (strs ++ strs') (Then Text Text') (w ++ w') := by
  refine ⟨fun hno => ?_, ?_, ?_⟩
  · exact ⟨w, w', rfl, h.text fun s hs => hno s (List.mem_append_left _ hs),
      h'.text fun s hs => hno s (List.mem_append_right _ hs)⟩
  · rintro ⟨s, hs, hsep⟩
    rcases List.mem_append.mp hs with hs | hs
    · exact List.mem_append_left _ (h.separator ⟨s, hs, hsep⟩)
    · exact List.mem_append_right _ (h'.separator ⟨s, hs, hsep⟩)
  · rw [List.mem_append, not_or]
    exact ⟨h.noNul, h'.noNul⟩

/-- A weaker description of the text, and a larger bound. -/
theorem Emits.mono (h : Emits A n strs fill Text) (hn : n ≤ n') (hT : ∀ w, Text w → Text' w) :
    Emits A n' strs fill Text' := by
  intro sb text m hb hm
  refine (h sb text m hb (by omega)).mono ?_
  rintro sb' ⟨htext, w, hlen, hb', hw⟩
  exact ⟨htext, w, hlen.trans hn, hb', ⟨fun hno => hT w (hw.text hno), hw.separator, hw.noNul⟩⟩

/-- **The rule of sequencing.** -/
theorem Emits.seq (h : Emits A n strs fill Text) (h' : Emits A n' strs' fill' Text') :
    Emits A (n + n') (strs ++ strs') (fun out => fill out >>= fill') (Then Text Text') := by
  intro sb text m hb hm
  refine ((h sb text m hb (by omega)).allow fun e he =>
    he.mono fun s hs => List.mem_append_left _ hs).bind ?_
  rintro sb₁ ⟨htext, w, hlen, hb₁, hw⟩
  have hm' : (text ++ w).length + n' ≤ m := by
    rw [List.length_append]
    omega
  refine ((h' sb₁ _ m hb₁ hm').allow fun e he =>
    he.mono fun s hs => List.mem_append_right _ hs).mono ?_
  rintro sb₂ ⟨htext', w', hlen', hb₂, hw'⟩
  have hlen₂ : (w ++ w').length ≤ n + n' := by
    rw [List.length_append]
    exact Nat.add_le_add hlen hlen'
  rw [List.append_assoc] at hb₂
  exact ⟨List.forall_mem_append.mpr ⟨htext, htext'⟩, w ++ w', hlen₂, hb₂, hw.append hw'⟩

/-- Behind a text without strings. -/
theorem Emits.before (h : Emits A n [] fill Text) (h' : Emits A n' strs fill' Text') :
    Emits A (n + n') strs (fun out => fill out >>= fill') (Then Text Text') := h.seq h'

/-- In front of a text without strings. -/
theorem Emits.after (h : Emits A n strs fill Text) (h' : Emits A n' [] fill' Text') :
    Emits A (n + n') strs (fun out => fill out >>= fill') (Then Text Text') := by
  have hseq := h.seq h'
  rwa [List.append_nil] at hseq

/-- Nothing is appended. -/
theorem emits_pure (h : Text []) : Emits A 0 [] pure Text := by
  intro sb text m hb _
  refine gives_pure ⟨fun _ hs => absurd hs List.not_mem_nil, [], le_rfl, ?_,
    written_plain (by simp) h⟩
  rwa [List.append_nil]

/-- One character. -/
theorem emits_putc {c : UInt8} (hc : c ≠ 0) :
    Emits A 1 [] (fun out => sbPutc A out c) fun w => w = [c] := by
  intro sb text m hb hm
  refine ((sbPutc_gives hb (by omega)).allow fun _ he => exit_stops he).mono fun sb' hb' => ?_
  exact ⟨fun _ hs => absurd hs List.not_mem_nil, [c], le_rfl, hb',
    written_plain (by simp [hc.symm]) rfl⟩

/-- A string of the program. -/
theorem emits_puts (bytes : List UInt8) (hlen : bytes.length < 2 ^ 31) (h0 : 0 ∉ bytes) :
    Emits A bytes.length [] (fun out => sbPuts A out bytes) fun w => w = bytes := by
  intro sb text m hb hm
  refine ((sbPuts_gives hb hlen (by omega)).allow fun _ he => exit_stops he).mono
    fun sb' hb' => ?_
  exact ⟨fun _ hs => absurd hs List.not_mem_nil, bytes, le_rfl, hb', written_plain h0 rfl⟩

end AzureMetadata.Analysis
