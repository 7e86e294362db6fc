import AzureMetadata.Analysis.Base64Blocks
import AzureMetadata.Analysis.Base64Sizes

/-!
# The lines of an encoding

`base64_encode` counts the characters of the line it is on, in the loop over the groups of
three bytes and after it.  `encodeText_lines` follows the recursion with the characters of
that line in hand: what is written after them is the rest of the line and the other lines,
each with its line feed.
-/

set_option autoImplicit false

namespace AzureMetadata.Analysis

open Clib AzureMetadata.Model

/-! ## Lines -/

section Lines

variable {α : Type} {width : ℕ} {line text : List α} {lines : List (List α)}

/-- The text cut into lines: all but the last have the full width, and none is empty. -/
structure Lines (width : ℕ) (text : List α) (lines : List (List α)) : Prop where
  joined : lines.flatten = text
  full : ∀ line ∈ lines.dropLast, line.length = width
  last : ∀ line ∈ lines.getLast?, 1 ≤ line.length ∧ line.length ≤ width

/-- The empty text has no lines. -/
theorem lines_nil (width : ℕ) : Lines width ([] : List α) [] := by
  constructor <;> simp

/-- A text that is not too long is one line. -/
theorem lines_singleton (hpos : 1 ≤ line.length) (hle : line.length ≤ width) :
    Lines width line [line] := by
  constructor <;> simp [hpos, hle]

/-- A full line may stand before other lines. -/
theorem lines_cons (hwidth : 1 ≤ width) (hfull : line.length = width)
    (h : Lines width text lines) : Lines width (line ++ text) (line :: lines) := by
  cases lines with
  | nil =>
      have hnil := h.joined
      rw [List.flatten_nil] at hnil
      rw [← hnil, List.append_nil]
      exact lines_singleton (by omega) (by omega)
  | cons next lines =>
      constructor
      · rw [List.flatten_cons, h.joined]
      · intro l hl
        rw [List.dropLast_cons_cons, List.mem_cons] at hl
        cases hl with
        | inl hfirst => rw [hfirst, hfull]
        | inr hrest => exact h.full l hrest
      · rw [List.getLast?_cons_cons]
        exact h.last

end Lines

/-! ## The text -/

/-- The base64 form of a byte string, filled up with `=` to a number of characters that
four divides. -/
def formText (b : List UInt8) : List UInt8 :=
  (sextets b).map base64Char ++ List.replicate ((3 - b.length % 3) % 3) equalsSign

/-- The four characters of a group of three bytes. -/
def groupText (a b c : UInt8) : List UInt8 :=
  [base64Char (sextet0 a), base64Char (sextet1 a b), base64Char (sextet2 b c),
    base64Char (sextet3 c)]

/-- The text of three bytes and more starts with their group. -/
theorem formText_group (a b c : UInt8) (src : List UInt8) :
    formText (a :: b :: c :: src) = groupText a b c ++ formText src := by
  have hpads : (src.length + 1 + 1 + 1) % 3 = src.length % 3 := by omega
  simp [formText, groupText, sextets, hpads]

/-- The bytes written for a line that is not empty. -/
theorem lineEnd_pos {line_len : ℕ} (hpos : 0 < line_len) : lineEnd line_len = [lineFeed] := by
  rw [lineEnd, if_pos (by omega)]

/-- What is written after the characters of the line so far. -/
theorem encodeText_lines (src line : List UInt8) (hline : line.length < 72)
    (hfour : 4 ∣ line.length) :
    ∃ lines, Lines 72 (line ++ formText src) lines ∧
      line ++ encodeText src line.length = lines.flatMap fun l => l ++ [lineFeed] := by
  induction src using sextets.induct generalizing line with
  | case1 =>
      cases line with
      | nil => exact ⟨[], lines_nil 72, rfl⟩
      | cons c line =>
          refine ⟨[c :: line], ?_, ?_⟩
          · have hall : (c :: line) ++ formText [] = c :: line := by simp [formText, sextets]
            rw [hall]
            exact lines_singleton (by simp) (by omega)
          · rw [encodeText, lineEnd_pos (by simp)]
            simp
  | case2 a =>
      refine ⟨[line ++ formText [a]], ?_, ?_⟩
      · apply lines_singleton
        · simp [formText, sextets]
        · simp [formText, sextets]
          omega
      · rw [encodeText, encode_char0, encode_tail1, lineEnd_pos (by omega)]
        simp [formText, sextets]
  | case3 a b =>
      refine ⟨[line ++ formText [a, b]], ?_, ?_⟩
      · apply lines_singleton
        · simp [formText, sextets]
        · simp [formText, sextets]
          omega
      · rw [encodeText, encode_char0, encode_char1, encode_tail2, lineEnd_pos (by omega)]
        simp [formText, sextets]
  | case4 a b c src ih =>
      have hgroup : (line ++ groupText a b c).length = line.length + 4 := by simp [groupText]
      rw [encodeText, encode_char0, encode_char1, encode_char2, encode_char3, formText_group,
        ← List.append_assoc, ← groupText, ← List.append_assoc]
      split
      · -- The line is full.
        obtain ⟨lines, hlines, htext⟩ := ih [] (by simp) (by simp)
        refine ⟨(line ++ groupText a b c) :: lines, ?_, ?_⟩
        · exact lines_cons (by omega) (by omega) hlines
        · rw [List.flatMap_cons, ← htext]
          simp
      · obtain ⟨lines, hlines, htext⟩ := ih (line ++ groupText a b c) (by omega) (by omega)
        rw [hgroup] at htext
        exact ⟨lines, hlines, htext⟩

/-- **The encoder's output.**  Past the two checks on the size it is the base64 form cut into
lines of 72 characters, a line feed after each, and a NUL; the length reported is that of
the form and one for each started line. -/
theorem base64Encode_lines (src : List UInt8) {cap : ℕ} (hroom : base64Reqbufsz src.length ≤ cap)
    (hsize : src.length ≤ base64Reqbufsz src.length) :
    ∃ lines, Lines 72 (formText src) lines ∧
      base64Encode src true cap =
        ⟨true, (lines.flatMap fun l => l ++ [lineFeed]) ++ [0],
          encodedChars src.length + (encodedChars src.length + 71) / 72⟩ := by
  obtain ⟨lines, hlines, htext⟩ := encodeText_lines src [] (by simp) (by simp)
  have hlen : (encodeText src 0).length = _ := length_encodeText src (by omega) (Nat.dvd_zero 4)
  rw [List.nil_append] at hlines htext
  rw [List.length_nil] at htext
  refine ⟨lines, hlines, ?_⟩
  rw [base64Encode_granted hroom hsize, hlen, htext, Nat.zero_add]

/-- Fifty-five bytes take one whole line and four characters of a second. -/
theorem base64Encode_lines_full :
    ∃ first last, first.length = 72 ∧ last.length = 4 ∧
      first ++ last = formText (List.replicate 55 97) ∧
      base64Encode (List.replicate 55 97) true 85 =
        ⟨true, first ++ [lineFeed] ++ (last ++ [lineFeed]) ++ [0], 78⟩ := by
  have hlen : (formText (List.replicate 55 97)).length = 76 := by decide +kernel
  have hroom : base64Reqbufsz (List.replicate 55 (97 : UInt8)).length ≤ 85 := by decide
  obtain ⟨lines, hlines, he⟩ := base64Encode_lines (List.replicate 55 97) hroom (by decide)
  rw [← hlines.joined, List.length_flatten] at hlen
  obtain _ | ⟨first, _ | ⟨last, _ | ⟨third, rest⟩⟩⟩ := lines
  · cases hlen
  · have hle := (hlines.last first rfl).2
    simp at hlen
    omega
  · have hfull := hlines.full first (by simp)
    simp at hlen
    have hfeeds : ([first, last].flatMap fun l => l ++ [lineFeed]) =
        first ++ [lineFeed] ++ (last ++ [lineFeed]) := by simp
    rw [hfeeds] at he
    exact ⟨first, last, hfull, by omega, by simpa using hlines.joined, he⟩
  · have hfull := hlines.full first (by simp)
    have hfull' := hlines.full last (by simp)
    simp at hlen
    omega

end AzureMetadata.Analysis
