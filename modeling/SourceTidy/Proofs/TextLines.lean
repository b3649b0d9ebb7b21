import SourceTidy.Proofs.Whitespace

/-! # The text on the lines of a file

White space at the end of a line, and empty lines at the end of a file, carry no text. `textLines`
is what is left without them. It is read off the lines as they stand in the file, so what a rule
does to it can be compared with what the rule was meant to do.

* `textLines_tidyWhitespace`: the rule on white space keeps the text on each line;
* `trimmedLines_normalizeLines`: a text with one kind of line break has the same text on its lines
  with the other kind.
-/

namespace SourceTidy

open Ascii Bytes

/-- What does not count at the end of a line: blanks, and the carriage return of a line break. -/
def isLineTail (b : UInt8) : Bool := isBlank b || b == cr

/-- The line without the white space at its end. -/
def trimLine (line : Bytes) : Bytes := line.rdropWhile isLineTail

/-- The lines of a text, each without the white space at its end. -/
def trimmedLines (s : Bytes) : List Bytes := (lines s).map trimLine

/-- The same without the empty lines at the end. -/
def textLines (s : Bytes) : List Bytes := (trimmedLines s).rdropWhile List.isEmpty

/-! ## One more octet in front -/

/-- A trimmed line with one more octet in front, trimmed again. -/
def pushTrimmed (b : UInt8) (line : Bytes) : Bytes :=
  if line = [] ∧ isLineTail b = true then [] else b :: line

/-- An octet in front matters only if something is left of the line, or it is text itself. -/
theorem trimLine_cons (b : UInt8) (line : Bytes) :
    trimLine (b :: line) = pushTrimmed b (trimLine line) := by
  induction line using List.reverseRecOn with
  | nil => simp [trimLine, pushTrimmed, List.rdropWhile_singleton]
  | append_singleton line c ih =>
    by_cases hc : isLineTail c = true
    · have hfront := List.rdropWhile_concat_pos isLineTail (b :: line) c hc
      have hline := List.rdropWhile_concat_pos isLineTail line c hc
      rw [trimLine, ← List.cons_append, hfront]
      rw [trimLine, hline]
      exact ih
    · have hfront := List.rdropWhile_concat_neg isLineTail (b :: line) c hc
      have hline := List.rdropWhile_concat_neg isLineTail line c hc
      rw [trimLine, ← List.cons_append, hfront, trimLine, hline, pushTrimmed, if_neg (by simp)]
      rfl

theorem lines_ne_nil (s : Bytes) : lines s ≠ [] := by
  fun_cases lines s <;> simp_all

theorem lines_lf (s : Bytes) : lines (lf :: s) = [] :: lines s := if_pos rfl

theorem lines_octet {b : UInt8} (hb : b ≠ lf) (s : Bytes) :
    lines (b :: s) = (lines s).modifyHead (b :: ·) := by
  rw [lines, if_neg hb]
  cases h : lines s with
  | nil => exact absurd h (lines_ne_nil s)
  | cons line more => rfl

theorem trimmedLines_ne_nil (s : Bytes) : trimmedLines s ≠ [] := by
  simp [trimmedLines, lines_ne_nil]

theorem trimmedLines_lf (s : Bytes) : trimmedLines (lf :: s) = [] :: trimmedLines s := by
  simp [trimmedLines, lines, trimLine]

theorem trimmedLines_cons {b : UInt8} (s : Bytes) (hb : b ≠ lf) :
    trimmedLines (b :: s) = (trimmedLines s).modifyHead (pushTrimmed b) := by
  rw [trimmedLines, lines_octet hb, trimmedLines]
  cases h : lines s with
  | nil => exact absurd h (lines_ne_nil s)
  | cons line more => simp [trimLine_cons]

/-- A line break starts a new line, of whichever kind it is. -/
theorem trimmedLines_lineBreak (eol : LineEnding) (s : Bytes) :
    trimmedLines (eol.bytes ++ s) = [] :: trimmedLines s := by
  cases eol with
  | lf => exact trimmedLines_lf s
  | crlf =>
    have htail : isLineTail cr = true := by decide
    rw [LineEnding.bytes, List.cons_append, trimmedLines_cons _ lf_ne_cr.symm,
      List.singleton_append, trimmedLines_lf]
    simp [pushTrimmed, htail]

/-! ## White space at the end -/

/-- A line feed at the end makes one more line, which is empty. -/
theorem trimmedLines_concat_lf (s : Bytes) : trimmedLines (s ++ [lf]) = trimmedLines s ++ [[]] := by
  induction s with
  | nil => rw [List.nil_append, trimmedLines_lf]; rfl
  | cons b s ih =>
    by_cases hb : b = lf
    · rw [hb, List.cons_append, trimmedLines_lf, trimmedLines_lf, ih, List.cons_append]
    · rw [List.cons_append, trimmedLines_cons _ hb, trimmedLines_cons _ hb, ih]
      cases h : trimmedLines s with
      | nil => exact absurd h (trimmedLines_ne_nil s)
      | cons line more => rfl

/-- White space at the end of the last line is trimmed away. -/
theorem trimmedLines_concat_tail (s : Bytes) {b : UInt8} (hb : isLineTail b = true) (hlf : b ≠ lf) :
    trimmedLines (s ++ [b]) = trimmedLines s := by
  induction s with
  | nil =>
    rw [List.nil_append, trimmedLines_cons _ hlf]
    simp [trimmedLines, lines, trimLine, pushTrimmed, hb]
  | cons c s ih =>
    by_cases hc : c = lf
    · rw [hc, List.cons_append, trimmedLines_lf, trimmedLines_lf, ih]
    · rw [List.cons_append, trimmedLines_cons _ hc, trimmedLines_cons _ hc, ih]

/-- Spacing at the end of a text adds no text to it. -/
theorem textLines_append_spacing (s : Bytes) {spacing : Bytes}
    (h : ∀ b ∈ spacing, isSpacing b = true) : textLines (s ++ spacing) = textLines s := by
  induction spacing generalizing s with
  | nil => rw [List.append_nil]
  | cons b spacing ih =>
    have hrest : ∀ c ∈ spacing, isSpacing c = true := by
      intro c hc
      exact h c (List.mem_cons_of_mem b hc)
    have hb : textLines (s ++ [b]) = textLines s := by
      by_cases hlf : b = lf
      · rw [textLines, hlf, trimmedLines_concat_lf, List.rdropWhile_concat_pos _ _ _ rfl]
        rfl
      · have htail : isLineTail b = true := by
          have hspacing := h b List.mem_cons_self
          simpa [isSpacing, isLineTail, hlf] using hspacing
        rw [textLines, trimmedLines_concat_tail s htail hlf]
        rfl
    rw [List.append_cons, ih (s ++ [b]) hrest, hb]

/-! ## What the rules keep -/

/-- Stripping changes no trimmed line. The machine is right about where lines end: where it says
so, the next line has no text before its end. -/
theorem trimmedLines_stripped (s : Bytes) :
    trimmedLines (stripLines s) = trimmedLines s ∧
      ((stripped s).endsLine = true → (trimmedLines s).head? = some []) ∧
      ((stripped s).startsWithFeed = true → s.head? = some lf) := by
  induction s with
  | nil => simp [stripped]
  | cons b s ih =>
    obtain ⟨hlines, hends, hfeed⟩ := ih
    cases hb : isBlank b with
    | true =>
      have hlf : b ≠ lf := by
        rintro rfl
        exact absurd hb (by decide)
      have htail : isLineTail b = true := by simp [isLineTail, hb]
      rw [stripLines_eq, stripped_blank s hb]
      cases hline : (stripped s).endsLine with
      | false =>
        simp only [Bool.false_eq_true, if_false]
        rw [trimmedLines_cons _ hlf, trimmedLines_cons _ hlf, hlines]
        simp
      | true =>
        -- the blank is left out, and would have been trimmed
        have hpush : trimmedLines (b :: s) = trimmedLines s := by
          rw [trimmedLines_cons _ hlf]
          cases h : trimmedLines s with
          | nil => rfl
          | cons line more =>
            have hline : line = [] := by simpa [h] using hends hline
            simp [hline, pushTrimmed, htail]
        simp only [if_true]
        rw [hlines, hpush]
        exact ⟨rfl, fun _ => hends hline, by simp⟩
    | false =>
      rw [stripLines_eq (b :: s), stripped_not_blank s hb]
      refine ⟨?_, ?_, by simp⟩
      · by_cases hlf : b = lf
        · rw [hlf, trimmedLines_lf, trimmedLines_lf, hlines]
        · rw [trimmedLines_cons _ hlf, trimmedLines_cons _ hlf, hlines]
      · intro hline
        simp only [Bool.or_eq_true, beq_iff_eq, Bool.and_eq_true] at hline
        rcases hline with rfl | ⟨rfl, hline⟩
        · rw [trimmedLines_lf]; rfl
        · obtain ⟨rest, rfl⟩ : ∃ rest, s = lf :: rest := List.head?_eq_some_iff.mp (hfeed hline)
          have hbreak := trimmedLines_lineBreak .crlf rest
          rw [LineEnding.bytes, List.cons_append, List.singleton_append] at hbreak
          rw [hbreak]; rfl

/-- The rule on white space keeps the text on the lines of a file that has no control characters. -/
theorem textLines_tidyWhitespace (native : LineEnding) {s : Bytes}
    (hs : ∀ b ∈ s, b ≠ nul ∧ b ≠ vt) : textLines (tidyWhitespace native s) = textLines s := by
  obtain ⟨padding, hstrip, hpadding⟩ := exists_trimEnd_append (stripLines s)
  -- the padding comes from `s`, so it is spacing
  have hspacing : ∀ b ∈ padding, isSpacing b = true := by
    intro b hb
    have hmem : b ∈ stripLines s := by
      rw [← hstrip]
      exact List.mem_append_right _ hb
    obtain ⟨hnul, hvt⟩ := hs b ((stripLines_sublist s).mem hmem)
    simpa [isPadding, hnul, hvt] using hpadding b hb
  have htrim : textLines (trimEnd (stripLines s)) = textLines s := by
    rw [← textLines_append_spacing _ hspacing, hstrip, textLines, (trimmedLines_stripped s).1]
    rfl
  rw [← htrim]
  simp only [tidyWhitespace]
  split
  · next hempty => rw [List.isEmpty_iff.mp hempty]
  · exact textLines_append_spacing _ fun _ hb => isSpacing_of_isBreak (isBreak_of_mem_bytes hb)

/-- With line feeds for its line breaks, a text has the same text on its lines. -/
theorem trimmedLines_normalizeLines {eol : LineEnding} {s : Bytes} (h : Uniform eol s) :
    trimmedLines (normalizeLines LineEnding.lf.bytes s) = trimmedLines s := by
  induction h with
  | nil => rfl
  | octet hcr hlf _ ih =>
    rw [normalizeLines_octet _ _ hcr hlf, trimmedLines_cons _ hlf, trimmedLines_cons _ hlf, ih]
  | lineBreak _ ih =>
    rw [normalizeLines_lineBreak, trimmedLines_lineBreak, trimmedLines_lineBreak, ih]

end SourceTidy
