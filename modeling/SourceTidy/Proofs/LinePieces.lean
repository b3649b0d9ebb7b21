import SourceTidy.Proofs.LineBreaks

/-! # Texts cut at their line breaks

A text is made of pieces without line breaks and of the line breaks between them. Read from left to
right, a carriage return belongs to the line feed after it, if there is one. Normalization keeps the
pieces and replaces the line breaks.

* `Split`: a text, its pieces and its line breaks;
* `exists_split`, `Split.unique`, `Split.text_eq`: a text has one reading, and a reading has one
  text;
* `Split.normalizeLines`: what normalization does to a text;
* `lineEndings_rewrite_breaks`: what the rule does, and when.
-/

namespace SourceTidy

open Ascii Bytes

/-- The line breaks that are read. -/
inductive LineBreak where
  | lf
  | crlf
  | cr
deriving DecidableEq, Repr

def LineBreak.bytes : LineBreak → Bytes
  | .lf => [Ascii.lf]
  | .crlf => [Ascii.cr, Ascii.lf]
  | .cr => [Ascii.cr]

/-- The line break that is written. -/
def LineEnding.lineBreak : LineEnding → LineBreak
  | .lf => .lf
  | .crlf => .crlf

/-- Nothing in the text belongs to a line break. -/
def Unbroken (s : Bytes) : Prop := ∀ b ∈ s, isBreak b = false

/-- The text is made of the given pieces, with the given line breaks between them. -/
inductive Split : (text : Bytes) → (pieces : List Bytes) → (breaks : List LineBreak) → Prop where
  | last {piece : Bytes} (hpiece : Unbroken piece) : Split piece [piece] []
  /-- A carriage return that counts alone has no line feed after it. -/
  | cons {piece rest : Bytes} {br : LineBreak} {pieces : List Bytes} {breaks : List LineBreak}
      (hpiece : Unbroken piece) (hbr : br = .cr → nextIs Ascii.lf rest = false)
      (hrest : Split rest pieces breaks) :
      Split (piece ++ (br.bytes ++ rest)) (piece :: pieces) (br :: breaks)

section

variable {eol : LineEnding} {br br' : LineBreak} {piece piece' rest rest' s t : Bytes}
  {pieces pieces' : List Bytes}
  {breaks breaks' : List LineBreak}

theorem bytes_lineBreak (eol : LineEnding) : eol.lineBreak.bytes = eol.bytes := by cases eol <;> rfl

/-! ## One reading -/

/-- A line break starts with an octet of its own. -/
theorem LineBreak.bytes_eq_cons (br : LineBreak) :
    ∃ b more, br.bytes = b :: more ∧ isBreak b = true := by
  cases br with
  | lf => exact ⟨_, _, rfl, rfl⟩
  | crlf => exact ⟨_, _, rfl, rfl⟩
  | cr => exact ⟨_, _, rfl, rfl⟩

/-- A piece ends where the first line break starts. -/
theorem takeWhile_lineBreak (hpiece : Unbroken piece) (br : LineBreak) (rest : Bytes) :
    (piece ++ (br.bytes ++ rest)).takeWhile (fun b => !isBreak b) = piece := by
  obtain ⟨b, more, hbytes, hb⟩ := br.bytes_eq_cons
  have hall : ∀ c ∈ piece, (!isBreak c) = true := by
    intro c hc
    rw [hpiece c hc]
    rfl
  rw [List.takeWhile_append_of_pos hall, hbytes, List.cons_append,
    List.takeWhile_cons_of_neg (by simp [hb]), List.append_nil]

/-- A text with a line break in it is not one piece. -/
theorem not_unbroken_lineBreak (piece : Bytes) (br : LineBreak) (rest : Bytes) :
    ¬ Unbroken (piece ++ (br.bytes ++ rest)) := by
  intro hall
  obtain ⟨b, more, hbytes, hb⟩ := br.bytes_eq_cons
  have hnot := hall b (by simp [hbytes])
  rw [hb] at hnot
  cases hnot

/-- The line break at the start of a text can be told. -/
theorem lineBreak_eq (hbr : br = .cr → nextIs lf rest = false)
    (hbr' : br' = .cr → nextIs lf rest' = false) (h : br.bytes ++ rest = br'.bytes ++ rest') :
    br = br' ∧ rest = rest' := by
  have hne : cr ≠ lf := by decide
  cases br <;> cases br' <;> grind [LineBreak.bytes, nextIs]

theorem LineBreak.bytes_injective (h : br.bytes = br'.bytes) : br = br' := by
  have hends : br.bytes ++ [] = br'.bytes ++ [] := by rw [h]
  exact (lineBreak_eq (fun _ => rfl) (fun _ => rfl) hends).1

/-- A text has one reading. -/
theorem Split.unique (h : Split s pieces breaks) (h' : Split s pieces' breaks') :
    pieces = pieces' ∧ breaks = breaks' := by
  induction h generalizing pieces' breaks' with
  | @last piece hpiece =>
    generalize htext : piece = text at h'
    cases h' with
    | last =>
      subst htext
      exact ⟨rfl, rfl⟩
    | cons =>
      rw [htext] at hpiece
      exact absurd hpiece (not_unbroken_lineBreak _ _ _)
  | @cons piece rest br pieces breaks hpiece hbr hrest ih =>
    generalize htext : piece ++ (br.bytes ++ rest) = text at h'
    cases h' with
    | last hpiece' =>
      rw [← htext] at hpiece'
      exact absurd hpiece' (not_unbroken_lineBreak _ _ _)
    | @cons piece' rest' br' pieces' breaks' hpiece' hbr' hrest' =>
      -- the first piece ends where the first octet of a line break is, so both readings have the
      -- same one
      obtain rfl : piece = piece' := by
        rw [← takeWhile_lineBreak hpiece br rest, htext, takeWhile_lineBreak hpiece']
      obtain ⟨rfl, rfl⟩ := lineBreak_eq hbr hbr' (List.append_cancel_left htext)
      obtain ⟨rfl, rfl⟩ := ih hrest'
      exact ⟨rfl, rfl⟩

/-- A reading has one text. -/
theorem Split.text_eq (h : Split s pieces breaks) (h' : Split t pieces breaks) : s = t := by
  induction h generalizing t with
  | last =>
    cases h' with
    | last => rfl
  | cons hpiece hbr hrest ih =>
    cases h' with
    | cons _ _ hrest' => rw [ih hrest']

/-- A text without line breaks, or the first line break of the text. -/
theorem unbroken_or_lineBreak (s : Bytes) :
    Unbroken s ∨ ∃ piece br rest, s = piece ++ (br.bytes ++ rest) ∧ Unbroken piece ∧
      (br = LineBreak.cr → nextIs lf rest = false) := by
  induction s with
  | nil =>
    left
    rintro b ⟨⟩
  | cons b s ih =>
    by_cases hlf : b = lf
    · subst hlf
      exact .inr ⟨[], .lf, s, rfl, by rintro b ⟨⟩, by rintro ⟨⟩⟩
    · by_cases hcr : b = cr
      · subst hcr
        -- a carriage return is a line break by itself, or with the line feed after it
        cases hnext : nextIs lf s with
        | false => exact .inr ⟨[], .cr, s, rfl, by rintro b ⟨⟩, fun _ => hnext⟩
        | true =>
          cases s with
          | nil => cases hnext
          | cons c s =>
            obtain rfl : c = lf := by simpa [nextIs] using hnext
            exact .inr ⟨[], .crlf, s, rfl, by rintro b ⟨⟩, by rintro ⟨⟩⟩
      · have hb : isBreak b = false := by simp [isBreak, hlf, hcr]
        rcases ih with hs | ⟨piece, br, rest, rfl, hpiece, hbr⟩
        · exact .inl (List.forall_mem_cons.mpr ⟨hb, hs⟩)
        · exact .inr ⟨b :: piece, br, rest, rfl, List.forall_mem_cons.mpr ⟨hb, hpiece⟩, hbr⟩

/-- Every text has a reading. -/
theorem exists_split (s : Bytes) : ∃ pieces breaks, Split s pieces breaks := by
  -- a piece may have any number of octets, so the induction is on the length
  induction hlength : s.length using Nat.strong_induction_on generalizing s with
  | _ length ih =>
    subst hlength
    rcases unbroken_or_lineBreak s with hs | ⟨piece, br, rest, rfl, hpiece, hbr⟩
    · exact ⟨[s], [], .last hs⟩
    · have hshorter : rest.length < (piece ++ (br.bytes ++ rest)).length := by
        obtain ⟨b, more, hbytes, -⟩ := br.bytes_eq_cons
        rw [hbytes, List.length_append, List.length_append, List.length_cons]
        omega
      obtain ⟨pieces, breaks, hrest⟩ := ih rest.length hshorter rest rfl
      exact ⟨piece :: pieces, br :: breaks, .cons hpiece hbr hrest⟩

/-! ## Normalization -/

theorem normalizeLines_unbroken (e : Bytes) (hpiece : Unbroken piece) (rest : Bytes) :
    normalizeLines e (piece ++ rest) = piece ++ normalizeLines e rest := by
  induction piece with
  | nil => rfl
  | cons b piece ih =>
    obtain ⟨hb, hpiece⟩ := List.forall_mem_cons.mp hpiece
    obtain ⟨hcr, hlf⟩ : b ≠ cr ∧ b ≠ lf := by simpa [isBreak] using hb
    rw [List.cons_append, normalizeLines_octet e _ hcr hlf, ih hpiece, List.cons_append]

theorem normalizeLines_break (e : Bytes) (hbr : br = .cr → nextIs lf rest = false) :
    normalizeLines e (br.bytes ++ rest) = e ++ normalizeLines e rest := by
  cases br with
  | lf => exact normalizeLines_lineBreak e .lf rest
  | crlf => exact normalizeLines_lineBreak e .crlf rest
  | cr =>
    show normalizeLines e (cr :: rest) = _
    rw [normalizeLines, if_pos rfl, hbr rfl, if_neg Bool.false_ne_true]

/-- Normalization keeps the pieces and replaces the line breaks. -/
theorem Split.normalizeLines (h : Split s pieces breaks) (eol : LineEnding) :
    Split (normalizeLines eol.bytes s) pieces (breaks.map fun _ => eol.lineBreak) := by
  induction h with
  | @last piece hpiece =>
    have hsame := normalizeLines_unbroken eol.bytes hpiece []
    rw [List.append_nil, normalizeLines_nil, List.append_nil] at hsame
    rw [hsame]
    exact .last hpiece
  | cons hpiece hbr hrest ih =>
    rw [normalizeLines_unbroken eol.bytes hpiece, normalizeLines_break eol.bytes hbr,
      ← bytes_lineBreak]
    rw [← bytes_lineBreak] at ih
    refine .cons hpiece ?_ ih
    -- a carriage return alone is never written
    intro hcr
    cases eol <;> cases hcr

theorem Split.ne_nil (h : Split s pieces breaks) : pieces ≠ [] := by
  cases h <;> exact List.cons_ne_nil _ _

/-- With one kind of line break, the text is joined by it. -/
theorem Split.eq_intercalate (h : Split s pieces breaks)
    (hbreaks : ∀ br ∈ breaks, br.bytes = eol.bytes) :
    s = eol.bytes.intercalate pieces := by
  induction h with
  | last => simp [List.intercalate]
  | @cons piece rest br pieces breaks hpiece hbr hrest ih =>
    obtain ⟨hfirst, hbreaks⟩ := List.forall_mem_cons.mp hbreaks
    obtain ⟨next, more, rfl⟩ := List.exists_cons_of_ne_nil hrest.ne_nil
    rw [ih hbreaks, hfirst]
    simp [List.intercalate]

/-- The texts that normalization leaves are those that have no other line break. -/
theorem Split.normalizeLines_eq_iff (h : Split s pieces breaks) :
    SourceTidy.normalizeLines eol.bytes s = s ↔ ∀ br ∈ breaks, br.bytes = eol.bytes := by
  have hnormal := h.normalizeLines eol
  constructor
  · intro hsame
    rw [hsame] at hnormal
    -- a text that is left as it is has both readings, and they are the same
    obtain ⟨-, hbreaks⟩ := h.unique hnormal
    intro br hbr
    rw [hbreaks] at hbr
    obtain ⟨br', -, rfl⟩ := List.mem_map.mp hbr
    exact bytes_lineBreak eol
  · intro hall
    have hsame : (breaks.map fun _ => eol.lineBreak) = breaks := by
      refine (List.map_congr_left fun br hbr => ?_).trans (List.map_id breaks)
      exact LineBreak.bytes_injective ((bytes_lineBreak eol).trans (hall br hbr).symm)
    rw [hsame] at hnormal
    exact hnormal.text_eq h

end

/-- A text has one reading as pieces and line breaks. Normalization joins the pieces by one line
break, whichever line breaks were there before, and the rule tells of it if one of them is another
one. -/
theorem lineEndings_rewrite_breaks (eol : LineEnding) (c : Bytes) :
    ∃ pieces breaks, Split c pieces breaks ∧
      (∀ pieces' breaks', Split c pieces' breaks' → pieces' = pieces ∧ breaks' = breaks) ∧
      normalizeLines eol.bytes c = eol.bytes.intercalate pieces ∧
      (∀ before : LineEnding,
        normalizeLines eol.bytes (normalizeLines before.bytes c) = normalizeLines eol.bytes c) ∧
      ∀ file : SourceFile, file.extension ≠ "sh" → (Rule.lineEndings eol).run file c =
        if ∃ br ∈ breaks, br.bytes ≠ eol.bytes then
          .fixed (eol.bytes.intercalate pieces) "contains non-system line-endings"
        else .none := by
  obtain ⟨pieces, breaks, hsplit⟩ := exists_split c
  have hjoined : normalizeLines eol.bytes c = eol.bytes.intercalate pieces := by
    refine (hsplit.normalizeLines eol).eq_intercalate ?_
    intro br hbr
    obtain ⟨br', -, rfl⟩ := List.mem_map.mp hbr
    exact bytes_lineBreak eol
  refine ⟨pieces, breaks, hsplit, ?_, hjoined, ?_, ?_⟩
  · intro pieces' breaks' hsplit'
    exact hsplit'.unique hsplit
  · intro before
    exact normalizeLines_normalizeLines eol.bytes before c
  · intro file hfile
    have hshell : file.hasExtension ["sh"] = false := by simpa [SourceFile.hasExtension] using hfile
    -- the rule compares the contents, and they differ exactly if some line break is another one
    by_cases hother : ∃ br ∈ breaks, br.bytes ≠ eol.bytes
    · have hchanged : normalizeLines eol.bytes c ≠ c := by
        intro hsame
        obtain ⟨br, hbr, hne⟩ := hother
        exact hne (hsplit.normalizeLines_eq_iff.mp hsame br hbr)
      rw [if_pos hother, ← hjoined]
      simp only [Rule.lineEndings, hshell, Bool.false_eq_true, if_false, if_neg hchanged]
    · have hsame : normalizeLines eol.bytes c = c := by
        refine hsplit.normalizeLines_eq_iff.mpr ?_
        intro br hbr
        by_contra hne
        exact hother ⟨br, hbr, hne⟩
      simp only [Rule.lineEndings, hshell, Bool.false_eq_true, if_false, if_pos hsame,
        if_neg hother]

/-- Line breaks of all kinds, next to each other and at the end. -/
def mixedBreaks : Bytes := ascii "a\r\r\n\n\rb\r"

theorem lineEndings_rewrite_breaks_mixedBreaks :
    (SourceFile.ofPath "a.php").extension ≠ "sh" ∧
      ∃ pieces breaks, Split mixedBreaks pieces breaks ∧
      LineEnding.crlf.bytes.intercalate pieces = ascii "a\r\n\r\n\r\n\r\nb\r\n" ∧
      (Rule.lineEndings .crlf).run (.ofPath "a.php") mixedBreaks =
        if ∃ br ∈ breaks, br.bytes ≠ LineEnding.crlf.bytes then
          .fixed (LineEnding.crlf.bytes.intercalate pieces) "contains non-system line-endings"
        else .none := by
  have hfile : (SourceFile.ofPath "a.php").extension ≠ "sh" := by decide +kernel
  have hnormal : normalizeLines LineEnding.crlf.bytes mixedBreaks =
      ascii "a\r\n\r\n\r\n\r\nb\r\n" := by
    decide +kernel
  obtain ⟨pieces, breaks, hsplit, -, hjoined, -, hrun⟩ :=
    lineEndings_rewrite_breaks .crlf mixedBreaks
  exact ⟨hfile, pieces, breaks, hsplit, hjoined.symm.trans hnormal, hrun _ hfile⟩

end SourceTidy
