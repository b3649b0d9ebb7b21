import SourceTidy.Proofs.CharacterEdges
import SourceTidy.Proofs.PhpEscapes
import SourceTidy.Proofs.PhpProgress

/-! # PHP tokens are whole characters

A backslash takes one octet along, which may be the first of a longer character, so the lexer can
stand inside of a character. It cuts there nowhere: a lexeme ends after an ASCII octet, before one,
or with the source. Names take every octet that is not ASCII.

* `edgeAt_of_quoteEnds`, `edgeAt_segment`, …: where each kind of lexeme ends;
* `CutsWhole`, `cutsWhole_step`: a step cuts between characters;
* `valid_of_mem_lex`: so every lexeme of a text is a text;
* `sliced_token`, `Reached.sliced`: and so is each part of a source that is looked at.
-/

namespace SourceTidy.Php

open Ascii Bytes Utf8

section

variable {s label : Bytes} {b quote : UInt8} {m n : Nat} {closer : Closer} {lineStart nested : Bool}

/-! ## Where lexemes end -/

/-- What cannot start a name is ASCII, as every octet of a longer character can. -/
theorem ascii_of_not_isIdentStart (h : isIdentStart b = false) : b < 0x80 := by
  simp only [isIdentStart, Bool.or_eq_false_iff, decide_eq_false_iff_not] at h
  exact UInt8.not_le.mp h.2

theorem ascii_of_not_isIdent (h : isIdent b = false) : b < 0x80 := by
  simp only [isIdent, Bool.or_eq_false_iff] at h
  exact ascii_of_not_isIdentStart h.1

theorem ascii_of_not_isName (h : isName b = false) : b < 0x80 := by
  simp only [isName, Bool.or_eq_false_iff] at h
  exact ascii_of_not_isIdent h.1.1

theorem ascii_of_isTagSpacing (h : isTagSpacing b = true) : b < 0x80 := by
  simp only [isTagSpacing, Bool.or_eq_true, beq_iff_eq] at h
  rcases h with h | rfl
  · exact ascii_of_isSpacing h
  · decide

/-- An octet of a longer character. -/
def isHigh (b : UInt8) : Bool := 0x80 ≤ b

theorem ascii_of_not_isHigh (h : isHigh b = false) : b < 0x80 := by
  simpa [isHigh] using h

/-- There is an edge where no octet of a longer character comes next. -/
theorem edgeAt_of_next (h : nextIn isHigh (s.drop n) = false) : EdgeAt s n :=
  edgeAt_of_nextIn_eq_false (fun _ => ascii_of_not_isHigh) h

/-- The white space after an open tag ends between characters. -/
theorem edgeAt_tagSpacing (s : Bytes) : EdgeAt s (tagSpacing s) := by
  rw [tagSpacing]
  split_ifs with hbreak hnext
  · exact edgeAt_of_front (List.isPrefixOf_iff_prefix.mp hbreak) rfl
  · obtain ⟨b, rest, rfl, hb⟩ := exists_of_nextIn hnext
    exact edgeAt_cons (ascii_of_isTagSpacing hb) rest
  · exact .start rfl

theorem edgeAt_of_isTagSpacing (h : nextIn isTagSpacing (s.drop n) = true) : EdgeAt s n := by
  obtain ⟨b, rest, hrest, hb⟩ := exists_of_nextIn h
  exact .before (by rw [hrest, List.head?_cons]) (ascii_of_isTagSpacing hb)

/-- An open tag, with the white space that it takes with it. -/
theorem edgeAt_openTag? (h : openTag? s = some n) : EdgeAt s n := by
  unfold openTag? at h
  split_ifs at h with hshort hlong hbare
  · cases h
    exact edgeAt_of_front (List.isPrefixOf_iff_prefix.mp hshort) rfl
  · cases h
    rw [Bool.and_eq_true, Bool.or_eq_true] at hlong
    refine EdgeAt.add ?_ (edgeAt_tagSpacing _)
    rcases hlong.2 with hend | hnext
    · exact .stop (by simpa using hend)
    · exact edgeAt_of_isTagSpacing hnext
  · cases h
    rw [Bool.and_eq_true] at hbare
    exact (edgeAt_of_isTagSpacing hbare.2).add (edgeAt_tagSpacing _)

theorem ascii_of_toLower (h : toLower b = less) : b < 0x80 := by
  rw [toLower] at h
  split at h
  · next hupper => exact ascii_of_isWord (by simp [isWord, isLetter, hupper])
  · rw [h]
    decide

/-- An open tag starts with an ASCII octet. -/
theorem nextIn_of_openTag? (h : openTag? s = some m) : nextIn isHigh s = false := by
  cases s with
  | nil => rfl
  | cons b s =>
    have hb : b < 0x80 := by
      unfold openTag? at h
      split_ifs at h with hshort hlong hbare
      · rw [List.isPrefixOf_iff_prefix] at hshort
        rw [← (List.cons_prefix_cons.mp hshort).1]
        decide
      · rw [Bool.and_eq_true, List.isPrefixOf_iff_prefix] at hlong
        exact ascii_of_toLower (List.cons_prefix_cons.mp hlong.1).1.symm
      · rw [Bool.and_eq_true, List.isPrefixOf_iff_prefix] at hbare
        rw [← (List.cons_prefix_cons.mp hbare.1).1]
        decide
    simpa [nextIn, isHigh] using hb

/-- A closing tag ends between characters, with the line break after it or without. -/
theorem edgeAt_closeTag (hs : [question, greater] <+: s) : EdgeAt s (closeTag s) := by
  refine EdgeAt.add (edgeAt_of_front hs rfl) ?_
  cases hbreak : lineBreakLength (s.drop 2) with
  | none => exact .start rfl
  | some n =>
    obtain ⟨eol, rest, hrest, rfl⟩ := lineBreakLength_eq_some_iff.mp hbreak
    rw [hrest]
    refine edgeAt_of_front (List.prefix_append _ _) ?_
    cases eol <;> rfl

/-- A comment ends before a line break or a closing tag, or with the source. -/
theorem nextIn_lineComment (nested : Bool) (s : Bytes) :
    nextIn isHigh (s.drop (lineComment nested s)) = false := by
  fun_induction lineComment nested s with
  | case1 => rfl
  | case2 b rest hstop =>
    have hb : b = lf ∨ b = cr ∨ b = question := by
      simp only [Bool.or_eq_true, Bool.and_eq_true, decide_eq_true_eq] at hstop
      rcases hstop with (hlf | hcr) | hquestion
      · exact Or.inl hlf
      · exact Or.inr (Or.inl hcr.1)
      · exact Or.inr (Or.inr hquestion.1.2)
    rcases hb with rfl | rfl | rfl <;> rfl
  | case3 b rest _ ih => exact ih

/-- A comment of several lines ends after its star and slash. -/
theorem edgeAt_untilCommentEnd (s : Bytes) : EdgeAt s (untilCommentEnd s) := by
  rcases untilCommentEnd_first s with ⟨front, hfront, -⟩ | ⟨-, hall⟩
  · have hlast : (s.take (untilCommentEnd s)).getLast? = some slash := by
      rw [hfront]
      simp [commentEnd]
    exact .after hlast (by decide)
  · exact .stop hall

/-- The first bare quote is an ASCII octet. -/
theorem edgeAt_of_quoteEnds (hquote : quote < 0x80) (h : QuoteEnds quote s n) : EdgeAt s n := by
  rcases h with ⟨before, hunits, -⟩ | ⟨-, hall⟩
  · refine .after ?_ hquote
    rw [← flatten_units (s.take n), hunits]
    simp
  · exact .stop hall

/-- A label is followed by no more of a name. -/
theorem edgeAt_closingLabel? (h : closingLabel? label s = some n) : EdgeAt s n := by
  unfold closingLabel? at h
  dsimp only at h
  split at h
  · next hcloses =>
    cases h
    rw [Bool.and_eq_true, Bool.not_eq_true', List.drop_drop] at hcloses
    exact edgeAt_of_nextIn_eq_false (fun _ => ascii_of_not_isIdent) hcloses.2
  · cases h

/-- The body of a raw here document ends at the start of a line. -/
theorem edgeAt_nowdocBody (label s : Bytes) : EdgeAt s (nowdocBody label true s).1 := by
  rcases nowdocBody_ends label true s with hall | ⟨-, hzero⟩ | hlast
  · exact .stop hall
  · exact .start hzero
  · exact .after hlast (by decide)

/-- A label takes whole characters, as it goes on over all octets that are not ASCII. -/
theorem edgeAt_nowdocLabel (label : Bytes) (lineStart : Bool) (s : Bytes) :
    EdgeAt (s.drop (nowdocBody label lineStart s).1) (nowdocBody label lineStart s).2 := by
  fun_induction nowdocBody label lineStart s with
  | case1 lineStart s n hclosed =>
    split at hclosed
    · exact edgeAt_closingLabel? hclosed
    · cases hclosed
  | case2 => exact .start rfl
  | case3 lineStart b rest body n hrest _ ih =>
    rw [hrest] at ih
    exact ih

/-- What closes a literal is ASCII, or a label. -/
theorem edgeAt_at? (hcloser : closer.Proper) (h : closer.at? lineStart s = some n) :
    EdgeAt s n := by
  cases closer with
  | quote q =>
    simp only [Closer.at?] at h
    split at h
    · next hnext =>
      cases h
      obtain ⟨rest, rfl⟩ := exists_of_nextIs hnext
      refine edgeAt_cons ?_ rest
      rcases hcloser with rfl | rfl <;> decide
    · cases h
  | label name =>
    simp only [Closer.at?] at h
    split at h
    · exact edgeAt_closingLabel? h
    · cases h

/-- Where a run of literal text ends: at the start of a line, which is looked at for a label, or
else before an ASCII octet or after one. The octet after a backslash may be any. -/
inductive TextStops (s : Bytes) (n : Nat) (lineStart : Bool) : Prop where
  | atOnce (hn : n = 0) (hline : lineStart = true)
  | before (h : nextIn isHigh (s.drop n) = false)
  | after {b : UInt8} (h : (s.take n).getLast? = some b) (hb : b < 0x80)

/-- One more octet in front. -/
theorem TextStops.cons (h : TextStops s n (decide (b = lf))) (lineStart : Bool) :
    TextStops (b :: s) (n + 1) lineStart := by
  cases h with
  | atOnce hn hline =>
    subst hn
    obtain rfl : b = lf := by simpa using hline
    exact .after rfl (by decide : lf < 0x80)
  | before h => exact .before h
  | after h hb =>
    refine .after ?_ hb
    rw [List.take_succ_cons, List.getLast?_cons, h]
    rfl

/-- A run of literal text stops in one of these ways. -/
theorem textStops_segment (hcloser : closer.Proper) (lineStart : Bool) (s : Bytes) :
    TextStops s (segment closer lineStart s).1 lineStart := by
  fun_induction segment closer lineStart s with
  | case1 => exact .before rfl
  | case2 lineStart b rest n hclosed =>
    cases closer with
    | quote q =>
      simp only [Closer.at?] at hclosed
      split at hclosed
      · next hnext =>
        obtain ⟨rest, hrest⟩ := exists_of_nextIs hnext
        refine .before ?_
        rw [hrest]
        rcases hcloser with rfl | rfl <;> rfl
      · cases hclosed
    | label name =>
      simp only [Closer.at?] at hclosed
      split at hclosed
      · next hline => exact .atOnce rfl hline
      · cases hclosed
  | case3 => exact .before rfl
  | case4 lineStart c rest n stop hrest _ ih =>
    rw [hrest] at ih
    -- the backslash is no line break, so that only the octet after it can start a line
    cases ih.cons true with
    | atOnce hn _ => cases hn
    | before h => exact .before h
    | after h hb =>
      refine .after ?_ hb
      rw [List.take_succ_cons, List.getLast?_cons, h]
      rfl
  | case5 lineStart b rest _ _ hstarts =>
    refine .before ?_
    rw [startsInterpolation_iff] at hstarts
    rcases hstarts with ⟨c, more, heq, -⟩ | ⟨more, heq⟩
    · obtain ⟨rfl, -⟩ := List.cons.inj heq
      rfl
    · obtain ⟨rfl, -⟩ := List.cons.inj heq
      rfl
  | case6 lineStart b rest _ _ _ n stop hrest ih =>
    rw [hrest] at ih
    exact ih.cons lineStart

/-- A run of literal text ends between characters, although a backslash may take half of one. -/
theorem edgeAt_segment (hcloser : closer.Proper) (lineStart : Bool) (s : Bytes) :
    EdgeAt s (segment closer lineStart s).1 := by
  cases textStops_segment hcloser lineStart s with
  | atOnce hn _ => exact .start hn
  | before h => exact edgeAt_of_next h
  | after h hb => exact .after h hb

/-- The index of a variable ends between characters. -/
theorem edgeAt_subscript (s : Bytes) : EdgeAt s (subscript s) := by
  rw [subscript]
  split
  · next hnext =>
    obtain ⟨rest, hrest⟩ := exists_of_nextIs hnext
    have hbracket : EdgeAt (closeBracket :: rest) 1 := edgeAt_cons (by decide) rest
    rw [← hrest] at hbracket
    exact EdgeAt.add (edgeAt_of_next (by rw [hrest]; rfl)) hbracket
  · exact .start rfl

/-- A name ends before an octet that is no part of one. -/
theorem edgeAt_add_runLength (s : Bytes) (n : Nat) :
    EdgeAt s (n + runLength isIdent (s.drop n)) := by
  refine edgeAt_of_nextIn_eq_false (fun _ => ascii_of_not_isIdent) ?_
  rw [← List.drop_drop, drop_runLength]
  exact nextIn_dropWhile _ _

/-- A variable ends between characters. -/
theorem edgeAt_simpleVariable (s : Bytes) : EdgeAt s (simpleVariable s) := by
  have hname := edgeAt_add_runLength s 1
  rw [simpleVariable]
  split
  · exact hname.add (edgeAt_subscript _)
  · split
    · rw [List.drop_drop]
      exact edgeAt_add_runLength s _
    · exact hname

/-- What opens a longer expression ends between characters. -/
theorem edgeAt_braceOpener? (h : braceOpener? s = some n) : EdgeAt s n := by
  unfold braceOpener? at h
  split_ifs at h with hbrace hdollar
  · cases h
    obtain ⟨rest, rfl⟩ := exists_of_nextIs hbrace
    exact edgeAt_cons (by decide) rest
  · cases h
    obtain ⟨rest, hrest⟩ := exists_of_nextIs hdollar
    have hlast : EdgeAt (openBrace :: rest) 1 := edgeAt_cons (by decide) rest
    rw [← hrest] at hlast
    exact EdgeAt.add (edgeAt_of_next (by rw [hrest]; rfl)) hlast

end

/-! ## Steps -/

/-- Each of the cuts, one after the other, is made between characters. -/
def CutsWhole : List Cut → Bytes → Prop
  | [], _ => True
  | c :: cuts, s => EdgeAt s c.extent ∧ CutsWhole cuts (s.drop c.extent)

theorem cutsWhole_single {s : Bytes} {kind : TokenKind} {n : Nat} (h : EdgeAt s n) :
    CutsWhole [⟨kind, n⟩] s :=
  ⟨h, trivial⟩

/-- Whole characters are cut into whole characters. -/
theorem CutsWhole.valid {cuts : List Cut} {s : Bytes} (h : CutsWhole cuts s)
    (hs : Utf8.valid s = true) :
    (∀ l ∈ cutUp cuts s, Utf8.valid l.text = true) ∧
      Utf8.valid (s.drop (cutExtent cuts)) = true := by
  induction cuts generalizing s with
  | nil => exact ⟨List.forall_mem_nil _, hs⟩
  | cons c cuts ih =>
    obtain ⟨hedge, hcuts⟩ := h
    obtain ⟨hfront, hback⟩ := hedge.valid hs
    obtain ⟨hlexemes, hrest⟩ := ih hcuts hback
    constructor
    · intro l hl
      rcases mem_cutUp_cons hl with rfl | hl
      · exact hfront
      · exact hlexemes l hl
    · rwa [List.drop_drop] at hrest

/-- The opener of a here document, and its text and label if it is a raw one. -/
theorem cutsWhole_heredoc {s : Bytes} (hs : ascii "<<<" <+: s) :
    CutsWhole (heredocLexemes s (heredocOpener? s)).1 s := by
  cases hopener : heredocOpener? s with
  | none =>
    obtain ⟨more, rfl⟩ := hs
    exact cutsWhole_single (edgeAt_cons (by decide) _)
  | some opener =>
    obtain ⟨quotes, text, rest, rfl, ⟨blanks, eol, htext, -⟩, hextent, -⟩ :=
      opens_of_heredocOpener? hs hopener
    have hlast : text.getLast? = some lf := by
      rw [htext]
      cases eol <;> simp [LineEnding.bytes]
    have hstart : EdgeAt (text ++ rest) opener.extent := by
      rw [← hextent]
      refine .after ?_ (by decide : lf < 0x80)
      rwa [List.take_left]
    rw [heredocLexemes]
    split
    · exact ⟨hstart, edgeAt_nowdocBody _ _, edgeAt_nowdocLabel _ _ _, trivial⟩
    · exact cutsWhole_single hstart

theorem starts_pair {a b : UInt8} {s : Bytes} (h : nextIs b s = true) : [a, b] <+: a :: s := by
  obtain ⟨rest, rfl⟩ := exists_of_nextIs h
  exact ⟨rest, rfl⟩

/-- What comes next in code is cut off between characters. -/
theorem CodeLexeme.cutsWhole {nested : Bool} {s : Bytes} {lexeme : List Cut × Effect}
    (h : CodeLexeme nested s lexeme) : CutsWhole lexeme.1 s := by
  have hone {b : UInt8} (hb : b < 0x80) (rest : Bytes) : CutsWhole [⟨.other, 1⟩] (b :: rest) :=
    cutsWhole_single (edgeAt_cons hb rest)
  -- all that is one octet is ASCII; a longer lexeme ends with an ASCII octet, before one or with
  -- the source
  cases h with
  | spacing => exact cutsWhole_single (edgeAt_runLength (fun _ => ascii_of_isSpacing) _)
  | closingTag hnext => exact cutsWhole_single (edgeAt_closeTag (starts_pair hnext))
  | attributes hnext => exact cutsWhole_single (edgeAt_of_front (starts_pair hnext) rfl)
  | lineComment => exact cutsWhole_single (edgeAt_of_next (nextIn_lineComment nested _))
  | blockComment hnext =>
    refine cutsWhole_single (EdgeAt.add (edgeAt_of_front (starts_pair hnext) rfl) ?_)
    exact edgeAt_untilCommentEnd _
  | @singleQuoted rest =>
    rw [Nat.add_comm]
    refine cutsWhole_single (EdgeAt.add (edgeAt_cons (by decide) rest) ?_)
    exact edgeAt_of_quoteEnds (by decide) (quoteEnds_untilQuote (by decide) _)
  | @doubleQuoted rest n hplain =>
    rw [Nat.add_comm]
    refine cutsWhole_single (EdgeAt.add (edgeAt_cons (by decide) rest) ?_)
    exact edgeAt_of_quoteEnds (by decide) (quoteEnds_plainUntilQuote? hplain).1
  | interpolating => exact hone (by decide) _
  | shell => exact hone (by decide) _
  | heredoc hopener => exact cutsWhole_heredoc hopener
  | openBrace => exact hone (by decide) _
  | closeBrace => exact hone (by decide) _
  | name =>
    refine cutsWhole_single (edgeAt_of_nextIn_eq_false (fun _ => ascii_of_not_isName) ?_)
    rw [Nat.add_comm, List.drop_succ_cons, drop_runLength]
    exact nextIn_dropWhile _ _
  | sign hname => exact hone (ascii_of_not_isName hname) _

/-- A step in interpolating text cuts between characters. -/
theorem cutsWhole_stepLiteral {s : State} {closer : Closer} {lineStart : Bool} {outer : List Frame}
    {input : Bytes} (hcloser : closer.Proper) :
    CutsWhole (s.stepLiteral closer lineStart outer input).cuts input := by
  have htext := edgeAt_segment hcloser lineStart input
  have hends := segment_spec closer lineStart input
  unfold State.stepLiteral
  generalize segment closer lineStart input = found at htext hends ⊢
  obtain ⟨n, stop⟩ := found
  cases stop with
  | input => exact cutsWhole_single htext
  | closed m =>
    obtain ⟨_, hat⟩ := hends
    exact ⟨htext, cutsWhole_single (edgeAt_at? hcloser hat)⟩
  | interpolation =>
    dsimp only
    split
    · exact ⟨htext, cutsWhole_single (edgeAt_simpleVariable _)⟩
    · next m hopener =>
      split
      · exact ⟨htext, cutsWhole_single (.stop (Nat.le_refl _))⟩
      · exact ⟨htext, cutsWhole_single (edgeAt_braceOpener? hopener)⟩

/-- Every step cuts between characters. -/
theorem cutsWhole_step {s : State} {input : Bytes} (hs : s.Proper) (hinput : input ≠ []) :
    CutsWhole (s.step input).cuts input := by
  obtain ⟨b, rest, rfl⟩ := List.exists_cons_of_ne_nil hinput
  unfold State.step
  split
  · next closer lineStart outer hframes =>
    exact cutsWhole_stepLiteral (hs closer lineStart (by rw [hframes]; exact List.mem_cons_self))
  · exact (codeLexeme_code true b rest).cutsWhole
  · split
    · exact (codeLexeme_code false b rest).cutsWhole
    · have htag := findOpenTag_spec (b :: rest)
      split
      · next n hfound =>
        rw [hfound] at htag
        exact cutsWhole_single (.stop htag.ge)
      · next n m hfound =>
        rw [hfound] at htag
        exact ⟨edgeAt_of_next (nextIn_of_openTag? htag), cutsWhole_single (edgeAt_openTag? htag)⟩

/-! ## Runs -/

/-- The lexemes of a text are texts. -/
theorem valid_of_mem_lex {s : State} {input : Bytes} (hs : s.Labelled) (hproper : s.Proper)
    (hinput : Utf8.valid input = true) : ∀ l ∈ lex s 0 input, Utf8.valid l.text = true := by
  refine lex_induction (motive := fun s input lexemes => s.Proper → Utf8.valid input = true →
    ∀ l ∈ lexemes, Utf8.valid l.text = true) ?_ ?_ hs input hproper hinput
  · intro s _ _ _ l hl
    cases hl
  · intro s input lexemes _ hne ih hproper hinput l hl
    obtain ⟨hcut, hrest⟩ := (cutsWhole_step hproper hne).valid hinput
    rcases List.mem_append.mp hl with hl | hl
    · exact hcut l hl
    · exact ih (proper_step hproper hne) hrest l hl

/-- Each token is cut out between characters. -/
theorem sliced_token {source : Bytes} {before after : List Token} {t : Token}
    (hsource : Utf8.valid source = true) (h : tokenize source = before ++ t :: after) :
    Sliced source (before.flatMap (·.text)) t.text (after.flatMap (·.text)) := by
  have hlex := lex_of_tokenize h
  have hvalid : ∀ u ∈ before ++ t :: after, Utf8.valid u.text = true := by
    intro u hu
    refine valid_of_mem_lex labelled_start proper_start hsource u.toLexeme ?_
    rw [hlex]
    exact List.mem_map_of_mem hu
  have hjoin := flatMap_text_lex labelled_start source
  rw [hlex, List.flatMap_map, List.flatMap_append, List.flatMap_cons] at hjoin
  rw [List.forall_mem_append, List.forall_mem_cons] at hvalid
  obtain ⟨hbefore, ht, hafter⟩ := hvalid
  exact ⟨hjoin.symm, valid_flatMap hbefore, ht, valid_flatMap hafter⟩

/-- What is left at a place that the lexer comes to starts with a whole character. -/
theorem Reached.sliced {source : Bytes} {p : Place} (hsource : Utf8.valid source = true)
    (h : Reached source p) :
    ∃ front, Sliced source front p.rest [] := by
  obtain ⟨before, hlex, heq⟩ := h.exists_lexemes
  have hvalid := valid_of_mem_lex labelled_start proper_start hsource
  rw [hlex, List.forall_mem_append] at hvalid
  refine ⟨before.flatMap (·.text), ?_, valid_flatMap hvalid.1, ?_, valid_nil⟩
  · rw [List.append_nil]
    exact heq
  · rw [← flatMap_text_lex h.labelled p.rest]
    exact valid_flatMap hvalid.2

end SourceTidy.Php
