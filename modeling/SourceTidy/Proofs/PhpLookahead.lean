import Mathlib.Data.List.Infix
import SourceTidy.Proofs.PhpRuns

/-! # How far the PHP scanners look ahead

Some scanners look ahead without a bound. Yet what they find before a closing tag they find there
whatever follows the tag: they do not read on through it, or else stop after it.

* `closingLabel?_atTag`, `heredocOpener?_atTag`, `openTag?_atTag`: what a few octets decide is the
  same before any tag;
* `untilQuote_atTag`, `nowdocBody_atTag`, `segment_atTag`: a scanner that stops before the tag stops
  in the same place before another tag;
* `subscript_atTag`: but a subscript that is not closed may be closed after the tag.
-/

namespace SourceTidy.Php

open Ascii Bytes

/-- A closing tag comes next. -/
def AtTag (s : Bytes) : Prop := ∃ more, s = question :: greater :: more

/-! ## What a few octets decide -/

section

variable {s rest rest' : Bytes}

theorem AtTag.ne_nil (h : AtTag rest) : rest ≠ [] := by
  obtain ⟨more, rfl⟩ := h
  exact List.cons_ne_nil _ _

/-- The next octet is one of the text, or the question mark of either tag. -/
theorem nextIn_atTag (h : AtTag rest) (h' : AtTag rest') (p : UInt8 → Bool) (s : Bytes) :
    nextIn p (s ++ rest') = nextIn p (s ++ rest) := by
  obtain ⟨more, rfl⟩ := h
  obtain ⟨more', rfl⟩ := h'
  cases s <;> rfl

theorem nextIs_atTag (h : AtTag rest) (h' : AtTag rest') (b : UInt8) (s : Bytes) :
    nextIs b (s ++ rest') = nextIs b (s ++ rest) := by
  obtain ⟨more, rfl⟩ := h
  obtain ⟨more', rfl⟩ := h'
  cases s <;> rfl

/-- Could the word reach into a closing tag that comes after its front? -/
def meetsTag (word : Bytes) : Bool :=
  word.tails.any fun back => back == [question] || [question, greater].isPrefixOf back

/-- A word without a question mark does not reach into a tag. -/
theorem meetsTag_of_not_mem {word : Bytes} (h : question ∉ word) : meetsTag word = false := by
  rw [meetsTag, List.any_eq_false]
  intro back hback
  have hquestion : question ∉ back := fun hmem => h (((List.mem_tails back word).mp hback).mem hmem)
  cases back with
  | nil => decide
  | cons b back =>
    have hb : question ≠ b := fun heq => hquestion (heq ▸ List.mem_cons_self)
    simp [hb, hb.symm]

/-- A word that meets no tag stands before it or not at all. -/
theorem prefix_atTag_iff (h : AtTag rest) {word : Bytes} (hword : meetsTag word = false) :
    word <+: s ++ rest ↔ word <+: s := by
  refine ⟨fun hstarts => ?_, fun hstarts => hstarts.trans (List.prefix_append s rest)⟩
  rcases List.prefix_or_prefix_of_prefix hstarts (List.prefix_append s rest) with hle | ⟨back, rfl⟩
  · exact hle
  · obtain ⟨more, rfl⟩ := h
    rw [List.prefix_append_right_inj] at hstarts
    rw [meetsTag, List.any_eq_false] at hword
    have hback := hword back ((List.mem_tails _ _).mpr (List.suffix_append s back))
    match back with
    | [] => simp
    | [b] =>
      obtain rfl : b = question := (List.cons_prefix_cons.mp hstarts).1
      simp at hback
    | b :: c :: back =>
      obtain ⟨rfl, hgreater⟩ := List.cons_prefix_cons.mp hstarts
      obtain rfl : c = greater := (List.cons_prefix_cons.mp hgreater).1
      simp at hback

/-- A word that does not reach into the tag starts in the text or not at all. -/
theorem isPrefixOf_atTag (h : AtTag rest) {word : Bytes} (hword : meetsTag word = false)
    (s : Bytes) :
    word.isPrefixOf (s ++ rest) = word.isPrefixOf s := by
  rw [Bool.eq_iff_iff, List.isPrefixOf_iff_prefix, List.isPrefixOf_iff_prefix,
    prefix_atTag_iff h hword]

/-- A run of octets ends at the tag. -/
theorem runLength_atTag (h : AtTag rest) {p : UInt8 → Bool} (hp : p question = false) (s : Bytes) :
    runLength p (s ++ rest) = runLength p s := by
  obtain ⟨more, rfl⟩ := h
  rw [runLength, runLength, List.takeWhile_append]
  split
  · next hall => simp [hp, hall]
  · rfl

theorem drop_runLength_append (p : UInt8 → Bool) (s rest : Bytes) :
    (s ++ rest).drop (runLength p s) = s.drop (runLength p s) ++ rest :=
  List.drop_append_of_le_length (List.takeWhile_sublist p).length_le

/-- Whether a line break comes next does not depend on the tag. -/
theorem lineBreakLength_atTag (h : AtTag rest) (h' : AtTag rest') (s : Bytes) :
    lineBreakLength (s ++ rest') = lineBreakLength (s ++ rest) := by
  cases s with
  | nil =>
    obtain ⟨more, rfl⟩ := h
    obtain ⟨more', rfl⟩ := h'
    rfl
  | cons b s => rw [List.cons_append, List.cons_append, lineBreakLength, lineBreakLength,
      nextIs_atTag h h']

/-- How far an earlier closing tag reaches does not depend on the tag. -/
theorem closeTag_atTag (h : AtTag rest) (h' : AtTag rest') (a b : UInt8) (s : Bytes) :
    closeTag (a :: b :: s ++ rest') = closeTag (a :: b :: s ++ rest) := by
  have hbreak := lineBreakLength_atTag h h' s
  exact congrArg (fun n => 2 + n.getD 0) hbreak

/-- How much white space follows an open tag does not depend on the closing one. -/
theorem tagSpacing_atTag (h : AtTag rest) (h' : AtTag rest') (s : Bytes) :
    tagSpacing (s ++ rest') = tagSpacing (s ++ rest) := by
  have hword : meetsTag (ascii "\r\n") = false := rfl
  rw [tagSpacing, tagSpacing, isPrefixOf_atTag h hword, isPrefixOf_atTag h' hword,
    nextIn_atTag h h']

/-- Whether an interpolation starts does not depend on the tag. -/
theorem startsInterpolation_atTag (h : AtTag rest) (h' : AtTag rest') (s : Bytes) :
    startsInterpolation (s ++ rest') = startsInterpolation (s ++ rest) := by
  cases s with
  | nil =>
    obtain ⟨more, rfl⟩ := h
    obtain ⟨more', rfl⟩ := h'
    rfl
  | cons b s =>
    rw [List.cons_append, List.cons_append, startsInterpolation, startsInterpolation,
      nextIn_atTag h h', nextIs_atTag h h', nextIs_atTag h h']

theorem AtTag.map_toLower (h : AtTag rest) : AtTag (rest.map toLower) := by
  obtain ⟨more, rfl⟩ := h
  exact ⟨more.map toLower, rfl⟩

/-- The long form of an open tag stands before the closing tag or not at all. -/
theorem phpTag_atTag (h : AtTag rest) (s : Bytes) :
    (ascii "<?php").isPrefixOf (((s ++ rest).take 5).map toLower) =
      (ascii "<?php").isPrefixOf (s.map toLower) := by
  rw [← isPrefixOf_atTag h.map_toLower rfl (s.map toLower), ← List.map_append, List.map_take,
    Bool.eq_iff_iff, List.isPrefixOf_iff_prefix, List.isPrefixOf_iff_prefix, List.prefix_take_iff]
  exact and_iff_left le_rfl

theorem isPrefixOf_of_length_lt {word : Bytes} (h : s.length < word.length) :
    word.isPrefixOf s = false := by
  rw [Bool.eq_false_iff, Ne, List.isPrefixOf_iff_prefix]
  exact fun hstarts => absurd hstarts.length_le (Nat.not_le_of_lt h)

/-- With the sign of a closing tag no open tag is made. -/
theorem openTag?_of_atTag (h : AtTag rest) (hs : s.length < 2) : openTag? (s ++ rest) = none := by
  have hecho : (ascii "<?=").isPrefixOf (s ++ rest) = false := by
    rw [isPrefixOf_atTag h rfl]
    exact isPrefixOf_of_length_lt (hs.trans (by decide))
  have hphp : (ascii "<?php").isPrefixOf (((s ++ rest).take 5).map toLower) = false := by
    rw [phpTag_atTag h]
    exact isPrefixOf_of_length_lt (by simpa using hs.trans (by decide))
  have hshort :
      ((ascii "<?").isPrefixOf (s ++ rest) && nextIn isTagSpacing ((s ++ rest).drop 2)) =
        false := by
    obtain ⟨more, rfl⟩ := h
    match s, hs with
    | [], _ => rfl
    | [a], _ => exact Bool.and_false _
  rw [openTag?, hecho, hphp, hshort]
  rfl

theorem isEmpty_append_atTag (h : AtTag rest) (s : Bytes) : (s ++ rest).isEmpty = false := by
  simpa using fun _ => h.ne_nil

/-- Whether an open tag starts does not depend on the closing one. -/
theorem openTag?_atTag (h : AtTag rest) (h' : AtTag rest') (s : Bytes) :
    openTag? (s ++ rest') = openTag? (s ++ rest) := by
  rcases Nat.lt_or_ge s.length 2 with hshort | hlong
  · rw [openTag?_of_atTag h hshort, openTag?_of_atTag h' hshort]
  · have hword : meetsTag (ascii "<?=") = false := rfl
    have hdrop (tail : Bytes) : (s ++ tail).drop 2 = s.drop 2 ++ tail :=
      List.drop_append_of_le_length hlong
    have hsign (tail : Bytes) :
        (ascii "<?").isPrefixOf (s ++ tail) = (ascii "<?").isPrefixOf s := by
      match s, hlong with
      | _ :: _ :: _, _ => rfl
    unfold openTag?
    rw [isPrefixOf_atTag h hword, isPrefixOf_atTag h' hword, phpTag_atTag h, phpTag_atTag h',
      hdrop, hdrop, hsign, hsign, nextIn_atTag h h', tagSpacing_atTag h h']
    by_cases hphp : (ascii "<?php").isPrefixOf (s.map toLower) = true
    · have hlength : 5 ≤ s.length := by
        simpa [ascii] using (List.isPrefixOf_iff_prefix.mp hphp).length_le
      rw [List.drop_append_of_le_length hlength, List.drop_append_of_le_length hlength,
        isEmpty_append_atTag h, isEmpty_append_atTag h', nextIn_atTag h h', tagSpacing_atTag h h']
    · simp [hphp]

/-! ### Here documents -/

/-- A label has no question mark in it. -/
theorem question_not_mem_label {label : Bytes} (hlabel : IsLabel label) : question ∉ label := by
  intro hmem
  exact absurd (hlabel.ident question hmem) (by decide)

/-- Whether a label closes a here document does not depend on the tag. -/
theorem closingLabel?_atTag (h : AtTag rest) (h' : AtTag rest') {label : Bytes}
    (hlabel : IsLabel label) (s : Bytes) :
    closingLabel? label (s ++ rest') = closingLabel? label (s ++ rest) := by
  have hword := meetsTag_of_not_mem (question_not_mem_label hlabel)
  unfold closingLabel?
  rw [runLength_atTag h rfl, runLength_atTag h' rfl]
  dsimp only
  rw [drop_runLength_append, drop_runLength_append, isPrefixOf_atTag h hword,
    isPrefixOf_atTag h' hword]
  by_cases hstarts : label.isPrefixOf (s.drop (runLength isBlank s)) = true
  · have hlength := (List.isPrefixOf_iff_prefix.mp hstarts).length_le
    rw [List.drop_append_of_le_length hlength, List.drop_append_of_le_length hlength,
      nextIn_atTag h h']
  · simp [hstarts]

/-- The opener of a here document has no question mark in it. -/
theorem question_not_mem_opener {text quotes label : Bytes} (h : Opens text quotes label) :
    question ∉ text := by
  obtain ⟨blanks, eol, rfl, hblanks, hquotes, hlabel⟩ := h
  have hblank : question ∉ blanks := fun hmem => absurd (hblanks question hmem) (by decide)
  have hquote : question ∉ quotes := by
    rcases hquotes with rfl | rfl | rfl <;> decide
  have hbreak : question ∉ eol.bytes := by
    cases eol <;> decide
  have hsign : question ∉ ascii "<<<" := by decide
  simp [hsign, hblank, hquote, hbreak, question_not_mem_label hlabel]

/-- An opener stands before the tag. -/
theorem opens_before_atTag (h : AtTag rest) (hs : ascii "<<<" <+: s) {opener : HeredocOpener}
    (hopener : heredocOpener? (s ++ rest) = some opener) :
    ∃ quotes text back, s = text ++ back ∧ Opens text quotes opener.label ∧
      text.length = opener.extent ∧ opener.raw = (quotes == [singleQuote]) := by
  obtain ⟨quotes, text, more, htext, hopens, hextent, hraw⟩ :=
    opens_of_heredocOpener? (hs.trans (List.prefix_append s rest)) hopener
  have hword := meetsTag_of_not_mem (question_not_mem_opener hopens)
  obtain ⟨back, hback⟩ : text <+: s :=
    (prefix_atTag_iff h hword).mp (htext ▸ List.prefix_append text more)
  exact ⟨quotes, text, back, hback.symm, hopens, hextent, hraw⟩

/-- An opener that is found lies before the tag, and is found whatever follows. -/
theorem heredocOpener?_of_atTag (h : AtTag rest) (hs : ascii "<<<" <+: s) {opener : HeredocOpener}
    (hopener : heredocOpener? (s ++ rest) = some opener) (rest' : Bytes) :
    heredocOpener? (s ++ rest') = some opener := by
  obtain ⟨quotes, text, back, rfl, hopens, hextent, hraw⟩ := opens_before_atTag h hs hopener
  rw [List.append_assoc, heredocOpener?_of_opens hopens, hextent, ← hraw]

/-- Whether there is an opener does not depend on the tag. -/
theorem heredocOpener?_atTag (h : AtTag rest) (h' : AtTag rest') (hs : ascii "<<<" <+: s) :
    heredocOpener? (s ++ rest') = heredocOpener? (s ++ rest) := by
  refine Option.ext fun opener => ?_
  exact ⟨fun hopener => heredocOpener?_of_atTag h' hs hopener rest,
    fun hopener => heredocOpener?_of_atTag h hs hopener rest'⟩

/-! ## Scanners that stop before the tag -/

theorem untilQuote_pos (quote b : UInt8) (s : Bytes) : 0 < untilQuote quote (b :: s) := by
  rw [untilQuote.eq_def]
  dsimp only
  split
  · exact Nat.one_pos
  · split
    · split <;> exact Nat.succ_pos _
    · exact Nat.succ_pos _

/-- A literal that is closed before the tag is closed there before another tag. -/
theorem untilQuote_atTag {quote : UInt8} (hquote : quote ≠ backslash) (h : AtTag rest)
    (hfits : untilQuote quote (s ++ rest) ≤ s.length) (rest' : Bytes) :
    untilQuote quote (s ++ rest') = untilQuote quote (s ++ rest) := by
  induction s using units_induction with
  | nil =>
    obtain ⟨more, rfl⟩ := h
    exact absurd hfits (Nat.not_le_of_lt (untilQuote_pos quote question _))
  | single =>
    -- the backslash would take an octet of the tag along
    obtain ⟨more, rfl⟩ := h
    rw [List.cons_append, List.nil_append, untilQuote_escape hquote] at hfits
    exact absurd hfits (by simp)
  | escape c s ih =>
    simp only [List.cons_append, untilQuote_escape hquote, List.length_cons] at hfits ⊢
    rw [ih (by omega)]
  | octet b s hescape ih =>
    by_cases hb : b = quote
    · rw [hb, List.cons_append, List.cons_append, untilQuote_quote, untilQuote_quote]
    · simp only [List.cons_append, untilQuote_octet hb hescape, List.length_cons] at hfits ⊢
      rw [ih (by omega)]

theorem singleQuoted_atTag {b : UInt8} (h : AtTag rest)
    (hfits : singleQuoted (b :: s ++ rest) ≤ (b :: s).length) (rest' : Bytes) :
    singleQuoted (b :: s ++ rest') = singleQuoted (b :: s ++ rest) := by
  simp only [singleQuoted, List.cons_append, List.drop_one, List.tail_cons,
    List.length_cons] at hfits ⊢
  rw [untilQuote_atTag (by decide) h (by omega)]

/-- A comment to the end of the line that ends before the tag. -/
theorem lineComment_atTag (h : AtTag rest) (h' : AtTag rest') (nested : Bool)
    (hfits : lineComment nested (s ++ rest) ≤ s.length) :
    lineComment nested (s ++ rest') = lineComment nested (s ++ rest) := by
  induction s with
  | nil =>
    obtain ⟨more, rfl⟩ := h
    obtain ⟨more', rfl⟩ := h'
    cases nested with
    | true => exact absurd hfits (Nat.not_succ_le_zero _)
    | false => rfl
  | cons b s ih =>
    rw [List.cons_append, lineComment, List.length_cons] at hfits
    rw [List.cons_append, List.cons_append, lineComment, lineComment, nextIs_atTag h h',
      nextIs_atTag h h']
    split at hfits
    · next hstop => rw [if_pos hstop, if_pos hstop]
    · next hstop => rw [if_neg hstop, if_neg hstop, ih (Nat.le_of_succ_le_succ hfits)]

/-- The rest of a comment of several lines that ends before the tag. -/
theorem untilCommentEnd_atTag (h : AtTag rest) (h' : AtTag rest')
    (hfits : untilCommentEnd (s ++ rest) ≤ s.length) :
    untilCommentEnd (s ++ rest') = untilCommentEnd (s ++ rest) := by
  induction s with
  | nil =>
    obtain ⟨more, rfl⟩ := h
    exact absurd hfits (Nat.not_succ_le_zero _)
  | cons b s ih =>
    rw [List.cons_append, untilCommentEnd, List.length_cons] at hfits
    rw [List.cons_append, List.cons_append, untilCommentEnd, untilCommentEnd, nextIs_atTag h h']
    split at hfits
    · next hstop => rw [if_pos hstop, if_pos hstop]
    · next hstop => rw [if_neg hstop, if_neg hstop, ih (Nat.le_of_succ_le_succ hfits)]

theorem blockComment_atTag {a b : UInt8} (h : AtTag rest) (h' : AtTag rest')
    (hfits : blockComment (a :: b :: s ++ rest) ≤ (a :: b :: s).length) :
    blockComment (a :: b :: s ++ rest') = blockComment (a :: b :: s ++ rest) := by
  simp only [blockComment, List.cons_append, List.drop_succ_cons, List.drop_zero,
    List.length_cons] at hfits ⊢
  rw [untilCommentEnd_atTag h h' (by omega)]

/-- No label stands at the tag itself. -/
theorem closingLabel?_of_atTag (h : AtTag rest) {label : Bytes} (hlabel : IsLabel label) :
    closingLabel? label rest = none := by
  rw [closingLabel?_eq_none_iff hlabel]
  rintro ⟨blanks, more, hrest, hblanks, -⟩
  have hquestion : question ∉ blanks ++ label := by
    have hblank : question ∉ blanks := fun hmem => absurd (hblanks question hmem) (by decide)
    simp [hblank, question_not_mem_label hlabel]
  have hstarts : blanks ++ label <+: [] ++ rest := ⟨more, hrest.symm⟩
  rw [prefix_atTag_iff h (meetsTag_of_not_mem hquestion), List.prefix_nil,
    List.append_eq_nil_iff] at hstarts
  exact hlabel.ne_nil hstarts.2

/-- The body of a raw here document that ends before the tag. -/
theorem nowdocBody_atTag (h : AtTag rest) (h' : AtTag rest') {label : Bytes}
    (hlabel : IsLabel label) (lineStart : Bool)
    (hfits : (nowdocBody label lineStart (s ++ rest)).1 ≤ s.length) :
    nowdocBody label lineStart (s ++ rest') = nowdocBody label lineStart (s ++ rest) := by
  induction s generalizing lineStart with
  | nil =>
    have hopen := closingLabel?_of_atTag h hlabel
    obtain ⟨more, rfl⟩ := h
    rw [List.nil_append, nowdocBody_cons fun _ => hopen] at hfits
    exact absurd hfits (Nat.not_succ_le_zero _)
  | cons b s ih =>
    have hsame := closingLabel?_atTag h h' hlabel (b :: s)
    rw [List.cons_append, List.cons_append] at hsame
    rw [List.cons_append] at hfits
    rw [List.cons_append, List.cons_append]
    -- the label closes the body here, or the body takes one more octet
    by_cases hclosed : ∃ n, lineStart = true ∧ closingLabel? label (b :: (s ++ rest)) = some n
    · obtain ⟨n, rfl, hclosed⟩ := hclosed
      rw [nowdocBody_closed hclosed, nowdocBody_closed (hsame.trans hclosed)]
    · have hopen : lineStart = true → closingLabel? label (b :: (s ++ rest)) = none := by
        intro hstart
        rw [Option.eq_none_iff_forall_ne_some]
        exact fun n hn => hclosed ⟨n, hstart, hn⟩
      rw [nowdocBody_cons hopen] at hfits
      rw [nowdocBody_cons hopen, nowdocBody_cons fun hstart => hsame.trans (hopen hstart),
        ih _ (Nat.le_of_succ_le_succ hfits)]

/-- The next open tag, if it is before the closing one. -/
theorem findOpenTag_atTag (h : AtTag rest) (h' : AtTag rest')
    (hfits : (findOpenTag (s ++ rest)).1 < s.length) :
    findOpenTag (s ++ rest') = findOpenTag (s ++ rest) := by
  induction s with
  | nil => exact absurd hfits (Nat.not_lt_zero _)
  | cons b s ih =>
    have htag := openTag?_atTag h h' (b :: s)
    rw [List.cons_append, List.cons_append] at htag
    rw [List.cons_append, findOpenTag] at hfits
    rw [List.cons_append, List.cons_append, findOpenTag, findOpenTag, htag]
    cases hfound : openTag? (b :: (s ++ rest)) with
    | some n => rfl
    | none =>
      rw [hfound] at hfits
      rw [ih (Nat.lt_of_succ_lt_succ hfits)]

/-! ### Interpolating text -/

theorem Closer.at?_atTag (h : AtTag rest) (h' : AtTag rest') {closer : Closer}
    (hcloser : closer.Proper) (lineStart : Bool) (s : Bytes) :
    closer.at? lineStart (s ++ rest') = closer.at? lineStart (s ++ rest) := by
  cases closer with
  | quote q => rw [Closer.at?, Closer.at?, nextIs_atTag h h']
  | label name => rw [Closer.at?, Closer.at?, closingLabel?_atTag h h' hcloser]

theorem segment_closed {closer : Closer} {lineStart : Bool} {b : UInt8} {n : Nat}
    (hclosed : closer.at? lineStart (b :: s) = some n) :
    segment closer lineStart (b :: s) = (0, .closed n) := by
  rw [segment.eq_def]
  simp only [hclosed]

theorem segment_escape {closer : Closer} {lineStart : Bool} {c : UInt8}
    (hopen : closer.at? lineStart (backslash :: c :: s) = none) :
    segment closer lineStart (backslash :: c :: s) =
      ((segment closer (c = lf) s).1 + 2, (segment closer (c = lf) s).2) := by
  rw [segment.eq_def]
  simp only [hopen, if_pos]

theorem segment_interpolation {closer : Closer} {lineStart : Bool} {b : UInt8}
    (hopen : closer.at? lineStart (b :: s) = none) (hb : b ≠ backslash)
    (hstart : startsInterpolation (b :: s) = true) :
    segment closer lineStart (b :: s) = (0, .interpolation) := by
  rw [segment.eq_def]
  simp only [hopen, if_neg hb, if_pos hstart]

theorem segment_octet {closer : Closer} {lineStart : Bool} {b : UInt8}
    (hopen : closer.at? lineStart (b :: s) = none) (hb : b ≠ backslash)
    (hstart : startsInterpolation (b :: s) ≠ true) :
    segment closer lineStart (b :: s) =
      ((segment closer (b = lf) s).1 + 1, (segment closer (b = lf) s).2) := by
  rw [segment.eq_def]
  simp only [hopen, if_neg hb, if_neg hstart]

/-- A run of text that ends before the tag ends there before another tag. -/
theorem segment_atTag (h : AtTag rest) (h' : AtTag rest') {closer : Closer}
    (hcloser : closer.Proper) (lineStart : Bool)
    (hfits : (segment closer lineStart (s ++ rest)).1 < s.length) :
    segment closer lineStart (s ++ rest') = segment closer lineStart (s ++ rest) := by
  induction s using units_induction generalizing lineStart with
  | nil => exact absurd hfits (Nat.not_lt_zero _)
  -- a backslash right before the tag takes its question mark, so the run would not end before the
  -- tag
  | single =>
    have hsame := Closer.at?_atTag h h' hcloser lineStart [backslash]
    simp only [List.cons_append, List.nil_append] at hsame hfits ⊢
    cases hfound : closer.at? lineStart (backslash :: rest) with
    | some n => rw [segment_closed hfound, segment_closed (hsame.trans hfound)]
    | none =>
      obtain ⟨more, rfl⟩ := h
      rw [segment_escape hfound] at hfits
      exact absurd hfits (by simp)
  | escape c s ih =>
    have hsame := Closer.at?_atTag h h' hcloser lineStart (backslash :: c :: s)
    simp only [List.cons_append] at hsame hfits ⊢
    cases hfound : closer.at? lineStart (backslash :: c :: (s ++ rest)) with
    | some n => rw [segment_closed hfound, segment_closed (hsame.trans hfound)]
    | none =>
      rw [segment_escape hfound, List.length_cons, List.length_cons] at hfits
      rw [segment_escape hfound, segment_escape (hsame.trans hfound), ih _ (by omega)]
  | octet b s hb ih =>
    have hsame := Closer.at?_atTag h h' hcloser lineStart (b :: s)
    have hstart := startsInterpolation_atTag h h' (b :: s)
    simp only [List.cons_append] at hsame hstart hfits ⊢
    cases hfound : closer.at? lineStart (b :: (s ++ rest)) with
    | some n => rw [segment_closed hfound, segment_closed (hsame.trans hfound)]
    | none =>
      have hopen := hsame.trans hfound
      by_cases hinterpolates : startsInterpolation (b :: (s ++ rest)) = true
      · rw [segment_interpolation hfound hb hinterpolates,
          segment_interpolation hopen hb (hstart.trans hinterpolates)]
      · rw [segment_octet hfound hb hinterpolates, List.length_cons] at hfits
        rw [segment_octet hfound hb hinterpolates, segment_octet hopen hb (hstart ▸ hinterpolates),
          ih _ (by omega)]

/-- How far a literal reaches that is one run of text and its delimiter. -/
def plainExtent? : Nat × SegmentEnd → Option Nat
  | (n, .closed m) => some (n + m)
  | (n, .input) => some n
  | (_, .interpolation) => none

theorem plainExtent?_add (found : Nat × SegmentEnd) (k : Nat) :
    plainExtent? (found.1 + k, found.2) = (plainExtent? found).map (· + k) := by
  obtain ⟨n, stop⟩ := found
  cases stop with
  | closed m => exact congrArg some (Nat.add_right_comm n k m)
  | interpolation => rfl
  | input => rfl

/-- A literal in double quotes is its first run of text, if no interpolation follows that. -/
theorem plainUntilQuote?_eq_plainExtent? (lineStart : Bool) (s : Bytes) :
    plainUntilQuote? s = plainExtent? (segment (.quote doubleQuote) lineStart s) := by
  -- both scanners read units, and stop at the same ones
  induction s using units_induction generalizing lineStart with
  | nil => rfl
  | single => rfl
  | escape c s ih =>
    have hopen : Closer.at? (.quote doubleQuote) lineStart (backslash :: c :: s) = none := rfl
    rw [plainUntilQuote?_escape, segment_escape hopen, plainExtent?_add, ih]
  | octet b s hb ih =>
    by_cases hquote : b = doubleQuote
    · subst hquote
      have hclosed : Closer.at? (.quote doubleQuote) lineStart (doubleQuote :: s) = some 1 := rfl
      rw [plainUntilQuote?_quote, segment_closed hclosed]
      rfl
    · have hopen : Closer.at? (.quote doubleQuote) lineStart (b :: s) = none := by
        simp [Closer.at?, nextIs, hquote]
      by_cases hstart : startsInterpolation (b :: s) = true
      · rw [segment_interpolation hopen hb hstart, plainUntilQuote?.eq_def]
        simp [hb, hquote, hstart, plainExtent?]
      · rw [segment_octet hopen hb hstart, plainExtent?_add,
          plainUntilQuote?_octet hb hquote (by simpa using hstart), ih]

/-- Where a run ends in the text, the text after it does not matter. -/
theorem takeWhile_append_of_dropWhile {p : UInt8 → Bool} {b : UInt8} {back : Bytes}
    (h : s.dropWhile p = b :: back) (tail : Bytes) :
    (s ++ tail).takeWhile p = s.takeWhile p ∧ (s ++ tail).dropWhile p = b :: back ++ tail := by
  have hlength : (s.takeWhile p).length ≠ s.length := by
    have hparts := congrArg List.length (List.takeWhile_append_dropWhile (p := p) (l := s))
    rw [h, List.length_append, List.length_cons] at hparts
    omega
  exact ⟨by rw [List.takeWhile_append, if_neg hlength], by rw [List.dropWhile_append, h]; rfl⟩

theorem nextIs_dropWhile_of_not_mem {b : UInt8} (h : b ∉ s) (p : UInt8 → Bool) :
    nextIs b (s.dropWhile p) = false := by
  rw [nextIs, beq_eq_false_iff_ne]
  intro hhead
  exact h ((List.dropWhile_sublist p).mem (List.mem_of_mem_head? hhead))

/-- A subscript that is closed before the tag is closed in the same place before another tag, and
one that is not closed in it is not closed by the other tag. -/
theorem subscript_atTag (hbracket : closeBracket ∉ rest')
    (hfits : subscript (s ++ rest) ≤ s.length) :
    subscript (s ++ rest') = subscript (s ++ rest) := by
  unfold subscript at hfits ⊢
  generalize (fun b : UInt8 => !(b == closeBracket || b == doubleQuote || b == lf)) = p at hfits ⊢
  dsimp only at hfits ⊢
  rw [drop_length_takeWhile] at hfits
  rw [drop_length_takeWhile, drop_length_takeWhile]
  cases hback : s.dropWhile p with
  | cons b back =>
    obtain ⟨hrun, hstop⟩ := takeWhile_append_of_dropWhile hback rest
    obtain ⟨hrun', hstop'⟩ := takeWhile_append_of_dropWhile hback rest'
    rw [hrun, hrun', hstop, hstop']
    rfl
  -- no bracket in the text: the search goes on into what follows, and may find none there
  | nil =>
    have hall : ∀ b ∈ s, p b = true := List.dropWhile_eq_nil_iff.mp hback
    rw [List.takeWhile_append_of_pos hall, List.dropWhile_append_of_pos hall] at hfits
    rw [List.dropWhile_append_of_pos hall, List.dropWhile_append_of_pos hall,
      nextIs_dropWhile_of_not_mem hbracket]
    split at hfits
    · rw [List.length_append] at hfits
      omega
    · next hnext => rw [if_neg hnext]; rfl

/-- The name of a variable ends before the tag. -/
theorem simpleVariable_cons (h : AtTag rest) (b : UInt8) {s back : Bytes}
    (hback : s.drop (runLength isIdent s) = back) :
    simpleVariable (b :: s ++ rest) =
      if nextIs openBracket (back ++ rest) then 1 + runLength isIdent s + subscript (back ++ rest)
      else if (ascii "->").isPrefixOf back && nextIn isIdentStart ((back ++ rest).drop 2) then
        1 + runLength isIdent s + 2 + runLength isIdent ((back ++ rest).drop 2)
      else 1 + runLength isIdent s := by
  have hname : runLength isIdent ((b :: s ++ rest).drop 1) = runLength isIdent s :=
    runLength_atTag h rfl s
  have hrest : (b :: s ++ rest).drop (1 + runLength isIdent s) = back ++ rest := by
    rw [Nat.add_comm, List.cons_append, List.drop_succ_cons, drop_runLength_append, hback]
  unfold simpleVariable
  dsimp only
  rw [hname, hrest, isPrefixOf_atTag h rfl]

/-- A variable with its index, if both are before the tag. -/
theorem simpleVariable_atTag (h : AtTag rest) (h' : AtTag rest') (hbracket : closeBracket ∉ rest')
    (hs : s ≠ []) (hfits : simpleVariable (s ++ rest) ≤ s.length) :
    simpleVariable (s ++ rest') = simpleVariable (s ++ rest) := by
  obtain ⟨b, s, rfl⟩ := List.exists_cons_of_ne_nil hs
  generalize hback : s.drop (runLength isIdent s) = back
  have hlength : back.length = s.length - runLength isIdent s := by rw [← hback, List.length_drop]
  rw [simpleVariable_cons h b hback, List.length_cons] at hfits
  rw [simpleVariable_cons h b hback, simpleVariable_cons h' b hback, nextIs_atTag h h']
  by_cases hbracketed : nextIs openBracket (back ++ rest) = true
  · rw [if_pos hbracketed] at hfits
    have hinside : subscript (back ++ rest) ≤ back.length := by omega
    rw [if_pos hbracketed, if_pos hbracketed, subscript_atTag hbracket hinside]
  · rw [if_neg hbracketed, if_neg hbracketed]
    by_cases harrow : (ascii "->").isPrefixOf back = true
    · have htwo : 2 ≤ back.length := (List.isPrefixOf_iff_prefix.mp harrow).length_le
      rw [List.drop_append_of_le_length htwo, List.drop_append_of_le_length htwo, nextIn_atTag h h',
        runLength_atTag h rfl, runLength_atTag h' rfl]
    · simp [harrow]

theorem braceOpener?_atTag (h : AtTag rest) (h' : AtTag rest') (hs : s ≠ []) :
    braceOpener? (s ++ rest') = braceOpener? (s ++ rest) := by
  obtain ⟨b, s, rfl⟩ := List.exists_cons_of_ne_nil hs
  have hsecond :
      nextIs openBrace ((b :: s ++ rest').drop 1) = nextIs openBrace ((b :: s ++ rest).drop 1) :=
    nextIs_atTag h h' openBrace s
  rw [braceOpener?, braceOpener?, nextIs_atTag h h', hsecond]

end

end SourceTidy.Php
