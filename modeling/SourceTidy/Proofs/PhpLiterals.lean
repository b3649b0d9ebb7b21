import SourceTidy.Proofs.PhpRuns

/-! # Literals and comments written into PHP code

Any text can be written as a literal: what would end the literal is escaped, or, where nothing can
be escaped, does not stand in the text. The lexer reads such a literal back as what it is, whatever
text it holds, and is then where it would be without it.

* `Writing`: the ways to write a text, what they admit, and their lexemes;
* `untilQuote_escaped`, `plainUntilQuote?_escaped`, `untilCommentEnd_append`, `nowdocBody_append`:
  the scanners stop at the end of what was written, and not before;
* `reads_writing`: in code, a written text is read as its lexemes, and the code goes on;
* `written_text_keeps_rest`: the code after it is lexed as if it were not there.
-/

namespace SourceTidy.Php

open Ascii Bytes

/-- The ways to write a text into code. -/
inductive Writing where
  | singleQuoted
  | doubleQuoted
  | comment
  | nowdoc
deriving DecidableEq, Repr

/-- The text with a backslash before each of the marks. -/
def escape (marks w : Bytes) : Bytes := w.flatMap fun b => if b ∈ marks then [backslash, b] else [b]

/-- The label of a text that is written as a raw here document. -/
def eot : Bytes := ascii "EOT"

/-- Its opener. -/
def eotOpener : Bytes := ascii "<<<'EOT'\n"

namespace Writing

/-- What is escaped. -/
def marks : Writing → Bytes
  | .singleQuoted => [backslash, singleQuote]
  | .doubleQuoted => [backslash, doubleQuote, dollar]
  | .comment | .nowdoc => []

/-- What is written for a text. -/
def text : Writing → Bytes → Bytes
  | .singleQuoted, w => singleQuote :: (escape (marks .singleQuoted) w ++ [singleQuote])
  | .doubleQuoted, w => doubleQuote :: (escape (marks .doubleQuoted) w ++ [doubleQuote])
  | .comment, w => slash :: star :: (w ++ commentEnd)
  | .nowdoc, w => eotOpener ++ (w ++ lf :: eot)

/-- Which texts can be written that way: nothing in a comment ends it, and no line of a here
document starts with its label. -/
def Admits : Writing → Bytes → Prop
  | .singleQuoted, _ => True
  | .doubleQuoted, _ => True
  | .comment, w => IsWithout commentEnd w
  | .nowdoc, w => ∀ line ∈ lines w, ¬ Closes eot line

/-- The lexemes of what is written. -/
def lexemes : Writing → Bytes → List Lexeme
  | .singleQuoted, w => [⟨.singleQuoted, text .singleQuoted w⟩]
  | .doubleQuoted, w => [⟨.doubleQuoted, text .doubleQuoted w⟩]
  | .comment, w => [⟨.comment, text .comment w⟩]
  | .nowdoc, w => [⟨.heredocStart, eotOpener⟩, ⟨.nowdoc, w ++ [lf]⟩, ⟨.other, eot⟩]

end Writing

/-! ## Where the scanners stop -/

section

variable {marks w rest : Bytes} {quote : UInt8}

theorem escape_cons_of_mem {b : UInt8} (h : b ∈ marks) (w : Bytes) :
    escape marks (b :: w) = backslash :: b :: escape marks w := by
  simp [escape, h]

theorem escape_cons_of_not_mem {b : UInt8} (h : b ∉ marks) (w : Bytes) :
    escape marks (b :: w) = b :: escape marks w := by
  simp [escape, h]

/-- If backslashes and the quote are escaped, the first bare quote is the one after the text. -/
theorem untilQuote_escaped (hescape : backslash ∈ marks) (hquote : quote ∈ marks)
    (hne : quote ≠ backslash) (w rest : Bytes) :
    untilQuote quote (escape marks w ++ quote :: rest) = (escape marks w).length + 1 := by
  induction w with
  | nil => exact untilQuote_quote quote rest
  | cons b w ih =>
    by_cases hb : b ∈ marks
    · rw [escape_cons_of_mem hb, List.cons_append, List.cons_append, untilQuote_escape hne, ih]
      rfl
    · rw [escape_cons_of_not_mem hb, List.cons_append, untilQuote_octet, ih]
      · rfl
      · rintro rfl
        exact hb hquote
      · rintro rfl
        exact hb hescape

/-- An octet that is escaped does not come next. -/
theorem nextIs_escaped {b : UInt8} (hb : b ∈ marks) (hne : b ≠ backslash)
    (hrest : nextIs b rest = false) (w : Bytes) : nextIs b (escape marks w ++ rest) = false := by
  cases w with
  | nil => exact hrest
  | cons c w =>
    by_cases hc : c ∈ marks
    · rw [escape_cons_of_mem hc]
      simpa [nextIs] using hne.symm
    · have hcb : c ≠ b := by
        rintro rfl
        exact hc hb
      rw [escape_cons_of_not_mem hc]
      simpa [nextIs] using hcb

/-- If dollar signs are escaped too, no interpolation starts before that: a brace has no dollar sign
right after it. -/
theorem plainUntilQuote?_escaped (hescape : backslash ∈ marks) (hquote : doubleQuote ∈ marks)
    (hdollar : dollar ∈ marks) (w rest : Bytes) :
    plainUntilQuote? (escape marks w ++ doubleQuote :: rest) =
      some ((escape marks w).length + 1) := by
  induction w with
  | nil => exact plainUntilQuote?_quote rest
  | cons b w ih =>
    by_cases hb : b ∈ marks
    · rw [escape_cons_of_mem hb, List.cons_append, List.cons_append, plainUntilQuote?_escape, ih]
      rfl
    · have hnext : nextIs dollar (escape marks w ++ doubleQuote :: rest) = false :=
        nextIs_escaped hdollar (by decide) rfl w
      have hbdollar : b ≠ dollar := by
        rintro rfl
        exact hb hdollar
      rw [escape_cons_of_not_mem hb, List.cons_append, plainUntilQuote?_octet, ih]
      · rfl
      · rintro rfl
        exact hb hescape
      · rintro rfl
        exact hb hquote
      · simp [startsInterpolation, hbdollar, hnext]

/-- In a text without an end of a comment, the first one is that after the text. -/
theorem untilCommentEnd_append (hw : IsWithout commentEnd w) (rest : Bytes) :
    untilCommentEnd (w ++ (commentEnd ++ rest)) = w.length + 2 := by
  induction w with
  | nil => rfl
  | cons b w ih =>
    have hhere : ¬ commentEnd <+: b :: (w ++ (commentEnd ++ rest)) := by
      rw [commentEnd_prefix_iff]
      rintro ⟨rfl, hnext⟩
      cases w with
      | nil => exact Bool.false_ne_true hnext
      | cons c w =>
        -- the end would stand in the text itself
        refine hw 0 (commentEnd_prefix_iff.mpr ⟨rfl, ?_⟩)
        simpa [nextIs] using hnext
    rw [List.cons_append, untilCommentEnd_octet hhere, ih fun i => hw (i + 1)]
    rfl

/-! ### Raw here documents -/

theorem isLabel_eot : IsLabel eot := by
  refine ⟨rfl, ?_⟩
  exact List.all_eq_true.mp rfl

variable {label : Bytes}

theorem lf_not_mem_label (hlabel : IsLabel label) : lf ∉ label := by
  intro hmem
  exact absurd (hlabel.ident lf hmem) (by decide)

/-- Whether a label closes a here document is decided on the first line. -/
theorem Closes.firstLine (hlabel : IsLabel label) {s : Bytes} (h : Closes label s) :
    Closes label (firstLine s) := by
  obtain ⟨blanks, rest, rfl, hblanks, hident⟩ := h
  have hline : ∀ b ∈ blanks ++ label, (b != lf) = true := by
    intro b hb
    rcases List.mem_append.mp hb with hb | hb
    · rcases isBlank_iff.mp (hblanks b hb) with rfl | rfl <;> rfl
    · have hne : b ≠ lf := by
        rintro rfl
        exact lf_not_mem_label hlabel hb
      simpa using hne
  refine ⟨blanks, Php.firstLine rest, ?_, hblanks, ?_⟩
  · exact List.takeWhile_append_of_pos hline
  · cases rest with
    | nil => rfl
    | cons b rest =>
      by_cases hb : b = lf
      · simp [Php.firstLine, hb, nextIn]
      · have hfirst : Php.firstLine (b :: rest) = b :: Php.firstLine rest := by
          simp [Php.firstLine, hb]
        rw [hfirst]
        exact hident

/-- Up to the first line feed, a text goes on as the first line of it does. -/
theorem firstLine_append (w rest : Bytes) : firstLine (w ++ lf :: rest) = firstLine w := by
  induction w with
  | nil => rfl
  | cons b w ih =>
    by_cases hb : b = lf
    · simp [firstLine, hb]
    · simpa [firstLine, hb] using ih

theorem not_closes_lf (hlabel : IsLabel label) (rest : Bytes) : ¬ Closes label (lf :: rest) := by
  intro hcloses
  exact not_closes_nil hlabel (hcloses.firstLine hlabel)

/-- A body of which no line closes it ends where the label stands on a line of its own. -/
theorem nowdocBody_append (hlabel : IsLabel label) (hrest : nextIn isIdent rest = false) (w : Bytes)
    (lineStart : Bool) (hfirst : lineStart = true → ¬ Closes label (firstLine w))
    (hlines : ∀ line ∈ (lines w).tail, ¬ Closes label line) :
    nowdocBody label lineStart (w ++ lf :: (label ++ rest)) = (w.length + 1, label.length) := by
  induction w generalizing lineStart with
  -- the line feed is the last octet of the body, and the label follows it
  | nil =>
    have hclosed : closingLabel? label (label ++ rest) = some label.length :=
      (closingLabel?_eq_some_iff hlabel).mpr ⟨[], rest, rfl, List.forall_mem_nil _, hrest, by simp⟩
    have hopen := (closingLabel?_eq_none_iff hlabel).mpr (not_closes_lf hlabel (label ++ rest))
    rw [List.nil_append, nowdocBody_cons fun _ => hopen, decide_eq_true rfl,
      nowdocBody_closed hclosed]
    rfl
  | cons b w ih =>
    have hopen : lineStart = true →
        closingLabel? label (b :: (w ++ lf :: (label ++ rest))) = none := by
      intro hstart
      rw [closingLabel?_eq_none_iff hlabel]
      intro hcloses
      have hline := hcloses.firstLine hlabel
      rw [← List.cons_append, firstLine_append] at hline
      exact hfirst hstart hline
    have hbody : nowdocBody label (decide (b = lf)) (w ++ lf :: (label ++ rest)) =
        (w.length + 1, label.length) := by
      -- after a line feed the next line is looked at for the label
      by_cases hb : b = lf
      · obtain ⟨more, hmore⟩ := lines_eq_firstLine w
        rw [lines, if_pos hb, List.tail_cons, hmore, List.forall_mem_cons] at hlines
        refine ih _ (fun _ => hlines.1) ?_
        rw [hmore]
        exact hlines.2
      · rw [lines_cons_of_ne hb] at hlines
        refine ih _ ?_ hlines
        intro hstart
        exact absurd (of_decide_eq_true hstart) hb
    rw [List.cons_append, nowdocBody_cons hopen, hbody]
    rfl

end

/-! ## Written texts in code -/

/-- In a script tag, outside of all literals. -/
def State.script : State := { inCode := true, frames := [] }

theorem labelled_script : State.script.Labelled := List.forall_mem_nil _

/-- A lexeme of code that opens nothing leaves the state as it is. -/
theorem reads_code {text rest : Bytes} {cuts : List Cut}
    (h : code false (text ++ rest) = (cuts, .none)) (hextent : cutExtent cuts = text.length)
    (hne : text ≠ []) :
    Reads rest .script text (cutUp cuts text) .script := by
  have hstep : State.script.step (text ++ rest) = ⟨cuts, .script⟩ := by
    show (Step.mk (code false (text ++ rest)).1
        (State.script.after (code false (text ++ rest)).2)) = _
    rw [h]
    rfl
  exact Reads.single hstep hextent hne

/-- The tag that opens a script. -/
def scriptTag : Lexeme := ⟨.other, ascii "<?php "⟩

/-- The open tag is read by itself, and code follows. -/
theorem reads_scriptTag (rest : Bytes) : Reads rest .start scriptTag.text [scriptTag] .script := by
  have hstep : State.start.step (scriptTag.text ++ rest) = ⟨[⟨.other, 0⟩, ⟨.other, 6⟩], .script⟩ :=
    rfl
  exact Reads.single hstep rfl (by decide)

/-- A text that is one lexeme of code. -/
theorem reads_lexeme {kind : TokenKind} {n : Nat} {text rest : Bytes}
    (h : code false (text ++ rest) = ([⟨kind, n⟩], .none)) (hn : n = text.length)
    (hne : text ≠ []) :
    Reads rest .script text [⟨kind, text⟩] .script := by
  have hcut := cutUp_cons_length hne kind [] []
  rw [List.append_nil, ← hn] at hcut
  exact hcut ▸ reads_code h hn hne

/-- A raw here document is an opener, a body and a label. -/
theorem code_nowdoc (nested : Bool) {text label s : Bytes} {body m : Nat}
    (h : Opens text [singleQuote] label) (hbody : nowdocBody label true s = (body, m)) :
    code nested (text ++ s) =
      ([⟨.heredocStart, text.length⟩, ⟨.nowdoc, body⟩, ⟨.other, m⟩], .none) := by
  have hsign : ascii "<<<" <+: text ++ s := by
    obtain ⟨blanks, eol, rfl, -⟩ := h
    simp only [List.append_assoc, List.prefix_append]
  rw [code_heredoc nested hsign, heredocOpener?_of_opens h]
  simp [heredocLexemes, hbody]

theorem opens_eotOpener : Opens eotOpener [singleQuote] eot :=
  ⟨[], .lf, rfl, List.forall_mem_nil _, Or.inr (Or.inl rfl), isLabel_eot⟩

/-- These are the lexemes of the text that is written so. -/
theorem cutUp_nowdoc (w : Bytes) :
    cutUp [⟨.heredocStart, eotOpener.length⟩, ⟨.nowdoc, w.length + 1⟩, ⟨.other, eot.length⟩]
      (Writing.text .nowdoc w) = Writing.lexemes .nowdoc w := by
  have hline : w ++ lf :: eot = (w ++ [lf]) ++ (eot ++ []) := by simp
  have hlength : w.length + 1 = (w ++ [lf]).length := by simp
  rw [Writing.text, cutUp_cons_length (by decide), hline, hlength, cutUp_cons_length (by simp),
    cutUp_cons_length (by decide)]
  rfl

/-- In code, a written text is read as its lexemes, and the code goes on after it. -/
theorem reads_writing (kind : Writing) {w rest : Bytes} (hw : kind.Admits w)
    (hrest : nextIn isIdent rest = false) :
    Reads rest .script (kind.text w) (kind.lexemes w) .script := by
  -- in each case the scanner of that kind stops at the end of what was written, and the lexeme has
  -- the extent of all of it
  cases kind with
  | singleQuoted =>
    have hcode :=
      code_singleQuote false (escape (Writing.marks .singleQuoted) w ++ singleQuote :: rest)
    rw [untilQuote_escaped (by decide) (by decide) (by decide)] at hcode
    refine reads_lexeme ((congrArg (code false) ?_).trans hcode) ?_ (List.cons_ne_nil _ _)
    · simp [Writing.text]
    · simp [Writing.text, Nat.add_comm]
  | doubleQuoted =>
    have hcode :=
      code_doubleQuote false (escape (Writing.marks .doubleQuoted) w ++ doubleQuote :: rest)
    rw [plainUntilQuote?_escaped (by decide) (by decide) (by decide)] at hcode
    refine reads_lexeme ((congrArg (code false) ?_).trans hcode) ?_ (List.cons_ne_nil _ _)
    · simp [Writing.text]
    · simp [Writing.text]
  | comment =>
    have hcode := code_comment false (w ++ (commentEnd ++ rest))
    rw [untilCommentEnd_append hw rest] at hcode
    refine reads_lexeme ((congrArg (code false) ?_).trans hcode) ?_ (List.cons_ne_nil _ _)
    · simp [Writing.text]
    · simp [Writing.text, commentEnd]
      omega
  | nowdoc =>
    obtain ⟨more, hmore⟩ := lines_eq_firstLine w
    have hlines : (¬ Closes eot (firstLine w)) ∧ ∀ line ∈ (lines w).tail, ¬ Closes eot line := by
      rw [Writing.Admits, hmore, List.forall_mem_cons] at hw
      rwa [hmore]
    have hbody := nowdocBody_append isLabel_eot hrest w true (fun _ => hlines.1) hlines.2
    have hcode : code false (Writing.text .nowdoc w ++ rest) = _ :=
      (congrArg (code false) (by simp [Writing.text])).trans
        (code_nowdoc false opens_eotOpener hbody)
    rw [← cutUp_nowdoc]
    refine reads_code hcode ?_ (List.cons_ne_nil _ _)
    simp [Writing.text, cutExtent]
    omega

/-- The lexemes of a written text join to it. -/
theorem flatMap_text_lexemes (kind : Writing) (w : Bytes) :
    (kind.lexemes w).flatMap (·.text) = kind.text w := by
  cases kind <;> simp [Writing.lexemes, Writing.text]

/-- After the tag that opens a script, the lexer goes on in code. -/
theorem tokenize_scriptTag (s : Bytes) :
    tokenize (scriptTag.text ++ s) = ⟨scriptTag, 1⟩ :: numberLines 1 (lex .script 0 s) := by
  rw [tokenize, (reads_scriptTag s).lex_eq labelled_start]
  rfl

/-- A literal or comment of any text does not change how the code after it is lexed: its lexemes
come after the open tag, and all that follows is moved down by the lines that it takes. -/
theorem written_text_keeps_rest (kind : Writing) {w : Bytes} (hw : kind.Admits w) (r : Bytes) :
    ∃ rest, tokenize (ascii "<?php " ++ ascii ";" ++ r) = ⟨⟨.other, ascii "<?php "⟩, 1⟩ :: rest ∧
      tokenize (ascii "<?php " ++ kind.text w ++ ascii ";" ++ r) =
        ⟨⟨.other, ascii "<?php "⟩, 1⟩ :: numberLines 1 (kind.lexemes w) ++
          rest.map (·.moved (lineBreaks (kind.text w))) := by
  have hread : Reads (ascii ";" ++ r) .script (kind.text w) (kind.lexemes w) .script :=
    reads_writing kind hw rfl
  refine ⟨numberLines 1 (lex .script 0 (ascii ";" ++ r)), ?_, ?_⟩
  · rw [List.append_assoc]
    exact tokenize_scriptTag _
  · rw [List.append_assoc, List.append_assoc]
    refine (tokenize_scriptTag _).trans ?_
    rw [hread.lex_eq labelled_script, numberLines_append, flatMap_text_lexemes, numberLines_add]
    rfl

/-- A text with ends of all other literals, and with a line that starts like its own. -/
def misleadingText : Bytes := ascii " EOTs\n'EOT' */ \"\\\n<<<EOT\n?>"

theorem written_text_keeps_rest_misleadingText :
    Writing.Admits .nowdoc misleadingText ∧
      ∃ rest, tokenize (ascii "<?php " ++ ascii ";" ++ ascii "#b\n?>") =
          ⟨⟨.other, ascii "<?php "⟩, 1⟩ :: rest ∧
        tokenize
          (ascii "<?php " ++ Writing.text .nowdoc misleadingText ++ ascii ";" ++ ascii "#b\n?>") =
          ⟨⟨.other, ascii "<?php "⟩, 1⟩ :: numberLines 1 (Writing.lexemes .nowdoc misleadingText) ++
            rest.map (·.moved (lineBreaks (Writing.text .nowdoc misleadingText))) := by
  have hopen : ∀ line ∈ lines misleadingText, (closingLabel? eot line).isNone = true :=
    List.all_eq_true.mp rfl
  have hw : Writing.Admits .nowdoc misleadingText := by
    intro line hline
    rw [← closingLabel?_eq_none_iff isLabel_eot, ← Option.isNone_iff_eq_none]
    exact hopen line hline
  exact ⟨hw, written_text_keeps_rest .nowdoc hw (ascii "#b\n?>")⟩

end SourceTidy.Php
