import SourceTidy.Proofs.PhpRuns

/-! # The shapes of PHP tokens

What the text of a token looks like, by its kind. Where a construct is not closed, its token is the
last one; a raw here document is told by the token before it. So the shape of a token is a statement
about the token, the one before it and those after it.

* `Lexeme.Shaped`: the shapes;
* `CodeLexeme.shapedFrom`: the next lexeme of code has its shape, whatever the lexeme;
* `allShaped_step`, `allShaped_lex`: a step cuts off lexemes that have theirs, and so does a run;
* `tokenize_shapes`: every token of a source has the shape of its kind.
-/

namespace SourceTidy.Php

open Ascii Bytes

/-! ## Shapes -/

/-- A line comment opens with `//`, or with `#` without a bracket after it, and stays on its
line. -/
def IsLineComment (text : Bytes) : Prop :=
  (ascii "//" <+: text ∨ ascii "#" <+: text ∧ ¬ ascii "#[" <+: text) ∧ lf ∉ text

/-- A block comment ends at the first `*/` after its opener; if there is none, nothing comes after
it. -/
def IsBlockComment (text : Bytes) (after : List Lexeme) : Prop :=
  ∃ body, text = ascii "/*" ++ body ∧
    (EndsAtFirst commentEnd body ∨ IsWithout commentEnd body ∧ after = [])

/-- A literal ends at the first bare quote after its opener; if there is none, nothing comes after
it. -/
def IsLiteral (quote : UInt8) (body : Bytes) (after : List Lexeme) : Prop :=
  EndsAtQuote quote body ∨ [quote] ∉ units body ∧ after = []

/-- The shape of a lexeme between the one before it and those after it. -/
def Lexeme.Shaped (previous : Option Lexeme) (l : Lexeme) (after : List Lexeme) : Prop :=
  match l.kind with
  | .whitespace =>
    (∀ b ∈ l.text, isSpacing b = true) ∧ ∀ next ∈ after.head?, nextIn isSpacing next.text = false
  | .comment => IsLineComment l.text ∨ IsBlockComment l.text after
  | .singleQuoted => ∃ body, l.text = singleQuote :: body ∧ IsLiteral singleQuote body after
  | .doubleQuoted => ∃ body, l.text = doubleQuote :: body ∧ IsLiteral doubleQuote body after ∧
      IsPlain body
  | .heredocStart => ∃ quotes label, Opens l.text quotes label
  | .nowdoc =>
    ∃ opener label, previous = some opener ∧ opener.kind = .heredocStart ∧
      Opens opener.text [singleQuote] label ∧ ∀ line ∈ lines l.text, ¬ Closes label line
  | .interpolated => True
  | .other => True

/-- Every lexeme of the list has its shape; `previous` is the one before the first. -/
def AllShaped (previous : Option Lexeme) : List Lexeme → Prop
  | [] => True
  | l :: after => l.Shaped previous after ∧ AllShaped (some l) after

/-- A shape that does not ask for the lexeme before it is had after any. -/
theorem Lexeme.Shaped.after_any {l : Lexeme} {after : List Lexeme} (h : l.Shaped none after)
    (previous : Option Lexeme) : l.Shaped previous after := by
  unfold Lexeme.Shaped at h ⊢
  cases hkind : l.kind with
  | nowdoc =>
    -- no raw body stands without its opener
    rw [hkind] at h
    obtain ⟨_, _, hnone, -⟩ := h
    cases hnone
  | comment => simpa only [hkind] using h
  | singleQuoted => simpa only [hkind] using h
  | doubleQuoted => simpa only [hkind] using h
  | interpolated => trivial
  | heredocStart => simpa only [hkind] using h
  | whitespace => simpa only [hkind] using h
  | other => trivial

theorem AllShaped.after_any {lexemes : List Lexeme} (h : AllShaped none lexemes)
    (previous : Option Lexeme) : AllShaped previous lexemes := by
  cases lexemes with
  | nil => trivial
  | cons l after => exact ⟨h.1.after_any previous, h.2⟩

/-- In a list, a lexeme has the shape that the one before it allows. -/
theorem shaped_of_allShaped {previous : Option Lexeme} {before after : List Lexeme} {l : Lexeme}
    (h : AllShaped previous (before ++ l :: after)) :
    l.Shaped (before.getLast?.or previous) after := by
  induction before generalizing previous with
  | nil => exact h.1
  | cons first before ih =>
    have hrest := ih h.2
    rw [List.getLast?_cons]
    cases hlast : before.getLast? with
    | none => simpa [hlast] using hrest
    | some last => simpa [hlast] using hrest

/-! ## What comes after a lexeme -/

/-- The lexemes join to the text, and none of them is empty. -/
structure Joins (lexemes : List Lexeme) (text : Bytes) : Prop where
  text_eq : lexemes.flatMap (·.text) = text
  ne_nil : ∀ l ∈ lexemes, l.text ≠ []

theorem joins_lex {s : State} (hs : s.Labelled) (input : Bytes) : Joins (lex s 0 input) input :=
  ⟨flatMap_text_lex hs input, text_ne_nil_of_mem_lex hs input⟩

namespace Joins

variable {after : List Lexeme} {rest : Bytes}

theorem eq_nil (h : Joins after []) : after = [] := by
  cases after with
  | nil => rfl
  | cons l after =>
    have hnil := h.text_eq
    rw [List.flatMap_cons, List.append_eq_nil_iff] at hnil
    exact absurd hnil.1 (h.ne_nil l List.mem_cons_self)

/-- What does not come next in the text does not start the first lexeme. -/
theorem nextIn_eq_false (h : Joins after rest) {p : UInt8 → Bool} (hrest : nextIn p rest = false) :
    ∀ next ∈ after.head?, nextIn p next.text = false := by
  intro next hnext
  obtain ⟨more, rfl⟩ := List.head?_eq_some_iff.mp hnext
  obtain ⟨b, text, htext⟩ := List.exists_cons_of_ne_nil (h.ne_nil next List.mem_cons_self)
  rw [← h.text_eq, List.flatMap_cons, htext, List.cons_append] at hrest
  rw [htext]
  exact hrest

end Joins

/-! ## Cuts -/

section

variable {cuts : List Cut} {s : Bytes} {after : List Lexeme}

/-- Kinds of lexemes whose shape says nothing. -/
def TokenKind.IsFree (kind : TokenKind) : Prop := kind = .other ∨ kind = .interpolated

/-- Some kinds can have any text. -/
theorem shaped_of_isFree {l : Lexeme} (h : l.kind.IsFree) (previous : Option Lexeme)
    (after : List Lexeme) : l.Shaped previous after := by
  unfold Lexeme.Shaped
  rcases h with h | h <;> simp only [h]

/-- Cuts whose kinds say nothing have their shape, if what comes after them has. -/
theorem allShaped_of_isFree (hcuts : ∀ c ∈ cuts, c.kind.IsFree) (hafter : AllShaped none after)
    (previous : Option Lexeme) : AllShaped previous (cutUp cuts s ++ after) := by
  fun_induction cutUp cuts s generalizing previous with
  | case1 => exact hafter.after_any previous
  | case2 c cuts s _ ih => exact ih (List.forall_mem_cons.mp hcuts).2 previous
  | case3 c cuts s _ ih =>
    rw [List.forall_mem_cons] at hcuts
    exact ⟨shaped_of_isFree hcuts.1 _ _, ih hcuts.2 _⟩

/-- The lexemes that the cuts make of the text have their shapes, if those after them have. -/
def ShapedFrom (s : Bytes) (after : List Lexeme) (lexeme : List Cut × Effect) : Prop :=
  Joins after (s.drop (cutExtent lexeme.1)) → AllShaped none after →
    AllShaped none (cutUp lexeme.1 s ++ after)

theorem shapedFrom_free {n : Nat} {effect : Effect} :
    ShapedFrom s after ([⟨.other, n⟩], effect) := by
  intro _ hafter
  refine allShaped_of_isFree ?_ hafter none
  intro c hc
  exact Or.inl (by rw [List.mem_singleton.mp hc])

/-- One cut, and the shape of its lexeme before the rest of the source. -/
theorem shapedFrom_single {kind : TokenKind} {n : Nat} {effect : Effect} (hn : 0 < n) (hs : s ≠ [])
    (hshape : Joins after (s.drop n) → (Lexeme.mk kind (s.take n)).Shaped none after) :
    ShapedFrom s after ([⟨kind, n⟩], effect) := by
  intro hjoins hafter
  have hrest : cutExtent [⟨kind, n⟩] = n := rfl
  rw [hrest] at hjoins
  rw [cutUp_cons_of_pos hn hs]
  exact ⟨hshape hjoins, hafter.after_any _⟩

end

/-! ## The lexemes of code -/

section

variable {rest : Bytes} {after : List Lexeme}

/-- A run of white space is not followed by more of it. -/
theorem shaped_whitespace {s : Bytes} (h : Joins after (s.drop (runLength isSpacing s))) :
    (Lexeme.mk .whitespace (s.take (runLength isSpacing s))).Shaped none after := by
  rw [drop_runLength] at h
  rw [take_runLength]
  exact ⟨fun b hb => List.mem_takeWhile_imp hb, h.nextIn_eq_false (nextIn_dropWhile isSpacing s)⟩

/-- The opener of a comment does not end it. -/
theorem lineComment_opener {nested : Bool} {b : UInt8} (h : b = hash ∨ b = slash) (rest : Bytes) :
    lineComment nested (b :: rest) = lineComment nested rest + 1 := by
  have hends : b ≠ lf ∧ b ≠ cr ∧ b ≠ question := by
    rcases h with rfl | rfl <;> decide
  simp [lineComment, hends]

/-- A comment to the end of the line has its shape. -/
theorem shaped_lineComment {nested : Bool} {b : UInt8}
    (hopener : b = hash ∨ b = slash ∧ nextIs slash rest = true)
    (hattribute : ¬ (b = hash ∧ nextIs openBracket rest = true)) :
    (Lexeme.mk .comment ((b :: rest).take (lineComment nested (b :: rest)))).Shaped none after := by
  refine Or.inl ⟨?_, lf_not_mem_lineComment nested (b :: rest)⟩
  rcases hopener with rfl | ⟨rfl, hslash⟩
  · rw [lineComment_opener (Or.inl rfl), List.take_succ_cons]
    refine Or.inr ⟨⟨_, rfl⟩, ?_⟩
    intro hbracket
    -- the bracket would stand in the source too
    obtain ⟨more, hmore⟩ :=
      hbracket.trans (List.cons_prefix_cons.mpr ⟨rfl, List.take_prefix _ rest⟩)
    obtain ⟨-, hrest⟩ := List.cons.inj hmore
    refine hattribute ⟨rfl, ?_⟩
    rw [← hrest]
    rfl
  · obtain ⟨rest, rfl⟩ := exists_of_nextIs hslash
    rw [lineComment_opener (Or.inr rfl), lineComment_opener (Or.inr rfl), List.take_succ_cons,
      List.take_succ_cons]
    exact Or.inl ⟨_, rfl⟩

/-- A comment of several lines has its shape. -/
theorem shaped_blockComment (hjoins : Joins after (rest.drop (untilCommentEnd rest))) :
    (Lexeme.mk .comment (ascii "/*" ++ rest.take (untilCommentEnd rest))).Shaped none after := by
  refine Or.inr ⟨_, rfl, ?_⟩
  rcases untilCommentEnd_first rest with hends | ⟨hwithout, hlength⟩
  · exact Or.inl hends
  · rw [List.drop_of_length_le hlength] at hjoins
    rw [List.take_of_length_le hlength]
    exact Or.inr ⟨hwithout, hjoins.eq_nil⟩

/-- What ends at the first bare quote is a literal. -/
theorem isLiteral_of_quoteEnds {quote : UInt8} {n : Nat} (h : QuoteEnds quote rest n)
    (hjoins : Joins after (rest.drop n)) : IsLiteral quote (rest.take n) after := by
  rcases h with hends | ⟨hwithout, hlength⟩
  · exact Or.inl hends
  · rw [List.drop_of_length_le hlength] at hjoins
    rw [List.take_of_length_le hlength]
    exact Or.inr ⟨hwithout, hjoins.eq_nil⟩

/-- An opener, and what stands in a raw here document up to its label. -/
theorem allShaped_nowdoc {s : Bytes} {opener : HeredocOpener} (hs : ascii "<<<" <+: s)
    (hopener : heredocOpener? s = some opener) (hraw : opener.raw = true)
    (hafter : AllShaped none after) :
    AllShaped (some ⟨.heredocStart, s.take opener.extent⟩)
      (cutUp [⟨.nowdoc, (nowdocBody opener.label true (s.drop opener.extent)).1⟩,
        ⟨.other, (nowdocBody opener.label true (s.drop opener.extent)).2⟩] (s.drop opener.extent) ++
          after) := by
  obtain ⟨quotes, text, more, rfl, hopens, hextent, hquotes⟩ := opens_of_heredocOpener? hs hopener
  rw [hraw, eq_comm, beq_iff_eq] at hquotes
  subst hquotes
  have hlabel : IsLabel opener.label := by
    obtain ⟨_, _, -, -, -, hlabel⟩ := hopens
    exact hlabel
  rw [← hextent, List.take_left, List.drop_left, cutUp]
  split
  · -- an empty body makes no lexeme
    refine allShaped_of_isFree ?_ hafter _
    intro c hc
    exact Or.inl (by rw [List.mem_singleton.mp hc])
  · refine ⟨⟨_, opener.label, rfl, rfl, hopens, nowdocBody_lines hlabel more⟩, ?_⟩
    refine allShaped_of_isFree ?_ hafter _
    intro c hc
    exact Or.inl (by rw [List.mem_singleton.mp hc])

end

/-- A here document starts with its opener, and a raw one goes on with the lines up to its label. -/
theorem shapedFrom_heredoc {s : Bytes} (hs : ascii "<<<" <+: s) (hne : s ≠ [])
    (after : List Lexeme) : ShapedFrom s after (heredocLexemes s (heredocOpener? s)) := by
  cases hfound : heredocOpener? s with
  | none => exact shapedFrom_free
  | some opener =>
    have hextent := (heredocOpener_spec hfound).1
    have hstart : ∃ quotes label, Opens (s.take opener.extent) quotes label := by
      obtain ⟨quotes, text, more, hs, hopens, hlength, -⟩ := opens_of_heredocOpener? hs hfound
      rw [hs, ← hlength, List.take_left]
      exact ⟨quotes, opener.label, hopens⟩
    refine iteInduction (fun hraw => ?_) fun _ => shapedFrom_single hextent hne fun _ => hstart
    intro _ hafter
    rw [cutUp_cons_of_pos hextent hne]
    exact ⟨hstart, allShaped_nowdoc hs hfound hraw hafter⟩

/-- Whatever comes next in code has its shape. -/
theorem CodeLexeme.shapedFrom {nested : Bool} {s : Bytes} {lexeme : List Cut × Effect}
    (h : CodeLexeme nested s lexeme) (hne : s ≠ []) (after : List Lexeme) :
    ShapedFrom s after lexeme := by
  -- the kinds that can have any text are done at once; the others are cut off by their scanners
  cases h with
  | spacing hspacing => exact shapedFrom_single (runLength_pos hspacing) hne shaped_whitespace
  | closingTag => exact shapedFrom_free
  | attributes => exact shapedFrom_free
  | lineComment hopener hattributes =>
    refine shapedFrom_single (lineComment_pos (hopener.imp_right And.left)) hne fun _ => ?_
    exact shaped_lineComment hopener hattributes
  | blockComment hstar =>
    obtain ⟨rest, rfl⟩ := exists_of_nextIs hstar
    have hextent : Php.blockComment (slash :: star :: rest) = untilCommentEnd rest + 2 :=
      Nat.add_comm _ _
    rw [hextent]
    exact shapedFrom_single (Nat.succ_pos _) hne shaped_blockComment
  | singleQuoted =>
    refine shapedFrom_single (Nat.succ_pos _) hne fun hjoins => ?_
    exact ⟨_, rfl, isLiteral_of_quoteEnds (quoteEnds_untilQuote (by decide) _) hjoins⟩
  | doubleQuoted hplain =>
    refine shapedFrom_single (Nat.succ_pos _) hne fun hjoins => ?_
    obtain ⟨hends, hplain⟩ := quoteEnds_plainUntilQuote? hplain
    exact ⟨_, rfl, isLiteral_of_quoteEnds hends hjoins, hplain⟩
  | interpolating => exact shapedFrom_free
  | shell => exact shapedFrom_free
  | heredoc hopener => exact shapedFrom_heredoc hopener hne after
  | openBrace => exact shapedFrom_free
  | closeBrace => exact shapedFrom_free
  | name => exact shapedFrom_free
  | sign => exact shapedFrom_free

/-! ## Steps and runs -/

/-- Text, delimiters and interpolations have no shape of their own. -/
theorem isFree_stepLiteral (s : State) (closer : Closer) (lineStart : Bool) (outer : List Frame)
    (input : Bytes) : ∀ c ∈ (s.stepLiteral closer lineStart outer input).cuts, c.kind.IsFree := by
  have hother : TokenKind.other.IsFree := Or.inl rfl
  have htext : TokenKind.interpolated.IsFree := Or.inr rfl
  unfold State.stepLiteral
  generalize segment closer lineStart input = found
  obtain ⟨n, stop⟩ := found
  cases stop with
  | input => simpa using htext
  | closed m => simpa using ⟨htext, hother⟩
  | interpolation =>
    dsimp only
    split
    · simpa using ⟨htext, hother⟩
    · split <;> simpa using ⟨htext, hother⟩

/-- A step cuts off a lexeme of code, or only lexemes that have no shape of their own. -/
theorem cuts_step_cases (s : State) (input : Bytes) :
    (∃ nested, (s.step input).cuts = (code nested input).1) ∨
      ∀ c ∈ (s.step input).cuts, c.kind.IsFree := by
  have hother : TokenKind.other.IsFree := Or.inl rfl
  unfold State.step
  split
  · exact Or.inr (isFree_stepLiteral _ _ _ _ _)
  · exact Or.inl ⟨true, rfl⟩
  · split
    · exact Or.inl ⟨false, rfl⟩
    · right
      split
      · simpa using hother
      · simpa using hother

/-- A step cuts off lexemes that have their shapes, if those after them have. -/
theorem allShaped_step {s : State} {input : Bytes} {after : List Lexeme} (hinput : input ≠ [])
    (hjoins : Joins after (input.drop (s.step input).extent)) (hafter : AllShaped none after) :
    AllShaped none (cutUp (s.step input).cuts input ++ after) := by
  rw [Step.extent_eq] at hjoins
  rcases cuts_step_cases s input with ⟨nested, hcuts⟩ | hfree
  · obtain ⟨b, rest, rfl⟩ := List.exists_cons_of_ne_nil hinput
    rw [hcuts] at hjoins ⊢
    exact (codeLexeme_code nested b rest).shapedFrom hinput after hjoins hafter
  · exact allShaped_of_isFree hfree hafter none

/-- All lexemes of a source have their shapes. -/
theorem allShaped_lex {s : State} (hs : s.Labelled) (input : Bytes) :
    AllShaped none (lex s 0 input) := by
  -- the shape of a lexeme depends on those after it, so these go along in the induction
  refine (lex_induction (motive := fun s input lexemes =>
    lexemes = lex s 0 input ∧ AllShaped none lexemes) ?_ ?_ hs input).2
  · intro s _
    exact ⟨rfl, trivial⟩
  · intro s input lexemes hs hinput ih
    obtain ⟨rfl, hafter⟩ := ih
    refine ⟨(lex_step hs hinput).symm, allShaped_step hinput ?_ hafter⟩
    exact joins_lex (step_spec hs hinput).2 _

/-- Every token of a source has the shape of its kind. -/
theorem tokenize_shapes {source : Bytes} {before after : List Token} {t : Token}
    (h : tokenize source = before ++ t :: after) :
    t.toLexeme.Shaped (before.getLast?.map (·.toLexeme)) (after.map (·.toLexeme)) := by
  have hshapes := allShaped_lex labelled_start source
  rw [lex_of_tokenize h, List.map_append, List.map_cons] at hshapes
  have hshaped := shaped_of_allShaped hshapes
  rwa [Option.or_none, List.getLast?_map] at hshaped

/-- A raw here document with a line that starts with a longer name, and a comment that is not
closed. -/
def shapedSource : Bytes := ascii "<?php <<<'A'\n  AB\n A;#b\n/*/"

/-- The line that starts with the longer name belongs to the body. -/
theorem tokenize_shapes_shapedSource :
    tokenize shapedSource =
      [⟨⟨.other, ascii "<?php "⟩, 1⟩, ⟨⟨.heredocStart, ascii "<<<'A'\n"⟩, 1⟩] ++
      ⟨⟨.nowdoc, ascii "  AB\n"⟩, 2⟩ ::
      [⟨⟨.other, ascii " A"⟩, 3⟩, ⟨⟨.other, ascii ";"⟩, 3⟩, ⟨⟨.comment, ascii "#b"⟩, 3⟩,
        ⟨⟨.whitespace, ascii "\n"⟩, 3⟩, ⟨⟨.comment, ascii "/*/"⟩, 4⟩] ∧
    ∃ label, Opens (ascii "<<<'A'\n") [singleQuote] label ∧
      ∀ line ∈ lines (ascii "  AB\n"), ¬ Closes label line := by
  refine (fun htokens => ⟨htokens, ?_⟩) (by decide +kernel)
  obtain ⟨opener, label, hopener, -, hopens, hlines⟩ := tokenize_shapes htokens
  obtain rfl := Option.some.inj hopener
  exact ⟨label, hopens, hlines⟩

end SourceTidy.Php
