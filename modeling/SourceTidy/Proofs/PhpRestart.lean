import SourceTidy.Proofs.PhpBeforeTag

/-! # The PHP lexer starts anew after a closing tag

A closing tag ends the code wherever it stands outside of literals. Before it nothing depends on
what comes after it, and after it nothing is left of what came before.

* `tagFree_code`, `tagFree_stepLiteral`: inside of literals, and in code that does not go on with a
  closing tag, no lexeme is one;
* `closingTag_cut`: a closing tag is cut off outside of literals, and the lexer then starts anew;
* `closing_tag_restarts`: the tokens up to a closing tag and those after it are the tokens of their
  own texts.
-/

namespace SourceTidy.Php

open Ascii Bytes

/-- A closing tag, with the line break right after it if there is one. -/
def IsClosingTag (text : Bytes) : Prop :=
  text = ascii "?>" ∨ text = ascii "?>\n" ∨ text = ascii "?>\r\n"

theorem IsClosingTag.atTag {text : Bytes} (h : IsClosingTag text) : AtTag text := by
  rcases h with rfl | rfl | rfl <;> exact ⟨_, rfl⟩

theorem IsClosingTag.bracket_not_mem {text : Bytes} (h : IsClosingTag text) :
    closeBracket ∉ text := by
  rcases h with rfl | rfl | rfl <;> decide

/-- Alone, a closing tag is one lexeme, in code and outside of it. -/
theorem lex_closingTag {s : State} (hs : s.frames = []) {text : Bytes} (h : IsClosingTag text) :
    lex s 0 text = [⟨.other, text⟩] := by
  obtain ⟨inCode, frames⟩ := s
  obtain rfl : frames = [] := hs
  cases inCode <;> rcases h with rfl | rfl | rfl <;> rfl

theorem AtTag.of_take {s : Bytes} {n : Nat} (h : AtTag (s.take n)) : AtTag s := by
  obtain ⟨more, hmore⟩ := h
  refine ⟨more ++ s.drop n, ?_⟩
  rw [← List.cons_append, ← List.cons_append, ← hmore, List.take_append_drop]

/-! ## Lexemes that are no closing tag -/

/-- No lexeme of the cuts is a closing tag. -/
def TagFree (cuts : List Cut) (s : Bytes) : Prop :=
  ∀ l ∈ cutUp cuts s, l.kind = .other → ¬ AtTag l.text

theorem tagFree_nil (s : Bytes) : TagFree [] s := by
  intro l hl
  cases hl

/-- Cuts are free of closing tags if the first one is, and the others are. -/
theorem tagFree_cons {c : Cut} {cuts : List Cut} {s : Bytes}
    (hc : c.extent ≠ 0 → c.kind = .other → ¬ AtTag (s.take c.extent))
    (hcuts : TagFree cuts (s.drop c.extent)) : TagFree (c :: cuts) s := by
  intro l hl
  rw [cutUp] at hl
  split at hl
  · next hempty =>
    have hdrop : s.drop c.extent = s := by
      rcases Bool.or_eq_true_iff.mp hempty with hzero | hnil
      · rw [of_decide_eq_true hzero, List.drop_zero]
      · rw [List.isEmpty_iff.mp hnil, List.drop_nil]
    rw [hdrop] at hcuts
    exact hcuts l hl
  · next hne =>
    rcases List.mem_cons.mp hl with rfl | hl
    · exact hc fun hzero => hne (by simp [hzero])
    · exact hcuts l hl

/-- A lexeme that is all that is cut off starts where the input does. -/
theorem tagFree_single {kind : TokenKind} {n : Nat} {s : Bytes} (h : ¬ AtTag s) :
    TagFree [⟨kind, n⟩] s :=
  tagFree_cons (fun _ _ htag => h htag.of_take) (tagFree_nil _)

/-- After the body of a raw here document stands the label that closes it, or nothing. -/
theorem nowdocBody_label (label : Bytes) (lineStart : Bool) (s : Bytes) :
    (nowdocBody label lineStart s).2 = 0 ∨
      closingLabel? label (s.drop (nowdocBody label lineStart s).1) =
        some (nowdocBody label lineStart s).2 := by
  fun_induction nowdocBody label lineStart s with
  | case1 lineStart s n hclosed =>
    right
    split at hclosed
    · exact hclosed
    · cases hclosed
  | case2 => exact Or.inl rfl
  | case3 lineStart b rest body n hrest hopen ih =>
    rw [hrest] at ih
    exact ih

/-- Where a here document opens, none of the lexemes that are cut off is a closing tag. -/
theorem tagFree_heredocLexemes {s : Bytes} (hs : ascii "<<<" <+: s) :
    TagFree (heredocLexemes s (heredocOpener? s)).1 s := by
  have hsign : ¬ AtTag s := by
    rintro ⟨more, rfl⟩
    exact absurd (List.cons_prefix_cons.mp hs).1 (by decide)
  cases hopener : heredocOpener? s with
  | none => exact tagFree_single hsign
  | some opener =>
    obtain ⟨_, _, _, -, ⟨_, _, -, -, -, hlabel⟩, -⟩ := opens_of_heredocOpener? hs hopener
    rw [heredocLexemes]
    split
    · refine tagFree_cons (fun _ hkind => by cases hkind) ?_
      refine tagFree_cons (fun _ hkind => by cases hkind) ?_
      refine tagFree_cons (fun hextent _ htag => ?_) (tagFree_nil _)
      -- the label that closes the body is no closing tag
      rcases nowdocBody_label opener.label true (s.drop opener.extent) with hzero | hclosed
      · exact hextent hzero
      · rw [closingLabel?_of_atTag htag.of_take hlabel] at hclosed
        cases hclosed
    · exact tagFree_single hsign

/-- One lexeme is cut off. -/
def IsSingle (lexeme : List Cut × Effect) : Prop := ∃ cut, lexeme.1 = [cut]

/-- Only a here document is more than one lexeme of code. -/
theorem isSingle_code (nested : Bool) {b : UInt8} {rest : Bytes} (h : ¬ ascii "<<<" <+: b :: rest) :
    IsSingle (code nested (b :: rest)) :=
  (codeLexeme_code nested b rest).single_or_heredoc (fun _ _ => ⟨_, rfl⟩)
    fun hopener => absurd hopener h

/-- In code a closing tag is cut off only where one stands, and not inside of an interpolation. -/
theorem tagFree_code {nested : Bool} {b : UInt8} {rest : Bytes}
    (h : nested = true ∨ ¬ AtTag (b :: rest)) :
    TagFree (code nested (b :: rest)).1 (b :: rest) := by
  by_cases htag : AtTag (b :: rest)
  · obtain ⟨more, hmore⟩ := htag
    obtain rfl : nested = true := h.resolve_right (not_not_intro ⟨more, hmore⟩)
    rw [hmore]
    refine tagFree_cons (fun _ _ hsign => ?_) (tagFree_nil _)
    obtain ⟨more, hsign⟩ := hsign
    cases hsign
  · by_cases hopener : ascii "<<<" <+: b :: rest
    · rw [code_heredoc nested hopener]
      exact tagFree_heredocLexemes hopener
    · obtain ⟨cut, hcut⟩ := isSingle_code nested hopener
      rw [hcut]
      exact tagFree_single htag

/-- A closing tag does not close a literal. -/
theorem Closer.at?_of_atTag {closer : Closer} (hcloser : closer.Proper) {s : Bytes} (h : AtTag s)
    (lineStart : Bool) : closer.at? lineStart s = none := by
  cases closer with
  | quote q =>
    obtain ⟨more, rfl⟩ := h
    rcases hcloser with rfl | rfl <;> rfl
  | label name =>
    rw [Closer.at?, closingLabel?_of_atTag h hcloser, ite_self]

/-- In interpolating text no closing tag is cut off. -/
theorem tagFree_stepLiteral (s : State) {closer : Closer} (hcloser : closer.Proper)
    (lineStart : Bool) (outer : List Frame) (input : Bytes) :
    TagFree (s.stepLiteral closer lineStart outer input).cuts input := by
  have hspec := segment_spec closer lineStart input
  have htext {n : Nat} {cuts : List Cut} (hcuts : TagFree cuts (input.drop n)) :
      TagFree (⟨.interpolated, n⟩ :: cuts) input :=
        tagFree_cons (fun _ hkind => by cases hkind) hcuts
  unfold State.stepLiteral
  rcases hfound : segment closer lineStart input with ⟨n, m | _ | _⟩
  -- after the text comes the delimiter, an interpolation or the end of the source
  · rw [hfound] at hspec
    obtain ⟨lineStart', hclosed⟩ := hspec
    refine htext (tagFree_single fun htag => ?_)
    rw [Closer.at?_of_atTag hcloser htag] at hclosed
    cases hclosed
  · rw [hfound] at hspec
    have hback : ¬ AtTag (input.drop n) := by
      rintro ⟨more, hmore⟩
      dsimp only at hspec
      rw [hmore] at hspec
      cases hspec
    dsimp only
    split
    · exact htext (tagFree_single hback)
    · split <;> exact htext (tagFree_single hback)
  · exact htext (tagFree_nil _)

/-! ## Where a closing tag is cut off -/

section

variable {s : State} {input : Bytes} {first last : List Lexeme} {l : Lexeme}

/-- A closing tag is not among the lexemes of such cuts. -/
theorem TagFree.false_of_cutUp {cuts : List Cut} (h : TagFree cuts input)
    (hcuts : cutUp cuts input = first ++ l :: last) (hkind : l.kind = .other)
    (htag : IsClosingTag l.text) :
    False :=
  h l (hcuts ▸ List.mem_append_right first List.mem_cons_self) hkind htag.atTag

/-- The lexeme is the first of a step, and after it the lexer starts anew. -/
def Restarts (s : State) (input : Bytes) (first : List Lexeme) (l : Lexeme)
    (last : List Lexeme) : Prop :=
  first = [] ∧ ∃ rest, input = l.text ++ rest ∧
    last ++ lex (s.step input).next 0 (input.drop (s.step input).extent) = lex .start 0 rest

/-- A step that cuts off one lexeme and goes on from the start. -/
theorem restarts_of_step {n : Nat} (hinput : input ≠ []) (hpos : 0 < n)
    (hstep : s.step input = ⟨[⟨.other, n⟩], .start⟩)
    (hcuts : cutUp (s.step input).cuts input = first ++ l :: last) :
    Restarts s input first l last := by
  rw [hstep, cutUp_cons_of_pos hpos hinput, cutUp, eq_comm, List.append_eq_singleton_iff] at hcuts
  rcases hcuts with ⟨rfl, hl⟩ | ⟨_, hl⟩
  · obtain ⟨rfl, rfl⟩ := List.cons.inj hl
    refine ⟨rfl, input.drop n, (List.take_append_drop n input).symm, ?_⟩
    rw [hstep]
    rfl
  · cases hl

/-- In the code of the file a closing tag is the first lexeme, and ends the code. -/
theorem restarts_code (htag : AtTag input)
    (hcuts : cutUp (State.step ⟨true, []⟩ input).cuts input = first ++ l :: last) :
    Restarts ⟨true, []⟩ input first l last := by
  have hstep : State.step ⟨true, []⟩ input = ⟨[⟨.other, closeTag input⟩], .start⟩ := by
    obtain ⟨more, rfl⟩ := htag
    rfl
  exact restarts_of_step htag.ne_nil (Nat.add_pos_left Nat.two_pos _) hstep hcuts

/-- An open tag that comes next is the next one. -/
theorem findOpenTag_of_openTag? {n : Nat} (h : openTag? input = some n) :
    findOpenTag input = (0, some n) := by
  cases input with
  | nil => cases h
  | cons b input => rw [findOpenTag, h]

/-- Where an open tag stands, the lexer goes on as it does at the start of a source with that
tag. -/
theorem lex_start_of_openTag? {m : Nat} (h : openTag? input = some m) :
    lex .start 0 input = cutUp [⟨.other, m⟩] input ++ lex ⟨true, []⟩ 0 (input.drop m) := by
  have hstep := step_start_of_some (findOpenTag_of_openTag? h)
  have hinput : input ≠ [] := by
    rintro rfl
    cases h
  have hextent : (State.start.step input).extent = m := by
    rw [hstep, Step.extent_eq]
    simp [cutExtent]
  rw [lex_step labelled_start hinput, hextent, hstep, cutUp_cons_of_zero rfl]

/-- Outside of the code a text may look like a closing tag. -/
theorem restarts_start (hinput : input ≠ []) (hkind : l.kind = .other) (htag : IsClosingTag l.text)
    (hcuts : cutUp (State.start.step input).cuts input = first ++ l :: last) :
    Restarts .start input first l last := by
  have hspec := findOpenTag_spec input
  rcases hfound : findOpenTag input with ⟨n, _ | m⟩
  · rw [hfound] at hspec
    have hpos : 0 < n := hspec ▸ List.length_pos_iff.mpr hinput
    exact restarts_of_step hinput hpos (step_start_of_none hfound) hcuts
  · rw [hfound] at hspec
    have hstep := step_start_of_some hfound
    -- the open tag is no closing tag
    have hfree : TagFree [⟨.other, m⟩] (input.drop n) := by
      refine tagFree_single fun hnext => ?_
      have hnone := openTag?_of_atTag (s := []) hnext (by decide)
      rw [List.nil_append, hspec] at hnone
      cases hnone
    rcases Nat.eq_zero_or_pos n with rfl | hpos
    · rw [hstep, cutUp_cons_of_zero rfl] at hcuts
      exact (hfree.false_of_cutUp hcuts hkind htag).elim
    · rw [hstep, cutUp_cons_of_pos hpos hinput] at hcuts
      cases first with
      | cons l' first => exact (hfree.false_of_cutUp (List.cons.inj hcuts).2 hkind htag).elim
      | nil =>
        obtain ⟨rfl, rfl⟩ := List.cons.inj hcuts
        refine ⟨rfl, input.drop n, (List.take_append_drop n input).symm, ?_⟩
        rw [lex_start_of_openTag? hspec, List.drop_drop, hstep, Step.extent_eq]
        rfl

/-- A closing tag is cut off outside of literals, and the lexer then starts anew. -/
theorem closingTag_cut (hs : s.Proper)
    (hcuts : cutUp (s.step input).cuts input = first ++ l :: last) (hkind : l.kind = .other)
    (htag : IsClosingTag l.text) :
    s.frames = [] ∧ Restarts s input first l last := by
  obtain ⟨b, rest, rfl⟩ : ∃ b rest, input = b :: rest := by
    refine List.exists_cons_of_ne_nil ?_
    rintro rfl
    rw [cutUp_nil, eq_comm, List.append_eq_nil_iff] at hcuts
    cases hcuts.2
  obtain ⟨inCode, frames⟩ := s
  -- in a literal and in code inside of one, no lexeme is a closing tag; so nothing is open
  match frames with
  | .literal closer lineStart :: outer =>
    have hcloser := hs closer lineStart List.mem_cons_self
    exact ((tagFree_stepLiteral _ hcloser lineStart outer _).false_of_cutUp hcuts hkind htag).elim
  | .code braces :: outer =>
    exact ((tagFree_code (Or.inl rfl)).false_of_cutUp hcuts hkind htag).elim
  | [] =>
    refine ⟨rfl, ?_⟩
    cases inCode with
    | false => exact restarts_start (List.cons_ne_nil b rest) hkind htag hcuts
    | true =>
      by_cases hnext : AtTag (b :: rest)
      · exact restarts_code hnext hcuts
      · exact ((tagFree_code (Or.inr hnext)).false_of_cutUp hcuts hkind htag).elim

end

/-- The lexer starts anew after every closing tag: the tokens up to it are those of their own text,
and so are the tokens after it, but for their lines. -/
theorem closing_tag_restarts {source : Bytes} {before after : List Token} {t : Token}
    (h : tokenize source = before ++ t :: after) (hkind : t.kind = .other)
    (htag : IsClosingTag t.text) :
    tokenize ((before ++ [t]).flatMap (·.text)) = before ++ [t] ∧
      after = (tokenize (after.flatMap (·.text))).map
        (·.moved (lineBreaks ((before ++ [t]).flatMap (·.text)))) := by
  have hlex := lex_of_tokenize h
  rw [List.map_append, List.map_cons] at hlex
  obtain ⟨text, rest, lexemes, s, first, last, hsource, hreads, hbefore, hcuts, hafter⟩ :=
    cutOff_of_lex labelled_start hlex
  obtain ⟨hframes, rfl, back, rfl, hrestart⟩ :=
    closingTag_cut (hreads.proper proper_start) hcuts hkind htag
  rw [hrestart] at hafter
  have hrest : AtTag (t.text ++ back) := by
    obtain ⟨more, hmore⟩ := htag.atTag
    exact ⟨more ++ back, by rw [hmore]; rfl⟩
  -- up to the tag the lexer has read the same, whatever follows the tag
  have hfront : lex .start 0 (text ++ t.text) = (before ++ [t]).map (·.toLexeme) := by
    have hcut := hreads.atTag hrest htag.atTag htag.bracket_not_mem proper_start hframes
    rw [hcut.lex_eq labelled_start, lex_closingTag hframes htag, List.map_append, hbefore,
      List.append_nil, ← hkind]
    rfl
  -- what the tokens before the tag are made of, and those after it
  have htexts : (before ++ [t]).flatMap (·.text) = text ++ t.text := by
    rw [← flatMap_text_lex labelled_start (text ++ t.text), hfront, List.flatMap_map]
  have hback : after.flatMap (·.text) = back := by
    rw [← flatMap_text_lex labelled_start back, ← hafter, List.flatMap_map]
  have htokens : numberLines 1 (lex .start 0 source) = before ++ [t] ++ after := by
    rw [← tokenize, h, List.append_assoc, List.singleton_append]
  obtain ⟨hfrontTokens, hbackTokens⟩ := numberLines_eq_append htokens
  constructor
  · rw [htexts, tokenize, hfront, ← hfrontTokens]
  · rw [hback, tokenize, ← numberLines_add, ← hafter]
    exact hbackTokens

/-- A source with a literal of two lines and a line comment before its closing tag. -/
def taggedSource : Bytes := ascii "<?php `\x7b$a\x7d\n`#?>\n]<?='b"

/-- The tokens before the closing tag. -/
def taggedFront : List Token :=
  [⟨⟨.other, ascii "<?php "⟩, 1⟩, ⟨⟨.other, [backtick]⟩, 1⟩, ⟨⟨.other, [openBrace]⟩, 1⟩,
    ⟨⟨.other, ascii "$a"⟩, 1⟩, ⟨⟨.other, [closeBrace]⟩, 1⟩, ⟨⟨.interpolated, [lf]⟩, 1⟩,
    ⟨⟨.other, [backtick]⟩, 2⟩, ⟨⟨.comment, [hash]⟩, 2⟩]

/-- Its closing tag. -/
def taggedClose : Token := ⟨⟨.other, ascii "?>\n"⟩, 2⟩

/-- The tokens after it. -/
def taggedBack : List Token :=
  [⟨⟨.other, [closeBracket]⟩, 3⟩, ⟨⟨.other, ascii "<?="⟩, 3⟩, ⟨⟨.singleQuoted, ascii "'b"⟩, 3⟩]

theorem closing_tag_restarts_taggedSource :
    tokenize taggedSource = taggedFront ++ taggedClose :: taggedBack ∧
      tokenize ((taggedFront ++ [taggedClose]).flatMap (·.text)) = taggedFront ++ [taggedClose] ∧
      taggedBack = (tokenize (taggedBack.flatMap (·.text))).map
        (·.moved (lineBreaks ((taggedFront ++ [taggedClose]).flatMap (·.text)))) := by
  refine (fun htokens => ⟨htokens, ?_⟩) (by decide +kernel)
  exact closing_tag_restarts htokens rfl (Or.inr (Or.inl rfl))

end SourceTidy.Php
