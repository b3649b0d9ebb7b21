import Mathlib.Tactic.Common
import SourceTidy.Php.Lexer

/-! # The PHP lexer loses nothing

The lexer cuts the source into lexemes, step by step. The invariant of its run is `State.Labelled`:
every here document that is open has a label that is not empty, so that its end cannot be found over
and over in the same place.

* `segment_spec`, `findOpenTag_spec`: what is found at the end of a run of text;
* `CodeLexeme`, `codeLexeme_code`: what comes next in code, branch by branch;
* `step_spec`: a step keeps the invariant and takes an octet at least;
* `lex_step`, `lex_induction`: a run is a sequence of steps, each on what the one before it left;
* `tokenize_lossless`: the tokens of a source join to it, none is empty, and each has its line.
-/

namespace SourceTidy.Php

open Ascii Bytes

/-! ## How far lexemes reach -/

/-- A label is not empty. -/
def Closer.Labelled : Closer → Prop
  | .quote _ => True
  | .label name => name ≠ []

/-- What closes a here document is not empty, since its label is not. -/
theorem closingLabel_pos {label s : Bytes} {n : Nat} (hlabel : label ≠ [])
    (h : closingLabel? label s = some n) : 0 < n := by
  have hlength : 0 < label.length := List.length_pos_iff.mpr hlabel
  simp only [closingLabel?] at h
  split at h
  · cases h
    omega
  · cases h

/-- What closes a literal takes an octet at least. -/
theorem Closer.at_pos {closer : Closer} {lineStart : Bool} {s : Bytes} {n : Nat}
    (hcloser : closer.Labelled) (h : closer.at? lineStart s = some n) : 0 < n := by
  cases closer with
  | quote q =>
    simp only [Closer.at?] at h
    split at h
    · cases h
      exact Nat.one_pos
    · cases h
  | label name =>
    simp only [Closer.at?] at h
    split at h
    · exact closingLabel_pos hcloser h
    · cases h

/-- A run of literal text ends where its delimiter stands, where an interpolation starts, or with
the source. -/
theorem segment_spec (closer : Closer) (lineStart : Bool) (s : Bytes) :
    match segment closer lineStart s with
    | (n, .closed m) => ∃ lineStart', closer.at? lineStart' (s.drop n) = some m
    | (n, .interpolation) => startsInterpolation (s.drop n) = true
    | (n, .input) => n = s.length := by
  fun_induction segment closer lineStart s with
  | case1 => rfl
  | case2 lineStart b rest n h => exact ⟨lineStart, h⟩
  | case3 => rfl
  | case4 lineStart c rest n stop hrest _ ih =>
    rw [hrest] at ih
    cases stop <;> simpa using ih
  | case5 lineStart b rest _ _ h => exact h
  | case6 lineStart b rest _ _ _ n stop hrest ih =>
    rw [hrest] at ih
    cases stop <;> simpa using ih

/-- An open tag takes an octet at least. -/
theorem openTag_pos {s : Bytes} {n : Nat} (h : openTag? s = some n) : 0 < n := by
  unfold openTag? at h
  split at h
  · cases h
    omega
  · split at h
    · cases h
      omega
    · split at h
      · cases h
        omega
      · cases h

/-- Text outside of the code ends at an open tag or with the source. -/
theorem findOpenTag_spec (s : Bytes) :
    match findOpenTag s with
    | (n, some m) => openTag? (s.drop n) = some m
    | (n, none) => n = s.length := by
  fun_induction findOpenTag s with
  | case1 => rfl
  | case2 b rest n h => exact h
  | case3 b rest _ before tag hrest ih =>
    rw [hrest] at ih
    cases tag <;> simpa using ih

/-- A line comment takes its opener at least. -/
theorem lineComment_pos {nested : Bool} {b : UInt8} {rest : Bytes} (h : b = hash ∨ b = slash) :
    0 < lineComment nested (b :: rest) := by
  have hends : b ≠ lf ∧ b ≠ cr ∧ b ≠ question := by
    rcases h with rfl | rfl <;> decide
  simp [lineComment, hends]

theorem runLength_pos {p : UInt8 → Bool} {b : UInt8} {rest : Bytes} (h : p b = true) :
    0 < runLength p (b :: rest) := by
  simp [runLength, h]

theorem braceOpener_pos {s : Bytes} {n : Nat} (h : braceOpener? s = some n) : 0 < n := by
  unfold braceOpener? at h
  split at h
  · cases h
    omega
  · split at h
    · cases h
      omega
    · cases h

theorem simpleVariable_pos (s : Bytes) : 0 < simpleVariable s := by
  simp only [simpleVariable]
  split
  · omega
  · split <;> omega

/-- What comes next is the first octet. -/
theorem exists_of_nextIn {p : UInt8 → Bool} {s : Bytes} (h : nextIn p s = true) :
    ∃ b rest, s = b :: rest ∧ p b = true := by
  cases s with
  | nil => cases h
  | cons b rest => exact ⟨b, rest, rfl, h⟩

/-- An opener of a here document takes something, and names a label. -/
theorem heredocOpener_spec {s : Bytes} {opener : HeredocOpener}
    (h : heredocOpener? s = some opener) : 0 < opener.extent ∧ opener.label ≠ [] := by
  unfold heredocOpener? at h
  extract_lets blanks afterBlanks quote quoteWidth labelText label afterLabel at h
  split at h
  · cases h
  · next hstart =>
    split at h
    · cases h
    · split at h
      · cases h
      · cases h
        refine ⟨by simp only; omega, ?_⟩
        obtain ⟨b, rest, hlabel, hb⟩ := exists_of_nextIn (by simpa using hstart)
        have hident : isIdent b = true := by simp [isIdent, hb]
        -- the label goes on from the octet that starts it
        show labelText.takeWhile isIdent ≠ []
        rw [hlabel, List.takeWhile_cons_of_pos hident]
        exact List.cons_ne_nil _ _

/-! ## Steps -/

/-- How much of the source the cuts take. -/
def cutExtent (cuts : List Cut) : Nat := cuts.foldr (fun c n => c.extent + n) 0

@[simp] theorem cutExtent_cons (c : Cut) (cuts : List Cut) :
    cutExtent (c :: cuts) = c.extent + cutExtent cuts := rfl

theorem Step.extent_eq (step : Step) : step.extent = cutExtent step.cuts := rfl

/-- A step that cuts text off, and then something that is not empty. -/
theorem Step.extent_pos {text found : Cut} {next : State} (h : 0 < found.extent) :
    0 < Step.extent ⟨[text, found], next⟩ :=
  Nat.add_pos_right _ (Nat.add_pos_left h _)

/-- No here document is opened without a label. -/
def Effect.Labelled : Effect → Prop
  | .enter closer _ => closer.Labelled
  | _ => True

/-- A lexeme of code that takes something and opens no here document without a label. -/
def Advances (lexeme : List Cut × Effect) : Prop :=
  0 < cutExtent lexeme.1 ∧ lexeme.2.Labelled

theorem advances_cons {kind : TokenKind} {n : Nat} {cuts : List Cut} {effect : Effect} (hn : 0 < n)
    (heffect : effect.Labelled) : Advances (⟨kind, n⟩ :: cuts, effect) :=
  ⟨Nat.add_pos_left hn _, heffect⟩

/-- The lexemes at the opener of a here document. -/
def heredocLexemes (s : Bytes) : Option HeredocOpener → List Cut × Effect
  | none => ([⟨.other, 1⟩], .none)
  | some opener =>
    if opener.raw then
      let body := nowdocBody opener.label true (s.drop opener.extent)
      ([⟨.heredocStart, opener.extent⟩, ⟨.nowdoc, body.1⟩, ⟨.other, body.2⟩], .none)
    else ([⟨.heredocStart, opener.extent⟩], .enter (.label opener.label) true)

/-- After three signs a here document is looked for before all else. -/
theorem code_heredoc (nested : Bool) {s : Bytes} (h : ascii "<<<" <+: s) :
    code nested s = heredocLexemes s (heredocOpener? s) := by
  obtain ⟨more, rfl⟩ := h
  have hcode : code nested (ascii "<<<" ++ more) =
      match heredocOpener? (ascii "<<<" ++ more) with
      | none => ([⟨.other, 1⟩], .none)
      | some opener => heredocLexemes (ascii "<<<" ++ more) (some opener) := by
    cases nested <;> rfl
  rw [hcode]
  cases heredocOpener? (ascii "<<<" ++ more) <;> rfl

/-- What comes next in code, and by which octets: a constructor for each branch of `code`. -/
inductive CodeLexeme (nested : Bool) : Bytes → List Cut × Effect → Prop
  | spacing {b rest} (h : isSpacing b = true) :
      CodeLexeme nested (b :: rest) ([⟨.whitespace, runLength isSpacing (b :: rest)⟩], .none)
  | closingTag {rest} (h : nextIs greater rest = true) :
      CodeLexeme nested (question :: rest) ([⟨.other, closeTag (question :: rest)⟩], .leave)
  | attributes {rest} (h : nextIs openBracket rest = true) :
      CodeLexeme nested (hash :: rest) ([⟨.other, 2⟩], .none)
  | lineComment {b rest} (hopener : b = hash ∨ b = slash ∧ nextIs slash rest = true)
      (hattributes : ¬ (b = hash ∧ nextIs openBracket rest = true)) :
      CodeLexeme nested (b :: rest) ([⟨.comment, lineComment nested (b :: rest)⟩], .none)
  | blockComment {rest} (h : nextIs star rest = true) :
      CodeLexeme nested (slash :: rest) ([⟨.comment, blockComment (slash :: rest)⟩], .none)
  | singleQuoted {rest} :
      CodeLexeme nested (singleQuote :: rest)
        ([⟨.singleQuoted, untilQuote singleQuote rest + 1⟩], .none)
  | doubleQuoted {rest n} (h : plainUntilQuote? rest = some n) :
      CodeLexeme nested (doubleQuote :: rest) ([⟨.doubleQuoted, n + 1⟩], .none)
  | interpolating {rest} :
      CodeLexeme nested (doubleQuote :: rest) ([⟨.other, 1⟩], .enter (.quote doubleQuote) false)
  | shell {rest} :
      CodeLexeme nested (backtick :: rest) ([⟨.other, 1⟩], .enter (.quote backtick) false)
  | heredoc {s} (h : ascii "<<<" <+: s) :
      CodeLexeme nested s (heredocLexemes s (heredocOpener? s))
  | openBrace {rest} : CodeLexeme nested (Ascii.openBrace :: rest) ([⟨.other, 1⟩], .openBrace)
  | closeBrace {rest} : CodeLexeme nested (Ascii.closeBrace :: rest) ([⟨.other, 1⟩], .closeBrace)
  | name {b rest} (h : isName b = true) :
      CodeLexeme nested (b :: rest) ([⟨.other, 1 + runLength isName rest⟩], .none)
  | sign {b rest} (h : isName b = false) : CodeLexeme nested (b :: rest) ([⟨.other, 1⟩], .none)

/-- The only walk through the branches: what holds of each of them holds of the next lexeme. -/
theorem codeLexeme_code (nested : Bool) (b : UInt8) (rest : Bytes) :
    CodeLexeme nested (b :: rest) (code nested (b :: rest)) := by
  rw [code.eq_def]
  dsimp only
  simp only [Bool.or_eq_true, Bool.and_eq_true, decide_eq_true_eq]
  refine iteInduction (fun hspacing => .spacing hspacing) fun _ => ?_
  refine iteInduction (fun htag => ?_) fun _ => ?_
  · obtain ⟨⟨-, rfl⟩, hnext⟩ := htag
    exact .closingTag hnext
  refine iteInduction (fun hattributes => ?_) fun hattributes => ?_
  · obtain ⟨rfl, hnext⟩ := hattributes
    exact .attributes hnext
  refine iteInduction (fun hcomment => .lineComment hcomment hattributes) fun _ => ?_
  refine iteInduction (fun hcomment => ?_) fun _ => ?_
  · obtain ⟨rfl, hnext⟩ := hcomment
    exact .blockComment hnext
  refine iteInduction (fun hquote => ?_) fun _ => ?_
  · subst hquote
    rw [singleQuoted, Nat.add_comm]
    exact .singleQuoted
  refine iteInduction (fun hquote => ?_) fun _ => ?_
  · subst hquote
    split
    · next hquoted =>
      obtain ⟨n, hn, rfl⟩ := Option.map_eq_some_iff.mp hquoted
      exact .doubleQuoted hn
    · exact .interpolating
  refine iteInduction (fun hquote => ?_) fun _ => ?_
  · subst hquote
    exact .shell
  refine iteInduction (fun hopener => ?_) fun _ => ?_
  · have hheredoc : CodeLexeme nested (b :: rest) _ :=
      .heredoc (List.isPrefixOf_iff_prefix.mp hopener)
    cases hfound : heredocOpener? (b :: rest) with
    | none => rwa [hfound] at hheredoc
    | some opener => rwa [hfound] at hheredoc
  refine iteInduction (fun hbrace => hbrace ▸ .openBrace) fun _ => ?_
  refine iteInduction (fun hbrace => hbrace ▸ .closeBrace) fun _ => ?_
  exact iteInduction (fun hname => .name hname) fun hname => .sign (Bool.eq_false_iff.mpr hname)

/-- Every lexeme of code takes an octet at least, and opens no label that is empty. -/
theorem CodeLexeme.advances {nested : Bool} {s : Bytes} {lexeme : List Cut × Effect}
    (h : CodeLexeme nested s lexeme) : Advances lexeme := by
  cases h with
  | spacing hspacing => exact advances_cons (runLength_pos hspacing) trivial
  | closingTag => exact advances_cons (Nat.add_pos_left Nat.two_pos _) trivial
  | attributes => exact advances_cons Nat.two_pos trivial
  | lineComment hopener =>
    exact advances_cons (lineComment_pos (hopener.imp_right And.left)) trivial
  | blockComment => exact advances_cons (Nat.add_pos_left Nat.two_pos _) trivial
  | singleQuoted => exact advances_cons (Nat.succ_pos _) trivial
  | doubleQuoted => exact advances_cons (Nat.succ_pos _) trivial
  | interpolating => exact advances_cons Nat.one_pos trivial
  | shell => exact advances_cons Nat.one_pos trivial
  -- without an opener the sign is taken by itself; with one, the label that it has is not empty
  | heredoc =>
    cases hopener : heredocOpener? s with
    | none => exact advances_cons Nat.one_pos trivial
    | some opener =>
      obtain ⟨hextent, hlabel⟩ := heredocOpener_spec hopener
      exact iteInduction (fun _ => advances_cons hextent trivial)
        fun _ => advances_cons hextent hlabel
  | openBrace => exact advances_cons Nat.one_pos trivial
  | closeBrace => exact advances_cons Nat.one_pos trivial
  | name => exact advances_cons (Nat.add_pos_left Nat.one_pos _) trivial
  | sign => exact advances_cons Nat.one_pos trivial

/-- The label of an open here document is not empty. -/
def Frame.Labelled : Frame → Prop
  | .code _ => True
  | .literal closer _ => closer.Labelled

/-- Every here document that is open has a label that is not empty. -/
def State.Labelled (s : State) : Prop := ∀ frame ∈ s.frames, frame.Labelled

theorem labelled_start : State.start.Labelled := List.forall_mem_nil _

/-- The innermost frame has a label, and so have those around it. -/
theorem State.Labelled.uncons {s : State} {frame : Frame} {outer : List Frame} (hs : s.Labelled)
    (h : s.frames = frame :: outer) : frame.Labelled ∧ ∀ f ∈ outer, f.Labelled := by
  rw [State.Labelled, h] at hs
  exact List.forall_mem_cons.mp hs

/-- A lexeme that opens nothing without a label leaves a state in which all labels are there. -/
theorem labelled_after {s : State} {effect : Effect} (hs : s.Labelled)
    (heffect : effect.Labelled) : (s.after effect).Labelled := by
  cases effect with
  | none => exact hs
  | leave => exact hs
  | enter closer lineStart => exact List.forall_mem_cons.mpr ⟨heffect, hs⟩
  | openBrace =>
    simp only [State.after]
    split
    · next hframes => exact List.forall_mem_cons.mpr ⟨trivial, (hs.uncons hframes).2⟩
    · exact hs
  | closeBrace =>
    simp only [State.after]
    split
    · next hframes => exact (hs.uncons hframes).2
    · next hframes => exact List.forall_mem_cons.mpr ⟨trivial, (hs.uncons hframes).2⟩
    · exact hs

/-- A step in interpolating text takes something: its delimiter, an interpolation, or the rest. -/
theorem stepLiteral_spec {s : State} {closer : Closer} {lineStart : Bool} {outer : List Frame}
    {input : Bytes} (hs : s.Labelled) (hframes : s.frames = .literal closer lineStart :: outer)
    (hinput : input ≠ []) :
    0 < (s.stepLiteral closer lineStart outer input).extent ∧
      (s.stepLiteral closer lineStart outer input).next.Labelled := by
  obtain ⟨hcloser, houter⟩ := hs.uncons hframes
  have hresumed : ∀ f ∈ Frame.literal closer false :: outer, f.Labelled :=
    List.forall_mem_cons.mpr ⟨hcloser, houter⟩
  have hsegment := segment_spec closer lineStart input
  unfold State.stepLiteral
  generalize segment closer lineStart input = found at hsegment ⊢
  obtain ⟨n, stop⟩ := found
  cases stop with
  | input =>
    have hn : 0 < n := hsegment ▸ List.length_pos_iff.mpr hinput
    exact ⟨Nat.add_pos_left hn _, hs⟩
  | closed m =>
    obtain ⟨_, hat⟩ := hsegment
    exact ⟨Step.extent_pos (Closer.at_pos hcloser hat), houter⟩
  | interpolation =>
    -- an interpolation has an opener, so the source does not end before it
    have hrest : input.drop n ≠ [] := fun hnil => by simp [hnil, startsInterpolation] at hsegment
    dsimp only
    split
    · exact ⟨Step.extent_pos (simpleVariable_pos _), hresumed⟩
    · next m hopener =>
      split
      · -- nested too deep: the rest is one lexeme
        exact ⟨Step.extent_pos (List.length_pos_iff.mpr hrest), hs⟩
      · exact ⟨Step.extent_pos (braceOpener_pos hopener),
          List.forall_mem_cons.mpr ⟨trivial, hresumed⟩⟩

/-- A step takes an octet at least, and leaves no here document open without a label. -/
theorem step_spec {s : State} {input : Bytes} (hs : s.Labelled) (hinput : input ≠ []) :
    0 < (s.step input).extent ∧ (s.step input).next.Labelled := by
  obtain ⟨b, rest, rfl⟩ := List.exists_cons_of_ne_nil hinput
  unfold State.step
  split
  · next hframes => exact stepLiteral_spec hs hframes hinput
  · obtain ⟨hpos, heffect⟩ := (codeLexeme_code true b rest).advances
    exact ⟨hpos, labelled_after hs heffect⟩
  · split
    · obtain ⟨hpos, heffect⟩ := (codeLexeme_code false b rest).advances
      exact ⟨hpos, labelled_after hs heffect⟩
    · have htag := findOpenTag_spec (b :: rest)
      split
      · next n hfound =>
        rw [hfound] at htag
        have hn : 0 < n := htag ▸ Nat.succ_pos _
        exact ⟨Nat.add_pos_left hn _, hs⟩
      · next n m hfound =>
        rw [hfound] at htag
        exact ⟨Step.extent_pos (openTag_pos htag), hs⟩

/-! ## Runs -/

/-- The texts that are cut off make up what the cuts take. -/
theorem flatMap_text_cutUp (cuts : List Cut) (s : Bytes) :
    (cutUp cuts s).flatMap (·.text) = s.take (cutExtent cuts) := by
  fun_induction cutUp cuts s with
  | case1 => rfl
  | case2 c cuts s hempty ih =>
    rw [ih]
    simp only [Bool.or_eq_true, decide_eq_true_eq, List.isEmpty_iff] at hempty
    rcases hempty with hextent | rfl
    · simp [hextent]
    · simp
  | case3 c cuts s _ ih =>
    rw [List.flatMap_cons, ih, cutExtent_cons, List.take_add]

/-- No lexeme of a step is empty. -/
theorem text_ne_nil_of_mem_cutUp {cuts : List Cut} {s : Bytes} {l : Lexeme}
    (h : l ∈ cutUp cuts s) : l.text ≠ [] := by
  fun_induction cutUp cuts s with
  | case1 => cases h
  | case2 c cuts s _ ih => exact ih h
  | case3 c cuts s hsome ih =>
    rcases List.mem_cons.mp h with rfl | hmem
    · simpa [List.take_eq_nil_iff] using hsome
    · exact ih hmem

/-- Octets that are cut off already are passed over. -/
theorem lex_skip (s : State) (skip : Nat) (input : Bytes) :
    lex s skip input = lex s 0 (input.drop skip) := by
  induction input generalizing skip with
  | nil => simp [lex]
  | cons b rest ih =>
    cases skip with
    | zero => rfl
    | succ skip => simpa [lex] using ih skip

/-- The lexer takes one step, and goes on with what the step has left. -/
theorem lex_step {s : State} {input : Bytes} (hs : s.Labelled) (hinput : input ≠ []) :
    lex s 0 input = cutUp (s.step input).cuts input ++
      lex (s.step input).next 0 (input.drop (s.step input).extent) := by
  have hpos := (step_spec hs hinput).1
  obtain ⟨b, rest, rfl⟩ := List.exists_cons_of_ne_nil hinput
  -- `lex` passes over the first octet of the step itself, and counts the others
  have hdrop : (b :: rest).drop (s.step (b :: rest)).extent
      = rest.drop ((s.step (b :: rest)).extent - 1) := by
    obtain ⟨n, hn⟩ := Nat.exists_eq_add_one.mpr hpos
    rw [hn, List.drop_succ_cons, Nat.add_sub_cancel]
  rw [hdrop, ← lex_skip]
  simp only [lex]

/-- What holds of no lexemes at the end of a source, and of the lexemes from a step on if it holds
of those after the step, holds of every run. -/
theorem lex_induction {motive : State → Bytes → List Lexeme → Prop}
    (hend : ∀ s, s.Labelled → motive s [] [])
    (hstep : ∀ (s : State) (input : Bytes) (lexemes : List Lexeme), s.Labelled → input ≠ [] →
      motive (s.step input).next (input.drop (s.step input).extent) lexemes →
      motive s input (cutUp (s.step input).cuts input ++ lexemes))
    {s : State} (hs : s.Labelled) (input : Bytes) : motive s input (lex s 0 input) := by
  -- each step leaves less of the source
  induction hlength : input.length using Nat.strongRecOn generalizing s input with
  | _ n ih =>
    by_cases hinput : input = []
    · rw [hinput, lex]
      exact hend s hs
    · obtain ⟨hpos, hnext⟩ := step_spec hs hinput
      have hrest : (input.drop (s.step input).extent).length < n := by
        have hsome := List.length_pos_iff.mpr hinput
        rw [List.length_drop]
        omega
      rw [lex_step hs hinput]
      exact hstep s input _ hs hinput (ih _ hrest hnext _ rfl)

/-- The lexemes of a source join to the source. -/
theorem flatMap_text_lex {s : State} (hs : s.Labelled) (input : Bytes) :
    (lex s 0 input).flatMap (·.text) = input := by
  refine lex_induction (motive := fun _ input lexemes => lexemes.flatMap (·.text) = input)
    (fun _ _ => rfl) ?_ hs input
  intro s input lexemes _ _ ih
  rw [List.flatMap_append, flatMap_text_cutUp, ih, Step.extent_eq, List.take_append_drop]

/-- No lexeme of a run is empty. -/
theorem text_ne_nil_of_mem_lex {s : State} (hs : s.Labelled) (input : Bytes) :
    ∀ l ∈ lex s 0 input, l.text ≠ [] := by
  refine lex_induction (motive := fun _ _ lexemes => ∀ l ∈ lexemes, l.text ≠ [])
    (fun _ _ => List.forall_mem_nil _) ?_ hs input
  intro s input lexemes _ _ ih
  exact List.forall_mem_append.mpr ⟨fun l => text_ne_nil_of_mem_cutUp, ih⟩

/-! ## Lines -/

/-- Numbers of lines are all that is added. -/
theorem map_toLexeme_numberLines (line : Nat) (lexemes : List Lexeme) :
    (numberLines line lexemes).map (·.toLexeme) = lexemes := by
  induction lexemes generalizing line with
  | nil => rfl
  | cons l rest ih => rw [numberLines, List.map_cons, ih]

theorem flatMap_text_numberLines (line : Nat) (lexemes : List Lexeme) :
    (numberLines line lexemes).flatMap (·.text) = lexemes.flatMap (·.text) := by
  have h := congrArg (List.flatMap (·.text)) (map_toLexeme_numberLines line lexemes)
  rwa [List.flatMap_map] at h

/-- A token starts on the first line, plus one for each line feed before it. -/
theorem line_of_numberLines_eq {line : Nat} {lexemes : List Lexeme} {before after : List Token}
    {t : Token} (h : numberLines line lexemes = before ++ t :: after) :
    t.line = line + lineBreaks (before.flatMap (·.text)) := by
  induction before generalizing line lexemes with
  | nil =>
    cases lexemes with
    | nil => cases h
    | cons l rest =>
      obtain ⟨rfl, -⟩ := List.cons.inj h
      rfl
  | cons first before ih =>
    cases lexemes with
    | nil => cases h
    | cons l rest =>
      obtain ⟨rfl, hrest⟩ := List.cons.inj h
      rw [ih hrest, List.flatMap_cons, lineBreaks, lineBreaks, lineBreaks, List.count_append,
        Nat.add_assoc]

/-- The texts of the tokens join to the source, whatever the source; no token is empty, and each
has the number of the line it starts on. -/
theorem tokenize_lossless (source : Bytes) :
    (tokenize source).flatMap (·.text) = source ∧
      (∀ t ∈ tokenize source, t.text ≠ []) ∧
      ∀ before t after, tokenize source = before ++ t :: after →
        t.line = 1 + lineBreaks (before.flatMap (·.text)) := by
  refine ⟨?_, fun t ht => ?_, fun before t after h => line_of_numberLines_eq h⟩
  · rw [tokenize, flatMap_text_numberLines, flatMap_text_lex labelled_start]
  · have hmem : t.toLexeme ∈ lex .start 0 source := by
      rw [← map_toLexeme_numberLines 1 (lex .start 0 source)]
      exact List.mem_map_of_mem ht
    exact text_ne_nil_of_mem_lex labelled_start source _ hmem

end SourceTidy.Php
