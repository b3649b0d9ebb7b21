import SourceTidy.Proofs.PhpExtents

/-! # Runs of the PHP lexer over a part of the source

The lexer looks ahead, so what it makes of a part of the source depends on what comes after that
part. `Reads` is the judgement about a part with the rest of the source given.

* `Reads.lex_eq`: the lexemes of a part come first among those of the source, and the lexer goes on
  in the state in which it has left the part;
* `cutOff_of_lex`: up to every lexeme the lexer has read a part of the source, apart from what it
  has cut off in the same step;
* `code_singleQuote`, `code_comment`, `code_doubleQuote`: what a lexeme of code is by its first
  octets;
* `CodeLexeme.single_or_heredoc`: what comes next in code is one lexeme or a here document;
* `proper_step`: what ends an open literal is a quote or a label, all along a run;
* `numberLines_append`, `numberLines_add`: the lines of the tokens of two parts.
-/

namespace SourceTidy.Php

open Ascii Bytes

/-- In state `s` and with `rest` after it, the text is cut into the lexemes, and the lexer is then
in state `s'`. -/
inductive Reads (rest : Bytes) : State → Bytes → List Lexeme → State → Prop
  | done (s : State) : Reads rest s [] [] s
  | step {s s' : State} {step : Step} {front back : Bytes} {lexemes : List Lexeme}
      (hstep : s.step (front ++ (back ++ rest)) = step) (hextent : step.extent = front.length)
      (hne : front ≠ []) (hback : Reads rest step.next back lexemes s') :
      Reads rest s (front ++ back) (cutUp step.cuts front ++ lexemes) s'

/-! ## Cuts inside of a part -/

theorem cutUp_nil (cuts : List Cut) : cutUp cuts [] = [] := by
  induction cuts with
  | nil => rfl
  | cons c cuts ih => simpa [cutUp] using ih

theorem cutUp_cons_of_zero {c : Cut} (h : c.extent = 0) (cuts : List Cut) (s : Bytes) :
    cutUp (c :: cuts) s = cutUp cuts s := by
  rw [cutUp, if_pos]
  simp [h]

theorem cutUp_cons_of_pos {c : Cut} {s : Bytes} (hextent : 0 < c.extent) (hs : s ≠ [])
    (cuts : List Cut) :
    cutUp (c :: cuts) s = ⟨c.kind, s.take c.extent⟩ :: cutUp cuts (s.drop c.extent) := by
  rw [cutUp, if_neg]
  simpa [hs] using Nat.pos_iff_ne_zero.mp hextent

theorem cutUp_cons_length {front : Bytes} (hne : front ≠ []) (kind : TokenKind) (cuts : List Cut)
    (rest : Bytes) : cutUp (⟨kind, front.length⟩ :: cuts) (front ++ rest) =
      ⟨kind, front⟩ :: cutUp cuts rest := by
  rw [cutUp_cons_of_pos (List.length_pos_iff.mpr hne) (List.append_ne_nil_of_left_ne_nil hne rest),
    List.take_left, List.drop_left]

/-- What is cut off the front of a text does not depend on what comes after it. -/
theorem cutUp_append {cuts : List Cut} {front : Bytes} (h : cutExtent cuts ≤ front.length)
    (rest : Bytes) : cutUp cuts (front ++ rest) = cutUp cuts front := by
  induction cuts generalizing front with
  | nil => rfl
  | cons c cuts ih =>
    rw [cutExtent_cons] at h
    rcases Nat.eq_zero_or_pos c.extent with hzero | hpos
    · rw [cutUp_cons_of_zero hzero, cutUp_cons_of_zero hzero]
      exact ih (by omega)
    · have hle : c.extent ≤ front.length := by omega
      have hfront : front ≠ [] := List.ne_nil_of_length_pos (by omega)
      have hrest : cutExtent cuts ≤ (front.drop c.extent).length := by
        rw [List.length_drop]
        omega
      have hwhole : front ++ rest ≠ [] := List.append_ne_nil_of_left_ne_nil hfront rest
      rw [cutUp_cons_of_pos hpos hfront, cutUp_cons_of_pos hpos hwhole,
        List.take_append_of_le_length hle, List.drop_append_of_le_length hle, ih hrest]

namespace Reads

variable {s s' : State} {text rest : Bytes} {lexemes : List Lexeme}

/-- The lexemes of a part come before those of the rest. -/
theorem lex_eq (h : Reads rest s text lexemes s') (hs : s.Labelled) :
    lex s 0 (text ++ rest) = lexemes ++ lex s' 0 rest := by
  induction h with
  | done => rfl
  | @step s s' step front back lexemes hstep hextent hne _ ih =>
    have hinput : front ++ (back ++ rest) ≠ [] := List.append_ne_nil_of_left_ne_nil hne _
    have hnext : step.next.Labelled := hstep ▸ (step_spec hs hinput).2
    have hcuts : cutExtent step.cuts ≤ front.length := (Step.extent_eq step ▸ hextent).le
    rw [List.append_assoc, lex_step hs hinput, hstep, hextent, List.drop_left, ih hnext,
      cutUp_append hcuts, List.append_assoc]

/-- A part that is cut up in one step. -/
theorem single {step : Step} (hstep : s.step (text ++ rest) = step)
    (hextent : step.extent = text.length) (hne : text ≠ []) :
    Reads rest s text (cutUp step.cuts text) step.next := by
  have h : Reads rest s (text ++ []) (cutUp step.cuts text ++ []) step.next :=
    .step hstep hextent hne (.done step.next)
  rwa [List.append_nil, List.append_nil] at h

/-- A step, and a part that is read after it. -/
theorem exists_of_step {input : Bytes} (hpos : 0 < (s.step input).extent)
    (hle : (s.step input).extent ≤ input.length)
    (hrest : input.drop (s.step input).extent = text ++ rest)
    (h : Reads rest (s.step input).next text lexemes s') :
    ∃ whole, input = whole ++ rest ∧
      Reads rest s whole (cutUp (s.step input).cuts input ++ lexemes) s' := by
  have hparts : input.take (s.step input).extent ++ (text ++ rest) = input := by
    rw [← hrest, List.take_append_drop]
  have hfront : (input.take (s.step input).extent).length = (s.step input).extent :=
    List.length_take_of_le hle
  have hcuts : cutUp (s.step input).cuts (input.take (s.step input).extent) =
      cutUp (s.step input).cuts input := by
    have hfits : cutExtent (s.step input).cuts ≤ (input.take (s.step input).extent).length :=
      hfront.ge
    have hcut := cutUp_append hfits (text ++ rest)
    rwa [hparts, eq_comm] at hcut
  refine ⟨input.take (s.step input).extent ++ text, by rw [List.append_assoc, hparts], ?_⟩
  rw [← hcuts]
  exact .step (by rw [hparts]) hfront.symm (List.ne_nil_of_length_pos (by omega)) h

end Reads

/-- After reading a part of the source, the lexer cuts off the lexeme in its next step, and with it
perhaps others, before and after it. -/
def CutOff (s : State) (input : Bytes) (before : List Lexeme) (l : Lexeme)
    (after : List Lexeme) : Prop :=
  ∃ text rest lexemes s' first last, input = text ++ rest ∧ Reads rest s text lexemes s' ∧
    before = lexemes ++ first ∧ cutUp (s'.step rest).cuts rest = first ++ l :: last ∧
    after = last ++ lex (s'.step rest).next 0 (rest.drop (s'.step rest).extent)

/-- Every lexeme is cut off in some step. -/
theorem cutOff_of_lex {s : State} {input : Bytes} {before after : List Lexeme} {l : Lexeme}
    (hs : s.Labelled) (h : lex s 0 input = before ++ l :: after) :
    CutOff s input before l after := by
  induction hlength : input.length using Nat.strongRecOn generalizing s input before with
  | _ n ih =>
    have hinput : input ≠ [] := by
      rintro rfl
      rw [lex, eq_comm, List.append_eq_nil_iff] at h
      cases h.2
    obtain ⟨hpos, hnext⟩ := step_spec hs hinput
    rw [lex_step hs hinput] at h
    have hlater : ∀ others, before = cutUp (s.step input).cuts input ++ others →
        lex (s.step input).next 0 (input.drop (s.step input).extent) = others ++ l :: after →
        CutOff s input before l after := by
      intro others hbefore hlex
      have hle : (s.step input).extent ≤ input.length := by
        by_contra hbeyond
        rw [List.drop_of_length_le (by omega), lex, eq_comm, List.append_eq_nil_iff] at hlex
        cases hlex.2
      have hshorter : (input.drop (s.step input).extent).length < n := by
        rw [List.length_drop]
        omega
      obtain ⟨text, rest, lexemes, s', first, last, hrest, hreads, hothers, hcuts, hafter⟩ :=
        ih _ hshorter hnext hlex rfl
      obtain ⟨whole, hwhole, hreads⟩ := Reads.exists_of_step hpos hle hrest hreads
      refine ⟨whole, rest, _, s', first, last, hwhole, hreads, ?_, hcuts, hafter⟩
      rw [hbefore, hothers, List.append_assoc]
    -- the lexeme is cut off in this step or later
    rcases List.append_eq_append_iff.mp h with ⟨others, hbefore, hlex⟩ | ⟨others, hcuts, hafter⟩
    · exact hlater others hbefore hlex
    · rcases List.cons_eq_append_iff.mp hafter with ⟨rfl, hlex⟩ | ⟨last, rfl, hlast⟩
      · exact hlater [] (by rw [hcuts]; simp) hlex
      · exact ⟨[], input, [], s, before, last, rfl, .done s, rfl, hcuts, hlast⟩

/-! ## Lexemes of code by their first octets -/

theorem code_singleQuote (nested : Bool) (s : Bytes) :
    code nested (singleQuote :: s) = ([⟨.singleQuoted, 1 + untilQuote singleQuote s⟩], .none) := by
  cases nested <;> rfl

theorem code_comment (nested : Bool) (s : Bytes) :
    code nested (slash :: star :: s) = ([⟨.comment, 2 + untilCommentEnd s⟩], .none) := by
  cases nested <;> rfl

/-- The lexeme at a double quote: a literal, or the start of one with interpolations. -/
def quotedLexeme : Option Nat → List Cut × Effect
  | some n => ([⟨.doubleQuoted, n + 1⟩], .none)
  | none => ([⟨.other, 1⟩], .enter (.quote doubleQuote) false)

theorem code_doubleQuote (nested : Bool) (s : Bytes) :
    code nested (doubleQuote :: s) = quotedLexeme (plainUntilQuote? s) := by
  have hcode : code nested (doubleQuote :: s) =
      match (plainUntilQuote? s).map (· + 1) with
      | some n => ([⟨.doubleQuoted, n⟩], .none)
      | none => ([⟨.other, 1⟩], .enter (.quote doubleQuote) false) := by
    cases nested <;> rfl
  rw [hcode]
  cases plainUntilQuote? s <;> rfl

/-! ## What ends a literal -/

/-- A literal is closed by a quote or by a label. -/
def Closer.Proper : Closer → Prop
  | .quote q => q = doubleQuote ∨ q = backtick
  | .label name => IsLabel name

/-- Every literal that is open is closed by a quote or by a label. -/
def State.Proper (s : State) : Prop :=
  ∀ closer lineStart, Frame.literal closer lineStart ∈ s.frames → closer.Proper

theorem proper_start : State.start.Proper := by
  intro closer lineStart hmem
  cases hmem

/-- What a lexeme of code opens is closed by a quote or by a label. -/
def EntersProper (lexeme : List Cut × Effect) : Prop :=
  match lexeme.2 with
  | .enter closer _ => closer.Proper
  | _ => True

/-- What comes next in code is cut off as one lexeme, and is no interpolating text, or it is a here
document. -/
theorem CodeLexeme.single_or_heredoc {P : List Cut × Effect → Prop} {nested : Bool} {s : Bytes}
    {lexeme : List Cut × Effect} (h : CodeLexeme nested s lexeme)
    (single : ∀ {kind n effect}, kind ≠ .interpolated → EntersProper ([⟨kind, n⟩], effect) →
      P ([⟨kind, n⟩], effect))
    (heredoc : ascii "<<<" <+: s → P (heredocLexemes s (heredocOpener? s))) : P lexeme := by
  cases h with
  | spacing => exact single (by decide) trivial
  | closingTag => exact single (by decide) trivial
  | attributes => exact single (by decide) trivial
  | lineComment => exact single (by decide) trivial
  | blockComment => exact single (by decide) trivial
  | singleQuoted => exact single (by decide) trivial
  | doubleQuoted => exact single (by decide) trivial
  | interpolating => exact single (by decide) (Or.inl rfl)
  | shell => exact single (by decide) (Or.inr rfl)
  | heredoc hopener => exact heredoc hopener
  | openBrace => exact single (by decide) trivial
  | closeBrace => exact single (by decide) trivial
  | name => exact single (by decide) trivial
  | sign => exact single (by decide) trivial

/-- A lexeme of code opens nothing but what a quote or a label closes. -/
theorem entersProper_code (nested : Bool) (b : UInt8) (rest : Bytes) :
    EntersProper (code nested (b :: rest)) := by
  have hlexeme := codeLexeme_code nested b rest
  refine hlexeme.single_or_heredoc (fun _ hproper => hproper) fun hopener => ?_
  cases hfound : heredocOpener? (b :: rest) with
  | none => trivial
  | some opener =>
    obtain ⟨_, _, _, -, ⟨_, _, -, -, -, hlabel⟩, -⟩ := opens_of_heredocOpener? hopener hfound
    exact iteInduction (fun _ => trivial) fun _ => hlabel

/-- A literal that is open after a lexeme of code was open before, or the lexeme has opened it. -/
theorem mem_frames_after {s : State} {effect : Effect} {closer : Closer} {lineStart : Bool}
    (h : Frame.literal closer lineStart ∈ (s.after effect).frames) :
    Frame.literal closer lineStart ∈ s.frames ∨ effect = .enter closer lineStart := by
  cases effect with
  | none => exact Or.inl h
  | leave => exact Or.inl h
  | enter closer' lineStart' =>
    rcases List.mem_cons.mp h with heq | hmem
    · cases heq
      exact Or.inr rfl
    · exact Or.inl hmem
  -- braces change the innermost piece of code, or end it; no literal comes of that
  | openBrace =>
    simp only [State.after] at h
    split at h
    · next braces outer hframes =>
      rw [hframes]
      simpa using h
    · exact Or.inl h
  | closeBrace =>
    simp only [State.after] at h
    split at h
    · next outer hframes =>
      rw [hframes]
      exact Or.inl (List.mem_cons_of_mem _ h)
    · next braces outer hframes =>
      rw [hframes]
      simpa using h
    · exact Or.inl h

/-- A step in interpolating text opens no literal. -/
theorem mem_frames_stepLiteral {s : State} {closer closer' : Closer} {lineStart lineStart' : Bool}
    {outer : List Frame} {input : Bytes} (hframes : s.frames = .literal closer lineStart :: outer)
    (h : Frame.literal closer' lineStart' ∈
      (s.stepLiteral closer lineStart outer input).next.frames) :
    ∃ lineStart, Frame.literal closer' lineStart ∈ s.frames := by
  have hresumed : Frame.literal closer' lineStart' ∈ Frame.literal closer false :: outer →
      ∃ lineStart, Frame.literal closer' lineStart ∈ s.frames := by
    intro hmem
    rw [hframes]
    rcases List.mem_cons.mp hmem with heq | hmem
    · cases heq
      exact ⟨lineStart, List.mem_cons_self⟩
    · exact ⟨lineStart', List.mem_cons_of_mem _ hmem⟩
  unfold State.stepLiteral at h
  generalize segment closer lineStart input = found at h
  obtain ⟨n, stop⟩ := found
  cases stop with
  | input => exact ⟨lineStart', h⟩
  | closed m => exact hresumed (List.mem_cons_of_mem _ h)
  -- the literal is resumed after a variable; with a brace, a piece of code is put on it
  | interpolation =>
    dsimp only at h
    split at h
    · exact hresumed h
    · split at h
      · exact ⟨lineStart', h⟩
      · exact hresumed (by simpa using h)

/-- Along a run, a literal that is open is closed by a quote or by a label. -/
theorem proper_step {s : State} {input : Bytes} (hs : s.Proper) (hinput : input ≠ []) :
    (s.step input).next.Proper := by
  obtain ⟨b, rest, rfl⟩ := List.exists_cons_of_ne_nil hinput
  have hcode : ∀ nested, (s.after (code nested (b :: rest)).2).Proper := by
    intro nested closer lineStart hmem
    rcases mem_frames_after hmem with hmem | heffect
    · exact hs closer lineStart hmem
    · have hproper := entersProper_code nested b rest
      rw [EntersProper, heffect] at hproper
      exact hproper
  intro closer lineStart hmem
  unfold State.step at hmem
  -- in a literal, in code inside of one, and in the code of the file or outside of it
  split at hmem
  · next hframes =>
    obtain ⟨lineStart', hbefore⟩ := mem_frames_stepLiteral hframes hmem
    exact hs closer lineStart' hbefore
  · exact hcode true closer lineStart hmem
  · split at hmem
    · exact hcode false closer lineStart hmem
    · split at hmem
      · exact hs closer lineStart hmem
      · exact hs closer lineStart hmem

/-- All along a run, a literal that is open is closed by a quote or by a label. -/
theorem Reads.proper {s s' : State} {text rest : Bytes} {lexemes : List Lexeme}
    (h : Reads rest s text lexemes s') (hs : s.Proper) : s'.Proper := by
  induction h with
  | done => exact hs
  | step hstep _ hne _ ih =>
    refine ih ?_
    rw [← hstep]
    exact proper_step hs (List.append_ne_nil_of_left_ne_nil hne _)

/-! ## Lines -/

/-- The token, moved down by some lines. -/
def Token.moved (n : Nat) (t : Token) : Token := { t with line := t.line + n }

theorem numberLines_append (line : Nat) (lexemes others : List Lexeme) :
    numberLines line (lexemes ++ others) =
      numberLines line lexemes ++ numberLines (line + lineBreaks (lexemes.flatMap (·.text)))
        others := by
  induction lexemes generalizing line with
  | nil => rfl
  | cons l lexemes ih =>
    rw [List.cons_append, numberLines, numberLines, ih, List.cons_append,
      List.flatMap_cons, lineBreaks, lineBreaks, lineBreaks, List.count_append, Nat.add_assoc]

/-- Lexemes that come later are numbered as they would be at the start, moved down. -/
theorem numberLines_add (line n : Nat) (lexemes : List Lexeme) :
    numberLines (line + n) lexemes = (numberLines line lexemes).map (·.moved n) := by
  induction lexemes generalizing line with
  | nil => rfl
  | cons l lexemes ih =>
    rw [numberLines, numberLines, List.map_cons, ← ih, Token.moved, Nat.add_right_comm]

/-- The lexemes of a source are its tokens without their lines. -/
theorem lex_of_tokenize {source : Bytes} {tokens : List Token} (h : tokenize source = tokens) :
    lex .start 0 source = tokens.map (·.toLexeme) := by
  rw [← h, tokenize, map_toLexeme_numberLines]

/-- The tokens of two parts are numbered one after the other. -/
theorem numberLines_eq_append {line : Nat} {lexemes : List Lexeme} {front back : List Token}
    (h : numberLines line lexemes = front ++ back) :
    front = numberLines line (front.map (·.toLexeme)) ∧
      back = numberLines (line + lineBreaks (front.flatMap (·.text))) (back.map (·.toLexeme)) := by
  have hlexemes : lexemes = front.map (·.toLexeme) ++ back.map (·.toLexeme) := by
    rw [← List.map_append, ← h, map_toLexeme_numberLines]
  rw [hlexemes, numberLines_append, List.flatMap_map] at h
  have hlength : (numberLines line (front.map (·.toLexeme))).length = front.length := by
    have hmap := congrArg List.length (map_toLexeme_numberLines line (front.map (·.toLexeme)))
    rwa [List.length_map, List.length_map] at hmap
  obtain ⟨hfront, hback⟩ := List.append_inj h hlength
  exact ⟨hfront.symm, hback.symm⟩

end SourceTidy.Php
