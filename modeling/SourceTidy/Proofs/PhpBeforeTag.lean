import SourceTidy.Proofs.PhpLookahead

/-! # PHP before a closing tag

What the lexer has made of the source up to a closing tag outside of all literals, it makes of it
whatever follows that tag.

* `code_atTag`, `stepLiteral_atTag`, `step_atTag`: a step that stays before the tag is the same
  before another tag;
* `Reads.atTag`: and so is a run, if no literal is open at the tag.
-/

namespace SourceTidy.Php

open Ascii Bytes

/-! ## Steps that stop before the tag -/

/-- Two lexemes of code are the same, if the first one lies in the text and the run of text in a
literal that it opens also ends there. -/
def SameInside (text rest : Bytes) (lexeme lexeme' : List Cut × Effect) : Prop :=
  cutExtent lexeme.1 ≤ text.length →
    (∀ closer lineStart, lexeme.2 = .enter closer lineStart →
      (segment closer lineStart ((text ++ rest).drop (cutExtent lexeme.1))).1 + cutExtent lexeme.1 <
        text.length) →
    lexeme' = lexeme

/-- The same question decides in both sources. -/
theorem SameInside.ite {text rest : Bytes} {c : Prop} [Decidable c] {x x' y y' : List Cut × Effect}
    (hpos : c → SameInside text rest x x') (hneg : ¬ c → SameInside text rest y y') :
    SameInside text rest (if c then x else y) (if c then x' else y') := by
  split
  · next hc => exact hpos hc
  · next hc => exact hneg hc

theorem SameInside.refl (text rest : Bytes) (lexeme : List Cut × Effect) :
    SameInside text rest lexeme lexeme :=
  fun _ _ => rfl

/-- One lexeme, which need only be the same if it lies in the text. -/
theorem SameInside.single {text rest : Bytes} {kind : TokenKind} {n n' : Nat} {effect : Effect}
    (h : n ≤ text.length → n' = n) :
    SameInside text rest ([⟨kind, n⟩], effect) ([⟨kind, n'⟩], effect) := by
  intro hfits _
  rw [h hfits]

section

variable {rest rest' : Bytes}

/-- An octet that comes next and is not that of the tag stands before it. -/
theorem exists_of_nextIs_atTag (h : AtTag rest) {b : UInt8} {s : Bytes} (hb : b ≠ question)
    (hnext : nextIs b (s ++ rest) = true) : ∃ back, s = b :: back := by
  cases s with
  | nil =>
    obtain ⟨more, rfl⟩ := h
    simp [nextIs, hb.symm] at hnext
  | cons c s =>
    obtain rfl : c = b := by simpa [nextIs] using hnext
    exact ⟨s, rfl⟩

theorem Closer.Proper.labelled {closer : Closer} (h : closer.Proper) : closer.Labelled := by
  cases closer with
  | quote q => trivial
  | label name => exact h.ne_nil

/-- A run of text ends in a part, if its delimiter and the start of an interpolation do. -/
theorem segment_lt {closer : Closer} {lineStart : Bool} {text : Bytes} (hcloser : closer.Labelled)
    (hrest : rest ≠ [])
    (hclosed : ∀ n m, segment closer lineStart (text ++ rest) = (n, .closed m) →
      n + m ≤ text.length)
    (hinterpolation : ∀ n, segment closer lineStart (text ++ rest) = (n, .interpolation) →
      n < text.length)
    (hinput : ∀ n, segment closer lineStart (text ++ rest) = (n, .input) → n ≤ text.length) :
    (segment closer lineStart (text ++ rest)).1 < text.length := by
  have hspec := segment_spec closer lineStart (text ++ rest)
  rcases hfound : segment closer lineStart (text ++ rest) with ⟨n, m | _ | _⟩
  · rw [hfound] at hspec
    obtain ⟨lineStart', hat⟩ := hspec
    have hpos := Closer.at_pos hcloser hat
    have hfits := hclosed n m hfound
    dsimp only
    omega
  · exact hinterpolation n hfound
  · rw [hfound] at hspec
    have hfits := hinput n hfound
    have hlength := List.length_pos_iff.mpr hrest
    simp only [List.length_append] at hspec
    omega

/-- Whether a double quote starts a plain literal or one with interpolations is found out far ahead,
but before the tag if the first run of text ends before it. -/
theorem quotedLexeme_atTag (h : AtTag rest) (h' : AtTag rest') (s : Bytes) :
    SameInside (doubleQuote :: s) rest (quotedLexeme (plainUntilQuote? (s ++ rest)))
      (quotedLexeme (plainUntilQuote? (s ++ rest'))) := by
  have hproper : Closer.Proper (.quote doubleQuote) := Or.inl rfl
  rw [plainUntilQuote?_eq_plainExtent? false, plainUntilQuote?_eq_plainExtent? false]
  intro hfits henter
  rw [segment_atTag h h' hproper]
  refine segment_lt hproper.labelled h.ne_nil ?_ ?_ ?_
  · intro n m hfound
    rw [hfound] at hfits
    simpa [quotedLexeme, plainExtent?, cutExtent] using hfits
  · intro n hfound
    have hinside := henter (.quote doubleQuote) false (by rw [hfound]; rfl)
    simpa [quotedLexeme, plainExtent?, cutExtent, hfound] using hinside
  · intro n hfound
    rw [hfound] at hfits
    simpa [quotedLexeme, plainExtent?, cutExtent] using hfits

/-- A here document that lies before the tag. -/
theorem heredocLexemes_atTag (h : AtTag rest) (h' : AtTag rest') {s : Bytes}
    (hs : ascii "<<<" <+: s) :
    SameInside s rest (heredocLexemes (s ++ rest) (heredocOpener? (s ++ rest)))
      (heredocLexemes (s ++ rest') (heredocOpener? (s ++ rest'))) := by
  rw [heredocOpener?_atTag h h' hs]
  cases hopener : heredocOpener? (s ++ rest) with
  | none => exact .refl _ _ _
  | some opener =>
    obtain ⟨quotes, text, back, rfl, ⟨_, _, _, _, _, hlabel⟩, hextent, -⟩ :=
      opens_before_atTag h hs hopener
    have hdrop (tail : Bytes) : (text ++ back ++ tail).drop opener.extent = back ++ tail := by
      rw [← hextent, List.append_assoc, List.drop_left]
    rw [heredocLexemes, heredocLexemes, hdrop, hdrop]
    refine .ite (fun _ hfits _ => ?_) fun _ => .refl _ _ _
    have hbody : (nowdocBody opener.label true (back ++ rest)).1 ≤ back.length := by
      simp [cutExtent] at hfits
      omega
    rw [nowdocBody_atTag h h' hlabel true hbody]

end

/-- Outside of literals, what lies before a tag is the same lexeme before another tag. -/
theorem code_atTag {rest rest' : Bytes} (h : AtTag rest) (h' : AtTag rest')
    (nested : Bool) (b : UInt8) (s : Bytes) :
    SameInside (b :: s) rest (code nested (b :: s ++ rest)) (code nested (b :: s ++ rest')) := by
  have hrun {p : UInt8 → Bool} (hp : p question = false) (s : Bytes) :
      runLength p (s ++ rest') = runLength p (s ++ rest) := by
    rw [runLength_atTag h hp, runLength_atTag h' hp]
  -- two kinds of lexemes may open a literal, and have lemmas of their own; the others follow one by
  -- one in the order of the definition
  by_cases hquote : b = doubleQuote
  · rw [hquote, List.cons_append, List.cons_append, code_doubleQuote, code_doubleQuote]
    exact quotedLexeme_atTag h h' s
  by_cases hheredoc : ascii "<<<" <+: b :: s
  · have hsign (tail : Bytes) : ascii "<<<" <+: b :: s ++ tail :=
      hheredoc.trans (List.prefix_append _ _)
    rw [code_heredoc nested (hsign rest), code_heredoc nested (hsign rest')]
    exact heredocLexemes_atTag h h' hheredoc
  have hopener {tail : Bytes} (htail : AtTag tail) :
      (ascii "<<<").isPrefixOf (b :: (s ++ tail)) = false := by
    rw [← List.cons_append, isPrefixOf_atTag htail rfl, Bool.eq_false_iff, Ne,
      List.isPrefixOf_iff_prefix]
    exact hheredoc
  rw [code.eq_def, code.eq_def nested (b :: s ++ rest')]
  simp only [List.cons_append, nextIs_atTag h h', hopener h, hopener h', if_neg hquote,
    Bool.false_eq_true, if_false]
  refine .ite (fun _ => .single fun _ => hrun rfl (b :: s)) fun _ => ?_
  refine .ite (fun htag => .single fun _ => ?_) fun _ => ?_
  · obtain ⟨back, rfl⟩ := exists_of_nextIs_atTag h (by decide) (Bool.and_eq_true_iff.mp htag).2
    exact closeTag_atTag h h' b greater back
  refine .ite (fun _ => .refl _ _ _) fun _ => ?_
  refine .ite (fun _ => .single fun hfits => ?_) fun _ => ?_
  · exact lineComment_atTag (s := b :: s) h h' nested hfits
  refine .ite (fun hcomment => .single fun hfits => ?_) fun _ => ?_
  · obtain ⟨back, rfl⟩ := exists_of_nextIs_atTag h (by decide) (Bool.and_eq_true_iff.mp hcomment).2
    exact blockComment_atTag h h' hfits
  refine .ite (fun _ => .single fun hfits => ?_) fun _ => ?_
  · exact singleQuoted_atTag h hfits rest'
  refine .ite (fun _ => .refl _ _ _) fun _ => ?_
  refine .ite (fun _ => .refl _ _ _) fun _ => ?_
  refine .ite (fun _ => .refl _ _ _) fun _ => ?_
  refine .ite (fun _ => .single fun _ => ?_) fun _ => .refl _ _ _
  rw [hrun rfl]

section

variable {s : State} {closer : Closer} {lineStart : Bool} {outer : List Frame}
  {text rest rest' : Bytes}

/-- If a step in interpolating text stays in the part, the run of text ends in it. -/
theorem segment_lt_of_extent_le (hcloser : closer.Labelled) (hrest : rest ≠ [])
    (hfits : (s.stepLiteral closer lineStart outer (text ++ rest)).extent ≤ text.length) :
    (segment closer lineStart (text ++ rest)).1 < text.length := by
  unfold State.stepLiteral at hfits
  rw [Step.extent_eq] at hfits
  refine segment_lt hcloser hrest ?_ ?_ ?_
  · intro n m hfound
    rw [hfound] at hfits
    simpa [cutExtent] using hfits
  · intro n hfound
    have hstart := segment_spec closer lineStart (text ++ rest)
    rw [hfound] at hfits hstart
    dsimp only at hfits hstart
    -- a variable starts within the source, and takes at least one octet of it
    have hn : n < (text ++ rest).length := by
      by_contra hbeyond
      rw [List.drop_of_length_le (Nat.le_of_not_lt hbeyond)] at hstart
      cases hstart
    split at hfits
    · have hpos := simpleVariable_pos ((text ++ rest).drop n)
      simp [cutExtent] at hfits
      omega
    · next m hm =>
      have hpos := braceOpener_pos hm
      split at hfits
      · simp [cutExtent] at hfits hn
        omega
      · simp [cutExtent] at hfits
        omega
  · intro n hfound
    rw [hfound] at hfits
    simpa [cutExtent] using hfits

/-- A step in interpolating text. -/
theorem stepLiteral_atTag (h : AtTag rest) (h' : AtTag rest') (hbracket : closeBracket ∉ rest')
    (hcloser : closer.Proper)
    (hfits : (s.stepLiteral closer lineStart outer (text ++ rest)).extent ≤ text.length) :
    s.stepLiteral closer lineStart outer (text ++ rest') =
      s.stepLiteral closer lineStart outer (text ++ rest) := by
  have hinside := segment_lt_of_extent_le hcloser.labelled h.ne_nil hfits
  unfold State.stepLiteral at hfits ⊢
  rw [segment_atTag h h' hcloser lineStart hinside]
  rcases hfound : segment closer lineStart (text ++ rest) with ⟨n, m | _ | _⟩
  · rfl
  · rw [hfound] at hinside hfits
    have hback : text.drop n ≠ [] := List.ne_nil_of_length_pos (by rw [List.length_drop]; omega)
    have hdrop (tail : Bytes) : (text ++ tail).drop n = text.drop n ++ tail :=
      List.drop_append_of_le_length hinside.le
    have hlength := List.length_pos_iff.mpr h.ne_nil
    dsimp only at hfits ⊢
    rw [hdrop] at hfits
    rw [hdrop, hdrop, braceOpener?_atTag h h' hback]
    cases hbrace : braceOpener? (text.drop n ++ rest) with
    | none =>
      have hvariable : simpleVariable (text.drop n ++ rest) ≤ (text.drop n).length := by
        rw [hbrace, Step.extent_eq] at hfits
        simp [cutExtent] at hfits ⊢
        omega
      rw [simpleVariable_atTag h h' hbracket hback hvariable]
    | some m =>
      rw [hbrace, Step.extent_eq] at hfits
      dsimp only at hfits ⊢
      -- too deep a nesting takes the tag along
      split at hfits
      · simp [cutExtent] at hfits
        omega
      · next hnesting => rw [if_neg hnesting, if_neg hnesting]
  · rfl

theorem step_start_of_none {input : Bytes} {n : Nat} (h : findOpenTag input = (n, none)) :
    State.start.step input = ⟨[⟨.other, n⟩], .start⟩ := by
  simp [State.step, State.start, h]

theorem step_start_of_some {input : Bytes} {n m : Nat} (h : findOpenTag input = (n, some m)) :
    State.start.step input = ⟨[⟨.other, n⟩, ⟨.other, m⟩], ⟨true, []⟩⟩ := by
  simp [State.step, State.start, h]

/-- A step outside of code, up to an open tag that lies before the closing one. -/
theorem step_start_atTag (h : AtTag rest) (h' : AtTag rest')
    (hfits : (State.start.step (text ++ rest)).extent ≤ text.length) :
    State.start.step (text ++ rest') = State.start.step (text ++ rest) := by
  have hspec := findOpenTag_spec (text ++ rest)
  have hlength := List.length_pos_iff.mpr h.ne_nil
  rw [Step.extent_eq] at hfits
  rcases hfound : findOpenTag (text ++ rest) with ⟨n, _ | m⟩
  · -- text up to the end of the source does not stay before the tag
    rw [hfound] at hspec
    rw [step_start_of_none hfound] at hfits
    simp [cutExtent] at hspec hfits
    omega
  · rw [hfound] at hspec
    rw [step_start_of_some hfound] at hfits
    have hpos := openTag_pos hspec
    have hinside : (findOpenTag (text ++ rest)).1 < text.length := by
      rw [hfound]
      simp [cutExtent] at hfits
      omega
    have hfound' := (findOpenTag_atTag h h' hinside).trans hfound
    rw [step_start_of_some hfound, step_start_of_some hfound']

/-- A step that stays before the tag is the same before another tag; if it opens a literal, the
first run of text in it has to end before the tag too. -/
theorem step_atTag (h : AtTag rest) (h' : AtTag rest') (hbracket : closeBracket ∉ rest')
    (hs : s.Proper) (htext : text ≠ []) {step : Step} (hstep : s.step (text ++ rest) = step)
    (hfits : step.extent ≤ text.length)
    (hliteral : ∀ closer lineStart outer, step.next.frames = .literal closer lineStart :: outer →
      (segment closer lineStart ((text ++ rest).drop step.extent)).1 + step.extent < text.length) :
    s.step (text ++ rest') = step := by
  obtain ⟨b, text, rfl⟩ := List.exists_cons_of_ne_nil htext
  subst hstep
  have hcode (nested : Bool) (hstep : s.step (b :: text ++ rest) =
      ⟨(code nested (b :: text ++ rest)).1, s.after (code nested (b :: text ++ rest)).2⟩) :
      code nested (b :: text ++ rest') = code nested (b :: text ++ rest) := by
    rw [hstep] at hfits hliteral
    refine code_atTag h h' nested b text hfits fun closer lineStart heffect => ?_
    refine hliteral closer lineStart s.frames ?_
    rw [heffect]
    rfl
  obtain ⟨inCode, frames⟩ := s
  -- the innermost frame decides what kind of step it is
  match frames with
  | .literal closer lineStart :: outer =>
    exact stepLiteral_atTag h h' hbracket (hs closer lineStart List.mem_cons_self) hfits
  | .code braces :: outer =>
    have hsame := hcode true rfl
    rw [State.step, hsame]
    rfl
  | [] =>
    cases inCode with
    | false => exact step_start_atTag h h' hfits
    | true =>
      have hsame := hcode false rfl
      rw [State.step, hsame]
      rfl

end

/-! ## Runs up to the tag -/

section

variable {s s' : State} {text rest rest' : Bytes} {lexemes : List Lexeme}

/-- If a literal is open before the part and none is after it, the first run of text ends in the
part. -/
theorem Reads.segment_lt (h : Reads rest s text lexemes s') (hs : s.Proper) (hrest : rest ≠ [])
    {closer : Closer} {lineStart : Bool} {outer : List Frame}
    (hframes : s.frames = .literal closer lineStart :: outer) (hend : s'.frames = []) :
    (segment closer lineStart (text ++ rest)).1 < text.length := by
  cases h with
  | done =>
    rw [hend] at hframes
    cases hframes
  | @step _ _ step front back lexemes hstep hextent hne hback =>
    have hcloser := hs closer lineStart (hframes ▸ List.mem_cons_self)
    have hliteral : s.stepLiteral closer lineStart outer (front ++ (back ++ rest)) = step := by
      rw [← hstep, State.step, hframes]
    have hfits : (s.stepLiteral closer lineStart outer (front ++ (back ++ rest))).extent ≤
        front.length := by
      rw [hliteral, hextent]
    have hafter : back ++ rest ≠ [] := List.append_ne_nil_of_right_ne_nil back hrest
    have hinside := segment_lt_of_extent_le hcloser.labelled hafter hfits
    rw [List.append_assoc, List.length_append]
    omega

/-- Up to a tag outside of all literals, the lexer reads the source as it does before another
tag. -/
theorem Reads.atTag (h : Reads rest s text lexemes s') (hrest : AtTag rest) (hrest' : AtTag rest')
    (hbracket : closeBracket ∉ rest') (hs : s.Proper) (hend : s'.frames = []) :
    Reads rest' s text lexemes s' := by
  induction h with
  | done s => exact .done s
  | @step s s' step front back lexemes hstep hextent hne hback ih =>
    have hnext : step.next.Proper := by
      rw [← hstep]
      exact proper_step hs (List.append_ne_nil_of_left_ne_nil hne _)
    refine .step ?_ hextent hne (ih hnext hend)
    rw [← List.append_assoc] at hstep ⊢
    refine step_atTag hrest hrest' hbracket hs (List.append_ne_nil_of_left_ne_nil hne _) hstep ?_ ?_
    · rw [hextent, List.length_append]
      omega
    · intro closer lineStart outer hframes
      have hinside := hback.segment_lt hnext hrest.ne_nil hframes hend
      rw [hextent, List.append_assoc, List.drop_left, List.length_append]
      omega

end

end SourceTidy.Php
