import Mathlib.Data.List.Forall2
import SourceTidy.Proofs.PhpTokens
import SourceTidy.Proofs.TextEncoding

/-! # Escape sequences in PHP literals

The rule on escape sequences reads the text of a token in units, from the start of the token. So
does the lexer when it looks for the end of a literal. Both have to be at the start of a unit where
a token starts and where it ends, or the rule would see half of an escape sequence.

* `badEscape?_eq_find?`: the rule names the first unit that is stray;
* `segment_whole`: a piece of literal text ends between two units, unless the source ends;
* `eq_nil_of_loneBackslash`: so a token that ends in the middle of a unit is the last one;
* `escape_warnings_exact`: one warning for each token with a stray unit, and it names the first one.
-/

namespace SourceTidy.Php

open Ascii Bytes

/-! ## Stray units -/

/-- The letters and digits that make an escape sequence after a backslash. -/
def escapeNames : Bytes := ascii "nrtvefx01234567"

/-- Is the unit a backslash that makes no escape sequence: before a letter, a digit or the
underscore that names none, or with nothing after it? -/
def isStray : Bytes → Bool
  | [b] => b == backslash
  | [b, c] => b == backslash && isWord c && !escapeNames.contains c
  | _ => false

/-- A backslash is stray before what the rule does not let it escape. -/
theorem isStray_escape (c : UInt8) : isStray [backslash, c] = !Rule.mayEscape c := by
  have hnames : ascii "\\nrtvefx01234567" = backslash :: escapeNames := rfl
  rw [Rule.mayEscape, hnames, List.contains_cons, isStray, beq_self_eq_true, Bool.true_and]
  by_cases hc : c = backslash
  · subst hc
    rfl
  · rw [beq_false_of_ne hc, Bool.false_or, Bool.not_or, Bool.not_not, Bool.and_comm]

theorem isStray_octet {b : UInt8} (hb : b ≠ backslash) : isStray [b] = false := beq_false_of_ne hb

/-- The rule names the first stray unit. -/
theorem badEscape?_eq_find? (s : Bytes) : Rule.badEscape? s = (units s).find? isStray := by
  induction s using units_induction with
  | nil => rfl
  | single => rfl
  | escape c s ih =>
    rw [Rule.badEscape?, if_pos rfl, units_escape, List.find?_cons, isStray_escape, ← ih]
    cases Rule.mayEscape c <;> rfl
  | octet b s hb ih =>
    rw [Rule.badEscape?.eq_def, units_octet hb, List.find?_cons, isStray_octet hb, ← ih]
    exact if_neg hb

/-- A stray unit is a backslash, by itself or with a letter, a digit or the underscore. -/
theorem eq_of_isStray {u : Bytes} (h : isStray u = true) :
    u = [backslash] ∨ ∃ c, u = [backslash, c] ∧ isWord c = true ∧ c ∉ escapeNames := by
  unfold isStray at h
  split at h
  · next b => exact Or.inl (by rw [beq_iff_eq.mp h])
  · next b c =>
    simp only [Bool.and_eq_true, beq_iff_eq, Bool.not_eq_true', List.contains_eq_mem,
      decide_eq_false_iff_not] at h
    obtain ⟨⟨rfl, hword⟩, hname⟩ := h
    exact Or.inr ⟨c, rfl, hword, hname⟩
  · cases h

theorem ascii_of_isWord {b : UInt8} (h : isWord b = true) : b < 0x80 := by
  simp only [isWord, isLetter, isUpper, isLower, isDigit, Bool.or_eq_true, Bool.and_eq_true,
    decide_eq_true_eq, beq_iff_eq, UInt8.le_iff_toNat_le] at h
  rw [UInt8.lt_iff_toNat_lt]
  rcases h with ((⟨-, h⟩ | ⟨-, h⟩) | ⟨-, h⟩) | rfl
  · exact Nat.lt_of_le_of_lt h (by decide)
  · exact Nat.lt_of_le_of_lt h (by decide)
  · exact Nat.lt_of_le_of_lt h (by decide)
  · decide

/-- An ASCII text, octet by octet. -/
def spelled (s : Bytes) : String := String.ofList (s.map fun b => Char.ofNat b.toNat)

/-- A stray unit is ASCII, so it is told as it is spelled. -/
theorem toString_of_isStray {u : Bytes} (h : isStray u = true) : Utf8.toString u = spelled u := by
  rw [Utf8.toString, Utf8.decode_ascii, spelled]
  have hbackslash : backslash < 0x80 := by decide
  rcases eq_of_isStray h with rfl | ⟨c, rfl, hword, -⟩
  · simpa using hbackslash
  · simpa using ⟨hbackslash, ascii_of_isWord hword⟩

/-! ## Whole units -/

/-- Only the last unit can be a backslash with nothing after it. -/
theorem eq_nil_of_units {s : Bytes} {front back : List Bytes}
    (h : units s = front ++ [backslash] :: back) :
    back = [] := by
  induction s using units_induction generalizing front with
  | nil => simp [units] at h
  | single =>
    have hlength := congrArg List.length h
    simp only [units, List.length_append, List.length_cons, List.length_nil] at hlength
    exact List.length_eq_zero_iff.mp (by omega)
  | escape c s ih =>
    rw [units_escape] at h
    cases front with
    | nil => cases h
    | cons u front => exact ih (List.cons.inj h).2
  | octet b s hb ih =>
    rw [units_octet hb] at h
    cases front with
    | nil => exact absurd (List.cons.inj (List.cons.inj h).1).1 hb
    | cons u front => exact ih (List.cons.inj h).2

/-- The text ends in the middle of a unit. -/
def LoneBackslash (text : Bytes) : Prop := [backslash] ∈ units text

/-- A text that ends at a quote has whole units. -/
theorem not_loneBackslash_of_endsAtQuote {quote : UInt8} {body : Bytes} (hquote : quote ≠ backslash)
    (h : EndsAtQuote quote body) : ¬ LoneBackslash body := by
  obtain ⟨before, hunits, -⟩ := h
  intro hlone
  rw [LoneBackslash, hunits, List.mem_append, List.mem_singleton] at hlone
  rcases hlone with hbefore | hlast
  · obtain ⟨front, back, rfl⟩ := List.append_of_mem hbefore
    rw [List.append_assoc, List.cons_append] at hunits
    cases List.append_eq_nil_iff.mp (eq_nil_of_units hunits) with
    | intro _ hnil => cases hnil
  · exact hquote (List.cons.inj hlast).1.symm

/-- A piece of literal text ends between two units, unless the source ends. -/
theorem segment_whole {closer : Closer} {lineStart : Bool} {s : Bytes}
    (h : (segment closer lineStart s).2 ≠ .input) :
    ¬ LoneBackslash (s.take (segment closer lineStart s).1) := by
  -- along the lexer's own recursion, which takes an escape sequence in one go as `units` does
  fun_induction segment closer lineStart s with
  | case1 => exact absurd rfl h
  | case2 => simp [LoneBackslash, units]
  | case3 => exact absurd rfl h
  | case4 lineStart c rest n stop hrest _ ih =>
    rw [hrest] at ih
    have hback := ih h
    rw [List.take_succ_cons, List.take_succ_cons]
    simpa [LoneBackslash] using hback
  | case5 => simp [LoneBackslash, units]
  | case6 lineStart b rest _ hb _ n stop hrest ih =>
    rw [hrest] at ih
    have hback := ih h
    rw [List.take_succ_cons, LoneBackslash, units_octet hb]
    simpa [LoneBackslash, Ne.symm hb] using hback

/-! ## What follows a lone backslash -/

/-- A lexeme is the first one, or one of the others. -/
theorem mem_cutUp_cons {c : Cut} {cuts : List Cut} {s : Bytes} {l : Lexeme}
    (h : l ∈ cutUp (c :: cuts) s) :
    l = ⟨c.kind, s.take c.extent⟩ ∨ l ∈ cutUp cuts (s.drop c.extent) := by
  rw [cutUp] at h
  split at h
  · next hempty =>
    have hdrop : s.drop c.extent = s := by
      rcases (by simpa using hempty : c.extent = 0 ∨ s = []) with hzero | rfl
      · rw [hzero, List.drop_zero]
      · rw [List.drop_nil]
    rw [hdrop]
    exact Or.inr h
  · exact List.mem_cons.mp h

/-- Each lexeme has the kind of the cut that has made it. -/
theorem exists_kind_of_mem_cutUp {cuts : List Cut} {s : Bytes} {l : Lexeme} (h : l ∈ cutUp cuts s) :
    ∃ c ∈ cuts, c.kind = l.kind := by
  induction cuts generalizing s with
  | nil => cases h
  | cons c cuts ih =>
    rcases mem_cutUp_cons h with rfl | hmem
    · exact ⟨c, List.mem_cons_self, rfl⟩
    · obtain ⟨c', hc', hkind⟩ := ih hmem
      exact ⟨c', List.mem_cons_of_mem c hc', hkind⟩

/-- No piece of interpolating text is cut off. -/
def LacksText (lexeme : List Cut × Effect) : Prop := ∀ c ∈ lexeme.1, c.kind ≠ .interpolated

theorem lacksText_single {kind : TokenKind} {n : Nat} {effect : Effect} (h : kind ≠ .interpolated) :
    LacksText ([⟨kind, n⟩], effect) := by
  intro c hc
  rw [List.mem_singleton.mp hc]
  exact h

/-- In code no interpolating text is cut off. -/
theorem lacksText_code (nested : Bool) (b : UInt8) (rest : Bytes) :
    LacksText (code nested (b :: rest)) := by
  have hlexeme := codeLexeme_code nested b rest
  refine hlexeme.single_or_heredoc (fun hkind _ => lacksText_single hkind) fun _ => ?_
  cases heredocOpener? (b :: rest) with
  | none => exact lacksText_single (by decide)
  | some opener =>
    refine iteInduction (fun _ => ?_) fun _ => lacksText_single (by decide)
    simp [LacksText]

/-- A step that cuts off a piece of interpolating text is a step in such a text. -/
theorem step_cases_of_text {s : State} {input : Bytes} {l : Lexeme} (hinput : input ≠ [])
    (hl : l ∈ cutUp (s.step input).cuts input) (hkind : l.kind = .interpolated) :
    ∃ closer lineStart outer, s.step input = s.stepLiteral closer lineStart outer input := by
  obtain ⟨b, rest, rfl⟩ := List.exists_cons_of_ne_nil hinput
  obtain ⟨c, hc, hcut⟩ := exists_kind_of_mem_cutUp hl
  rw [hkind] at hcut
  unfold State.step at hc ⊢
  split at hc
  · exact ⟨_, _, _, rfl⟩
  · exact absurd hcut (lacksText_code true b rest c hc)
  · split at hc
    · exact absurd hcut (lacksText_code false b rest c hc)
    · split at hc
      · rw [List.mem_singleton.mp hc] at hcut
        cases hcut
      · rcases List.mem_pair.mp hc with rfl | rfl <;> cases hcut

/-- A step in interpolating text cuts off one piece of it, and then what ends the piece. -/
theorem cuts_stepLiteral (s : State) (closer : Closer) (lineStart : Bool) (outer : List Frame)
    (input : Bytes) :
    ∃ others, (s.stepLiteral closer lineStart outer input).cuts =
        ⟨.interpolated, (segment closer lineStart input).1⟩ :: others ∧
      (∀ c ∈ others, c.kind = .other) ∧
      ((segment closer lineStart input).2 = .input → others = []) := by
  unfold State.stepLiteral
  rcases segment closer lineStart input with ⟨n, m | _ | _⟩
  · exact ⟨_, rfl, by simp, by simp⟩
  · dsimp only
    split
    · exact ⟨_, rfl, by simp, by simp⟩
    · split <;> exact ⟨_, rfl, by simp, by simp⟩
  · exact ⟨_, rfl, by simp, by simp⟩

/-- Interpolating text that is cut off in the middle of a unit is all that is left. -/
theorem stepLiteral_of_loneBackslash {s : State} {closer : Closer} {lineStart : Bool}
    {outer : List Frame} {input : Bytes} {l : Lexeme}
    (hl : l ∈ cutUp (s.stepLiteral closer lineStart outer input).cuts input)
    (hkind : l.kind = .interpolated) (hlone : LoneBackslash l.text) :
    (s.stepLiteral closer lineStart outer input).cuts = [⟨.interpolated, input.length⟩] := by
  obtain ⟨others, hcuts, hother, hlast⟩ := cuts_stepLiteral s closer lineStart outer input
  rw [hcuts] at hl
  -- what ends the piece is of another kind, so the lexeme is the piece
  have htext : l = ⟨.interpolated, input.take (segment closer lineStart input).1⟩ := by
    refine (mem_cutUp_cons hl).resolve_right fun hmem => ?_
    obtain ⟨c, hc, hsame⟩ := exists_kind_of_mem_cutUp hmem
    rw [hother c hc, hkind] at hsame
    cases hsame
  have hend : (segment closer lineStart input).2 = .input := by
    by_contra hmore
    rw [htext] at hlone
    exact segment_whole hmore hlone
  have hspec := segment_spec closer lineStart input
  rw [hcuts, hlast hend]
  generalize segment closer lineStart input = found at hend hspec ⊢
  obtain ⟨n, stop⟩ := found
  obtain rfl : stop = .input := hend
  obtain rfl : n = input.length := hspec
  rfl

/-- A literal or a piece of one that ends in the middle of a unit is the last lexeme. -/
theorem eq_nil_of_loneBackslash {source : Bytes} {before after : List Lexeme} {l : Lexeme}
    (h : lex .start 0 source = before ++ l :: after) (hkind : Rule.hasEscapes l.kind = true)
    (hlone : LoneBackslash l.text) : after = [] := by
  rw [Rule.hasEscapes, Bool.or_eq_true, beq_iff_eq, beq_iff_eq] at hkind
  rcases hkind with hkind | hkind
  · -- a literal in double quotes ends at a quote, which starts a unit, or with the source
    have hshaped := shaped_of_allShaped (h ▸ allShaped_lex labelled_start source)
    unfold Lexeme.Shaped at hshaped
    rw [hkind] at hshaped
    obtain ⟨body, htext, hliteral, -⟩ := hshaped
    have hbody : LoneBackslash body := by
      rw [LoneBackslash, htext, units_octet (by decide), List.mem_cons] at hlone
      exact hlone.resolve_left (by decide)
    rcases hliteral with hends | ⟨-, hnil⟩
    · exact absurd hbody (not_loneBackslash_of_endsAtQuote (by decide) hends)
    · exact hnil
  · -- interpolating text is cut off in a step of its own, which takes all that is left
    obtain ⟨text, rest, lexemes, s, first, last, -, -, -, hcuts, hafter⟩ :=
      cutOff_of_lex labelled_start h
    have hmem : l ∈ cutUp (s.step rest).cuts rest := by
      rw [hcuts]
      simp
    have hrest : rest ≠ [] := by
      rintro rfl
      simp [cutUp_nil] at hmem
    obtain ⟨closer, lineStart, outer, hstep⟩ := step_cases_of_text hrest hmem hkind
    rw [hstep] at hmem
    have hall := stepLiteral_of_loneBackslash hmem hkind hlone
    rw [← hstep] at hall
    have hextent : (s.step rest).extent = rest.length := by
      rw [Step.extent_eq, hall]
      rfl
    have hlast : last = [] := by
      rw [hall, cutUp_cons_of_pos (List.length_pos_iff.mpr hrest) hrest, cutUp] at hcuts
      have hlength := congrArg List.length hcuts
      simp only [List.length_append, List.length_cons, List.length_nil] at hlength
      exact List.length_eq_zero_iff.mp (by omega)
    rw [hafter, hlast, hextent, List.drop_length, lex, List.append_nil]

/-! ## Warnings -/

/-- Has the token a unit that makes a warning? Only in double quotes and in interpolating text is a
backslash the start of an escape sequence. -/
def strays (t : Token) : Bool := Rule.hasEscapes t.kind && (units t.text).any isStray

/-- The first stray unit of the token. -/
def FirstStray (t : Token) (u : Bytes) : Prop :=
  Rule.hasEscapes t.kind = true ∧ (units t.text).find? isStray = some u

/-- The finding is the warning about the token: it tells the line of the token, and its first stray
unit. -/
def WarnsOf (t : Token) (d : Diagnostic) : Prop :=
  ∃ u, FirstStray t u ∧
    d = .warning ("invalid escape sequence " ++ spelled u ++ " in double quoted string")
      (some t.line)

/-- A token with a stray unit makes one warning. -/
theorem escapeWarning?_of_strays {t : Token} (h : strays t = true) :
    ∃ d, Rule.escapeWarning? t = some d ∧ WarnsOf t d := by
  rw [strays, Bool.and_eq_true, List.any_eq_true, ← List.find?_isSome] at h
  obtain ⟨u, hu⟩ := Option.isSome_iff_exists.mp h.2
  refine ⟨_, ?_, u, ⟨h.1, hu⟩, rfl⟩
  rw [Rule.escapeWarning?, if_pos h.1, badEscape?_eq_find?, hu, Option.map_some,
    toString_of_isStray (List.find?_some hu)]

/-- A token without a stray unit makes none. -/
theorem escapeWarning?_of_not_strays {t : Token} (h : strays t = false) :
    Rule.escapeWarning? t = none := by
  rw [Rule.escapeWarning?]
  split
  · next hkind =>
    rw [strays, hkind, Bool.true_and] at h
    rw [badEscape?_eq_find?, Option.map_eq_none_iff, List.find?_eq_none]
    simpa using h
  · rfl

/-- The warnings are those about the tokens with a stray unit, in their order. -/
theorem forall₂_warnsOf (tokens : List Token) :
    List.Forall₂ WarnsOf (tokens.filter strays) (tokens.filterMap Rule.escapeWarning?) := by
  induction tokens with
  | nil => exact .nil
  | cons t tokens ih =>
    cases h : strays t with
    | true =>
      obtain ⟨d, hd, hwarns⟩ := escapeWarning?_of_strays h
      rw [List.filter_cons_of_pos h, List.filterMap_cons_some hd]
      exact .cons hwarns ih
    | false =>
      rw [List.filter_cons_of_neg (by simp [h]),
        List.filterMap_cons_none (escapeWarning?_of_not_strays h)]
      exact ih

/-- The rule on escape sequences changes nothing. It warns once of each token with a stray unit, and
names the first one: a backslash and a letter, a digit or the underscore that names no escape
sequence, or a backslash by itself at the end of the source. -/
theorem escape_warnings_exact {file : SourceFile} {content : Bytes}
    (hfile : file.hasExtension Rule.phpExtensions = true) (hvalid : Utf8.valid content = true) :
    (Rule.escapeSequences.run file content).replacement = none ∧
      List.Forall₂ WarnsOf ((tokenize content).filter strays)
        (Rule.escapeSequences.run file content).diagnostics ∧
      ∀ before t after u, tokenize content = before ++ t :: after → FirstStray t u →
        (∃ c, u = [backslash, c] ∧ isWord c = true ∧ c ∉ escapeNames) ∨
          u = [backslash] ∧ after = [] := by
  have htokens : Rule.phpTokens file content = tokenize content := by
    rw [Rule.phpTokens, hfile, hvalid, Bool.and_self, if_pos rfl]
  refine ⟨rfl, ?_, ?_⟩
  · have hfound : (Rule.escapeSequences.run file content).diagnostics =
        (Rule.phpTokens file content).filterMap Rule.escapeWarning? := rfl
    rw [hfound, htokens]
    exact forall₂_warnsOf (tokenize content)
  · rintro before t after u h ⟨hkind, hfirst⟩
    rcases eq_of_isStray (List.find?_some hfirst) with rfl | hnamed
    · have hlex := lex_of_tokenize h
      rw [List.map_append, List.map_cons] at hlex
      have hafter := eq_nil_of_loneBackslash hlex hkind (List.mem_of_find?_eq_some hfirst)
      exact Or.inr ⟨rfl, List.map_eq_nil_iff.mp hafter⟩
    · exact Or.inl hnamed

/-- A literal with a backslash before a letter, a backslash before the first octet of a longer
character, and a source that ends after a backslash. -/
def strayPhp : Bytes := ascii "<?php \"\\n\\q\\w\";\n`\\" ++ [0xC3, 0xA9] ++ ascii "$x\\"

/-- There is a warning about the literal and one about the end of the source. -/
theorem escape_warnings_exact_strayPhp :
    (tokenize strayPhp).filter strays =
        [⟨⟨.doubleQuoted, ascii "\"\\n\\q\\w\""⟩, 1⟩, ⟨⟨.interpolated, ascii "\\"⟩, 2⟩] ∧
      List.Forall₂ WarnsOf ((tokenize strayPhp).filter strays)
        (Rule.escapeSequences.run (.ofPath "a.php") strayPhp).diagnostics :=
  ⟨by decide +kernel, (escape_warnings_exact (by decide +kernel) (by decide +kernel)).2.1⟩

end SourceTidy.Php
