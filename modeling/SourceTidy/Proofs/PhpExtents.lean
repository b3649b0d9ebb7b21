import SourceTidy.Proofs.PhpLexer
import SourceTidy.Proofs.StrippedText

/-! # What the lexemes of PHP look like

The scanners of the lexer say how far a lexeme reaches. Here the text that they take is described
without them: by the units of a literal, by the first end of a comment, by the parts of an opener.

* `quoteEnds_untilQuote`, `quoteEnds_plainUntilQuote?`: a literal ends at its first bare quote;
* `untilCommentEnd_first`: a comment ends at the first end after its opener;
* `opens_of_heredocOpener?`, `heredocOpener?_of_opens`, `closingLabel?_eq_some_iff`: what is at the
  start and at the end of a here document;
* `nowdocBody_lines`: no line of the body closes it.
-/

namespace SourceTidy.Php

open Ascii Bytes

/-! ## Runs of octets -/

section

variable {p : UInt8 → Bool}

theorem take_runLength (p : UInt8 → Bool) (s : Bytes) : s.take (runLength p s) = s.takeWhile p :=
  take_length_takeWhile p s

theorem drop_runLength (p : UInt8 → Bool) (s : Bytes) : s.drop (runLength p s) = s.dropWhile p :=
  drop_length_takeWhile p s

theorem nextIn_dropWhile (p : UInt8 → Bool) (s : Bytes) : nextIn p (s.dropWhile p) = false := by
  have h := List.head?_dropWhile_not p s
  cases hrest : (s.dropWhile p).head? with
  | none => simp [nextIn, hrest]
  | some b => simpa [nextIn, hrest] using h

/-- A run ends where an octet of another class comes next. -/
theorem takeWhile_append_stop {run rest : Bytes} (hrun : ∀ b ∈ run, p b = true)
    (hrest : nextIn p rest = false) : (run ++ rest).takeWhile p = run := by
  rw [List.takeWhile_append_of_pos hrun]
  cases rest with
  | nil => simp
  | cons b rest => rw [List.takeWhile_cons_of_neg (by simpa [nextIn] using hrest), List.append_nil]

end

/-! ## Units of a literal -/

/-- The units in which a literal is read: a backslash with the octet after it, or one octet. -/
def units : Bytes → List Bytes
  | [] => []
  | [b] => [[b]]
  | b :: c :: rest => if b = backslash then [b, c] :: units rest else [b] :: units (c :: rest)

@[simp] theorem units_escape (c : UInt8) (s : Bytes) :
    units (backslash :: c :: s) = [backslash, c] :: units s := by
  rw [units, if_pos rfl]

theorem units_octet {b : UInt8} (hb : b ≠ backslash) (s : Bytes) :
    units (b :: s) = [b] :: units s := by
  cases s with
  | nil => rfl
  | cons c s => rw [units, if_neg hb]

/-- Induction on the units of a text. -/
@[elab_as_elim]
theorem units_induction {motive : Bytes → Prop} (nil : motive []) (single : motive [backslash])
    (escape : ∀ c s, motive s → motive (backslash :: c :: s))
    (octet : ∀ b s, b ≠ backslash → motive s → motive (b :: s)) (s : Bytes) : motive s := by
  have hoctet : ∀ b s, motive s → (b = backslash → motive (b :: s)) → motive (b :: s) := by
    intro b s hs hescape
    by_cases hb : b = backslash
    · exact hescape hb
    · exact octet b s hb hs
  fun_induction units s with
  | case1 => exact nil
  | case2 b => exact hoctet b [] nil fun hb => hb ▸ single
  | case3 c s ih => exact escape c s ih
  | case4 b c s hb ih => exact octet b (c :: s) hb ih

/-- The last unit of the literal is a quote, and no unit before it is one. -/
def EndsAtQuote (quote : UInt8) (body : Bytes) : Prop :=
  ∃ before, units body = before ++ [[quote]] ∧ [quote] ∉ before

/-- The first `n` octets of the text end at the first bare quote, or there is none and they are
all. -/
def QuoteEnds (quote : UInt8) (s : Bytes) (n : Nat) : Prop :=
  EndsAtQuote quote (s.take n) ∨ [quote] ∉ units s ∧ s.length ≤ n

section

variable {quote : UInt8} {s : Bytes} {n : Nat}

theorem quoteEnds_nil (quote : UInt8) : QuoteEnds quote [] 0 :=
  Or.inr ⟨by simp [units], Nat.le_refl _⟩

theorem quoteEnds_quote (quote : UInt8) (s : Bytes) : QuoteEnds quote (quote :: s) 1 :=
  Or.inl ⟨[], rfl, by simp⟩

theorem quoteEnds_backslash (hquote : quote ≠ backslash) : QuoteEnds quote [backslash] 1 :=
  Or.inr ⟨by simpa [units] using hquote, Nat.le_refl _⟩

theorem QuoteEnds.escape (h : QuoteEnds quote s n) (c : UInt8) :
    QuoteEnds quote (backslash :: c :: s) (n + 2) := by
  rcases h with ⟨before, hunits, hbefore⟩ | ⟨hunits, hlength⟩
  · refine Or.inl ⟨[backslash, c] :: before, ?_, by simpa using hbefore⟩
    simp [hunits]
  · exact Or.inr ⟨by simpa using hunits, by simpa using hlength⟩

theorem QuoteEnds.octet {b : UInt8} (h : QuoteEnds quote s n) (hescape : b ≠ backslash)
    (hb : b ≠ quote) : QuoteEnds quote (b :: s) (n + 1) := by
  rcases h with ⟨before, hunits, hbefore⟩ | ⟨hunits, hlength⟩
  · refine Or.inl ⟨[b] :: before, ?_, by simpa [hb.symm] using hbefore⟩
    rw [List.take_succ_cons, units_octet hescape, hunits, List.cons_append]
  · refine Or.inr ⟨?_, by simpa using hlength⟩
    rw [units_octet hescape]
    simpa [hb.symm] using hunits

theorem untilQuote_quote (quote : UInt8) (s : Bytes) : untilQuote quote (quote :: s) = 1 := by
  rw [untilQuote.eq_def]
  exact if_pos rfl

theorem untilQuote_escape (hquote : quote ≠ backslash) (c : UInt8) (s : Bytes) :
    untilQuote quote (backslash :: c :: s) = untilQuote quote s + 2 := by
  rw [untilQuote.eq_def]
  simp only [hquote.symm, if_false, if_true]

theorem untilQuote_octet {b : UInt8} (hb : b ≠ quote) (hescape : b ≠ backslash) (s : Bytes) :
    untilQuote quote (b :: s) = untilQuote quote s + 1 := by
  rw [untilQuote.eq_def]
  simp only [hb, hescape, if_false]

/-- A literal ends at its first bare quote, and where there is none, it takes the rest. -/
theorem quoteEnds_untilQuote (hquote : quote ≠ backslash) (s : Bytes) :
    QuoteEnds quote s (untilQuote quote s) := by
  fun_induction untilQuote quote s with
  | case1 => exact quoteEnds_nil quote
  | case2 rest => exact quoteEnds_quote quote rest
  | case3 => exact quoteEnds_backslash hquote
  | case4 c rest _ ih => exact ih.escape c
  | case5 b rest hb hescape ih => exact ih.octet hescape hb

end

/-! ## Interpolations -/

/-- An interpolation starts here: `$` and a name, `${` or `{$`. -/
def Interpolates (s : Bytes) : Prop :=
  (∃ b rest, s = dollar :: b :: rest ∧ (isIdentStart b = true ∨ b = openBrace)) ∨
    ∃ rest, s = openBrace :: dollar :: rest

/-- The scanner looks for what starts an interpolation. -/
theorem startsInterpolation_iff (s : Bytes) : startsInterpolation s = true ↔ Interpolates s := by
  have hbrace : dollar ≠ openBrace := by decide
  rcases s with _ | ⟨b, _ | ⟨c, rest⟩⟩
  · simp [startsInterpolation, Interpolates]
  · simp [startsInterpolation, Interpolates, nextIn, nextIs]
  · by_cases hb : b = dollar
    · subst hb
      simp [startsInterpolation, Interpolates, nextIn, nextIs, hbrace]
    · simp [startsInterpolation, Interpolates, nextIs, hb]

/-- What starts an interpolation does so whatever follows. -/
theorem Interpolates.of_prefix {s t : Bytes} (h : Interpolates s) (ht : s <+: t) :
    Interpolates t := by
  obtain ⟨more, rfl⟩ := ht
  rcases h with ⟨b, rest, rfl, hb⟩ | ⟨rest, rfl⟩
  · exact Or.inl ⟨b, rest ++ more, rfl, hb⟩
  · exact Or.inr ⟨rest ++ more, rfl⟩

/-- No unit of the literal starts an interpolation. -/
def IsPlain (body : Bytes) : Prop :=
  ∀ before rest, units body = before ++ rest → ¬ Interpolates rest.flatten

/-- The units of a text make it up. -/
theorem flatten_units (s : Bytes) : (units s).flatten = s := by
  fun_induction units s with
  | case1 => rfl
  | case2 b => rfl
  | case3 c rest ih => simp [ih]
  | case4 b c rest _ ih => simp [ih]

theorem not_interpolates_nil : ¬ Interpolates [] := by
  rintro (⟨_, _, ⟨⟩, -⟩ | ⟨_, ⟨⟩⟩)

/-- A plain text with a unit before it that starts no interpolation. -/
theorem isPlain_of_units {u s t : Bytes} (h : units s = u :: units t) (hs : ¬ Interpolates s)
    (ht : IsPlain t) : IsPlain s := by
  intro before rest heq
  cases before with
  | nil =>
    rw [List.nil_append] at heq
    rwa [← heq, flatten_units]
  | cons v before =>
    rw [h, List.cons_append] at heq
    exact ht before rest (List.cons.inj heq).2

theorem isPlain_nil : IsPlain [] := by
  intro before rest heq
  rw [units, eq_comm, List.append_eq_nil_iff] at heq
  rw [heq.2]
  exact not_interpolates_nil

/-- An interpolation starts with a dollar sign or a brace. -/
theorem not_interpolates_cons {b : UInt8} (hdollar : b ≠ dollar) (hbrace : b ≠ openBrace)
    (s : Bytes) :
    ¬ Interpolates (b :: s) := by
  rintro (⟨c, rest, heq, -⟩ | ⟨rest, heq⟩)
  · exact hdollar (List.cons.inj heq).1
  · exact hbrace (List.cons.inj heq).1

theorem isPlain_escape {c : UInt8} {s : Bytes} (h : IsPlain s) : IsPlain (backslash :: c :: s) :=
  isPlain_of_units (units_escape c s) (not_interpolates_cons (by decide) (by decide) _) h

theorem isPlain_octet {b : UInt8} {s : Bytes} (hb : b ≠ backslash)
    (hstart : ¬ Interpolates (b :: s)) (h : IsPlain s) : IsPlain (b :: s) :=
  isPlain_of_units (units_octet hb s) hstart h

theorem isPlain_single {b : UInt8} : IsPlain [b] := by
  refine isPlain_of_units rfl ?_ isPlain_nil
  rintro (⟨_, _, ⟨⟩, -⟩ | ⟨_, ⟨⟩⟩)

theorem plainUntilQuote?_quote (s : Bytes) : plainUntilQuote? (doubleQuote :: s) = some 1 := by
  rw [plainUntilQuote?.eq_def]
  rfl

theorem plainUntilQuote?_escape (c : UInt8) (s : Bytes) :
    plainUntilQuote? (backslash :: c :: s) = (plainUntilQuote? s).map (· + 2) := by
  rw [plainUntilQuote?.eq_def]
  rfl

theorem plainUntilQuote?_octet {b : UInt8} {s : Bytes} (hescape : b ≠ backslash)
    (hb : b ≠ doubleQuote) (hstart : startsInterpolation (b :: s) = false) :
    plainUntilQuote? (b :: s) = (plainUntilQuote? s).map (· + 1) := by
  rw [plainUntilQuote?.eq_def]
  simp only [hescape, hb, hstart, if_false, Bool.false_eq_true]

/-- A literal without interpolations ends at its first bare quote too. -/
theorem quoteEnds_plainUntilQuote? {s : Bytes} {n : Nat} (h : plainUntilQuote? s = some n) :
    QuoteEnds doubleQuote s n ∧ IsPlain (s.take n) := by
  fun_induction plainUntilQuote? s generalizing n with
  | case1 =>
    cases h
    exact ⟨quoteEnds_nil _, isPlain_nil⟩
  | case2 =>
    cases h
    exact ⟨quoteEnds_backslash (by decide), isPlain_single⟩
  | case3 c rest ih =>
    obtain ⟨m, hm, rfl⟩ := Option.map_eq_some_iff.mp h
    obtain ⟨hends, hplain⟩ := ih hm
    exact ⟨hends.escape c, isPlain_escape hplain⟩
  | case4 rest =>
    cases h
    exact ⟨quoteEnds_quote _ rest, isPlain_single⟩
  | case5 => cases h
  | case6 b rest hescape hb hstart ih =>
    obtain ⟨m, hm, rfl⟩ := Option.map_eq_some_iff.mp h
    obtain ⟨hends, hplain⟩ := ih hm
    rw [startsInterpolation_iff] at hstart
    refine ⟨hends.octet hescape hb, isPlain_octet hescape (fun hinside => hstart ?_) hplain⟩
    -- had an interpolation started in what was taken, the scanner would have seen it in the whole
    -- text
    exact hinside.of_prefix (List.cons_prefix_cons.mpr ⟨rfl, List.take_prefix m rest⟩)

/-! ## Comments -/

/-- The text ends with the mark, and the mark does not stand before that. -/
def EndsAtFirst (mark s : Bytes) : Prop :=
  ∃ front, s = front ++ mark ∧ ∀ i < front.length, ¬ mark <+: s.drop i

/-- The mark stands nowhere in the text. -/
def IsWithout (mark s : Bytes) : Prop := ∀ i, ¬ mark <+: s.drop i

def commentEnd : Bytes := [star, slash]

/-- A comment ends at a star with a slash after it. -/
theorem commentEnd_prefix_iff {b : UInt8} {s : Bytes} :
    commentEnd <+: b :: s ↔ b = star ∧ nextIs slash s = true := by
  cases s with
  | nil => simp [commentEnd, nextIs]
  | cons c s =>
    rw [commentEnd, List.cons_prefix_cons, List.cons_prefix_cons, eq_comm, @eq_comm _ slash]
    simp [nextIs]

theorem untilCommentEnd_octet {b : UInt8} {s : Bytes} (h : ¬ commentEnd <+: b :: s) :
    untilCommentEnd (b :: s) = untilCommentEnd s + 1 := by
  rw [commentEnd_prefix_iff] at h
  rw [untilCommentEnd, if_neg (by simpa using h)]

/-- A comment ends at the first end after its opener, and where there is none, it takes the rest. -/
theorem untilCommentEnd_first (s : Bytes) :
    EndsAtFirst commentEnd (s.take (untilCommentEnd s)) ∨
      IsWithout commentEnd s ∧ s.length ≤ untilCommentEnd s := by
  fun_induction untilCommentEnd s with
  | case1 =>
    refine Or.inr ⟨?_, Nat.le_refl _⟩
    intro i
    simp [commentEnd]
  | case2 b rest hend =>
    obtain ⟨rest', hrest⟩ := commentEnd_prefix_iff.mpr (by simpa using hend)
    rw [← hrest]
    exact Or.inl ⟨[], rfl, by simp⟩
  | case3 b rest hend ih =>
    have hhere : ¬ commentEnd <+: b :: rest := by
      rw [commentEnd_prefix_iff]
      simpa using hend
    -- what was found further on is the first end, as there is none at this octet
    rcases ih with ⟨front, hfront, hfirst⟩ | ⟨hwithout, hlength⟩
    · refine Or.inl ⟨b :: front, by rw [List.take_succ_cons, hfront, List.cons_append], ?_⟩
      intro i hi
      cases i with
      | zero =>
        exact fun hmark => hhere (hmark.trans (List.take_prefix _ _))
      | succ i => exact hfirst i (by simpa using hi)
    · refine Or.inr ⟨?_, by simpa using hlength⟩
      intro i
      cases i with
      | zero => exact hhere
      | succ i => exact hwithout i

/-- A comment to the end of the line has no line feed in it. -/
theorem lf_not_mem_lineComment (nested : Bool) (s : Bytes) :
    lf ∉ s.take (lineComment nested s) := by
  fun_induction lineComment nested s with
  | case1 => simp
  | case2 => simp
  | case3 b rest hstop ih =>
    have hb : b ≠ lf := by
      rintro rfl
      simp at hstop
    rw [List.take_succ_cons, List.mem_cons, not_or]
    exact ⟨hb.symm, ih⟩

/-! ## Here documents -/

theorem isBlank_iff {b : UInt8} : isBlank b = true ↔ b = space ∨ b = tab := by
  simp [isBlank]

theorem isIdent_of_isIdentStart {b : UInt8} (h : isIdentStart b = true) : isIdent b = true := by
  simp [isIdent, h]

theorem not_isIdent_of_isBlank {b : UInt8} (h : isBlank b = true) : isIdent b = false := by
  rcases isBlank_iff.mp h with rfl | rfl <;> decide

/-- The name of a here document: an identifier. -/
structure IsLabel (label : Bytes) : Prop where
  start : nextIn isIdentStart label = true
  ident : ∀ b ∈ label, isIdent b = true

namespace IsLabel

variable {label : Bytes}

theorem ne_nil (h : IsLabel label) : label ≠ [] := by
  rintro rfl
  cases h.start

/-- What stands before a label is told apart from it by its class. -/
theorem nextIn_append (h : IsLabel label) {p : UInt8 → Bool}
    (hp : ∀ b, p b = true → isIdent b = false) (rest : Bytes) :
    nextIn p (label ++ rest) = false := by
  obtain ⟨b, label, rfl⟩ := List.exists_cons_of_ne_nil h.ne_nil
  have hident := h.ident b List.mem_cons_self
  rw [Bool.eq_false_iff]
  intro hb
  rw [hp b hb] at hident
  cases hident

end IsLabel

/-- What is taken for a line break is a line feed, with or without a carriage return. -/
theorem lineBreakLength_eq_some_iff {s : Bytes} {n : Nat} :
    lineBreakLength s = some n ↔
      ∃ (eol : LineEnding) (rest : Bytes), s = eol.bytes ++ rest ∧ n = eol.bytes.length := by
  constructor
  · intro h
    cases s with
    | nil => cases h
    | cons b s =>
      rw [lineBreakLength] at h
      split at h
      · next hb =>
        cases h
        exact ⟨.lf, s, by rw [hb]; rfl, rfl⟩
      · split at h
        · next hb =>
          cases h
          rw [Bool.and_eq_true, decide_eq_true_eq] at hb
          cases s with
          | nil => simp [nextIs] at hb
          | cons c s =>
            have hc : c = lf := by simpa [nextIs] using hb.2
            exact ⟨.crlf, s, by rw [hb.1, hc]; rfl, rfl⟩
        · cases h
  · rintro ⟨eol, rest, rfl, rfl⟩
    cases eol with
    | lf => rfl
    | crlf => rfl

/-- The label closes the here document at the start of this line: only blanks stand before it, and
it is not the start of a longer name. -/
def Closes (label line : Bytes) : Prop :=
  ∃ blanks rest, line = blanks ++ label ++ rest ∧ (∀ b ∈ blanks, isBlank b = true) ∧
    nextIn isIdent rest = false

/-- Where the label closes a here document, and how far that reaches. -/
theorem closingLabel?_eq_some_iff {label s : Bytes} {n : Nat} (hlabel : IsLabel label) :
    closingLabel? label s = some n ↔
      ∃ blanks rest, s = blanks ++ label ++ rest ∧ (∀ b ∈ blanks, isBlank b = true) ∧
        nextIn isIdent rest = false ∧ n = blanks.length + label.length := by
  simp only [closingLabel?, drop_runLength]
  constructor
  · intro h
    split at h
    · next hcloses =>
      cases h
      simp only [Bool.and_eq_true, List.isPrefixOf_iff_prefix, Bool.not_eq_true'] at hcloses
      obtain ⟨⟨rest, hrest⟩, hident⟩ := hcloses
      rw [← hrest, List.drop_left] at hident
      refine ⟨s.takeWhile isBlank, rest, ?_, fun b hb => List.mem_takeWhile_imp hb, hident, rfl⟩
      rw [List.append_assoc, hrest, List.takeWhile_append_dropWhile]
    · cases h
  · rintro ⟨blanks, rest, rfl, hblanks, hident, rfl⟩
    -- the run of blanks ends where the label starts
    have hstop : nextIn isBlank (label ++ rest) = false :=
      hlabel.nextIn_append (fun b => not_isIdent_of_isBlank) rest
    have hrun : (blanks ++ (label ++ rest)).takeWhile isBlank = blanks :=
      takeWhile_append_stop hblanks hstop
    have hdrop : (blanks ++ (label ++ rest)).dropWhile isBlank = label ++ rest := by
      rw [← drop_length_takeWhile, hrun, List.drop_left]
    rw [List.append_assoc, runLength, hrun, hdrop, List.drop_left, hident]
    simp

/-- Where nothing closes it, the line is one of the body. -/
theorem closingLabel?_eq_none_iff {label s : Bytes} (hlabel : IsLabel label) :
    closingLabel? label s = none ↔ ¬ Closes label s := by
  rw [Option.eq_none_iff_forall_ne_some]
  constructor
  · rintro hnone ⟨blanks, rest, hs, hblanks, hident⟩
    exact hnone _ ((closingLabel?_eq_some_iff hlabel).mpr ⟨blanks, rest, hs, hblanks, hident, rfl⟩)
  · intro hnot n hsome
    obtain ⟨blanks, rest, hs, hblanks, hident, -⟩ := (closingLabel?_eq_some_iff hlabel).mp hsome
    exact hnot ⟨blanks, rest, hs, hblanks, hident⟩

/-- How a label may be quoted. -/
def IsQuotes (quotes : Bytes) : Prop :=
  quotes = [] ∨ quotes = [singleQuote] ∨ quotes = [doubleQuote]

/-- An opener of a here document: `<<<`, blanks, a label, optionally in one pair of quotes, and a
line break. -/
def Opens (text quotes label : Bytes) : Prop :=
  ∃ (blanks : Bytes) (eol : LineEnding),
    text = ascii "<<<" ++ blanks ++ quotes ++ label ++ quotes ++ eol.bytes ∧
      (∀ b ∈ blanks, isBlank b = true) ∧ IsQuotes quotes ∧ IsLabel label

/-- The quote at the start of a text, if there is one. -/
def quoteAt (s : Bytes) : Option UInt8 :=
  s.head?.filter fun b => b == singleQuote || b == doubleQuote

/-- A text with the quote that it starts with, or without one. -/
theorem quoteAt_cases (s : Bytes) :
    IsQuotes (quoteAt s).toList ∧
      s = (quoteAt s).toList ++ s.drop (if (quoteAt s).isSome then 1 else 0) := by
  cases s with
  | nil => exact ⟨Or.inl rfl, rfl⟩
  | cons b s =>
    by_cases hb : b = singleQuote ∨ b = doubleQuote
    · have hsome : quoteAt (b :: s) = some b := by
        simpa [quoteAt, Option.filter_some, or_iff_not_imp_left] using hb
      rw [hsome]
      refine ⟨?_, rfl⟩
      rcases hb with rfl | rfl
      · exact Or.inr (Or.inl rfl)
      · exact Or.inr (Or.inr rfl)
    · have hnone : quoteAt (b :: s) = none := by simpa [quoteAt, Option.filter_some] using hb
      rw [hnone]
      exact ⟨Or.inl rfl, rfl⟩

/-- A label does not start with a quote. -/
theorem quoteAt_append_label {quotes label : Bytes} (hquotes : IsQuotes quotes)
    (hlabel : IsLabel label) (rest : Bytes) :
    quoteAt (quotes ++ (label ++ rest)) = quotes.head? := by
  rcases hquotes with rfl | rfl | rfl
  · obtain ⟨b, label, rfl⟩ := List.exists_cons_of_ne_nil hlabel.ne_nil
    have hident := hlabel.ident b List.mem_cons_self
    have hsingle : b ≠ singleQuote := by
      rintro rfl
      exact absurd hident (by decide)
    have hdouble : b ≠ doubleQuote := by
      rintro rfl
      exact absurd hident (by decide)
    simp [quoteAt, Option.filter_some, hsingle, hdouble]
  · rfl
  · rfl

/-- A run of the octets of a name is a label, if it starts as one. -/
theorem isLabel_takeWhile {s : Bytes} (h : nextIn isIdentStart s = true) :
    IsLabel (s.takeWhile isIdent) := by
  refine ⟨?_, fun b hb => List.mem_takeWhile_imp hb⟩
  obtain ⟨b, rest, rfl, hb⟩ := exists_of_nextIn h
  rw [List.takeWhile_cons_of_pos (isIdent_of_isIdentStart hb)]
  exact hb

/-- After a label that was quoted, the same quote has to stand. -/
theorem exists_closing_quote {quote : Option UInt8} {s : Bytes}
    (h : ¬ (quote.isSome && s.head? != quote) = true) :
    s = quote.toList ++ s.drop (if quote.isSome then 1 else 0) := by
  cases quote with
  | none => rfl
  | some q =>
    have hhead : s.head? = some q := by simpa using h
    obtain ⟨rest, rfl⟩ := List.head?_eq_some_iff.mp hhead
    rfl

/-- What is taken for an opener of a here document is one. -/
theorem opens_of_heredocOpener? {s : Bytes} {opener : HeredocOpener} (hs : ascii "<<<" <+: s)
    (h : heredocOpener? s = some opener) :
    ∃ quotes text rest, s = text ++ rest ∧ Opens text quotes opener.label ∧
      text.length = opener.extent ∧ opener.raw = (quotes == [singleQuote]) := by
  obtain ⟨t, rfl⟩ := hs
  unfold heredocOpener? at h
  extract_lets blanks afterBlanks quote quoteWidth labelText label afterLabel at h
  have hafter : afterBlanks = t.dropWhile isBlank := by
    show (ascii "<<<" ++ t).drop (3 + runLength isBlank t) = _
    rw [← List.drop_drop]
    exact drop_runLength isBlank t
  obtain ⟨hquotes, hopening⟩ := quoteAt_cases afterBlanks
  split at h
  · cases h
  · next hstart =>
    split at h
    · cases h
    · next hclosing =>
      split at h
      · cases h
      · next n hbreak =>
        obtain ⟨eol, rest, hrest, rfl⟩ := lineBreakLength_eq_some_iff.mp hbreak
        have hlabel : IsLabel label := isLabel_takeWhile (by simpa using hstart)
        have hlabelText : labelText = label ++ afterLabel := by
          show labelText =
              labelText.takeWhile isIdent ++ labelText.drop (labelText.takeWhile isIdent).length
          rw [drop_length_takeWhile, List.takeWhile_append_dropWhile]
        have hclosed : afterLabel = quote.toList ++ (eol.bytes ++ rest) := by
          rw [← hrest]
          exact exists_closing_quote hclosing
        -- the parts of the opener, put together again
        have htext : t = t.takeWhile isBlank ++ (quote.toList ++ (label ++ (quote.toList ++
            (eol.bytes ++ rest)))) := by
          have hopened : t.dropWhile isBlank = quote.toList ++ labelText :=
            hafter.symm.trans hopening
          rw [← hclosed, ← hlabelText, ← hopened, List.takeWhile_append_dropWhile]
        have hwidth : quote.toList.length = quoteWidth := by
          show quote.toList.length = if quote.isSome then 1 else 0
          cases quote <;> rfl
        cases h
        refine ⟨quote.toList,
          ascii "<<<" ++ t.takeWhile isBlank ++ quote.toList ++ label ++ quote.toList ++ eol.bytes,
          rest, ?_, ⟨_, eol, rfl, fun b hb => List.mem_takeWhile_imp hb, hquotes, hlabel⟩, ?_, ?_⟩
        · conv_lhs => rw [htext]
          simp only [List.append_assoc]
        · simp only [List.length_append, hwidth]
          rfl
        · cases quote <;> simp

/-- Openers of here documents are taken for such. -/
theorem heredocOpener?_of_opens {text quotes label : Bytes} (h : Opens text quotes label)
    (rest : Bytes) :
    heredocOpener? (text ++ rest) = some ⟨text.length, label, quotes == [singleQuote]⟩ := by
  obtain ⟨blanks, eol, rfl, hblanks, hquotes, hlabel⟩ := h
  -- what is left of the source at each place where the scanner stops
  generalize hbroken : eol.bytes ++ rest = broken
  generalize hclosing : quotes ++ broken = closing
  generalize hnamed : label ++ closing = named
  generalize hopening : quotes ++ named = opening
  have hsource : ascii "<<<" ++ blanks ++ quotes ++ label ++ quotes ++ eol.bytes ++ rest =
      ascii "<<<" ++ (blanks ++ opening) := by
    simp only [← hopening, ← hnamed, ← hclosing, ← hbroken, List.append_assoc]
  have hbreak : lineBreakLength broken = some eol.bytes.length :=
    lineBreakLength_eq_some_iff.mpr ⟨eol, rest, hbroken.symm, rfl⟩
  have hname : named.takeWhile isIdent = label := by
    have hend : nextIn isIdent closing = false := by
      rw [← hclosing, ← hbroken]
      rcases hquotes with rfl | rfl | rfl <;> cases eol <;> rfl
    rw [← hnamed]
    exact takeWhile_append_stop hlabel.ident hend
  have hstart : nextIn isIdentStart named = true := by
    obtain ⟨b, label, rfl, hb⟩ := exists_of_nextIn hlabel.start
    rw [← hnamed]
    exact hb
  have hrun : runLength isBlank (blanks ++ opening) = blanks.length := by
    have hstop : nextIn isBlank opening = false := by
      rw [← hopening, ← hnamed]
      rcases hquotes with rfl | rfl | rfl
      · exact hlabel.nextIn_append (fun b => not_isIdent_of_isBlank) _
      · rfl
      · rfl
    rw [runLength, takeWhile_append_stop hblanks hstop]
  have hquote : (opening.head?.filter fun b => b == singleQuote || b == doubleQuote) =
      quotes.head? := by
    rw [← hopening, ← hnamed]
    exact quoteAt_append_label hquotes hlabel closing
  have hwidth : (if quotes.head?.isSome then 1 else 0) = quotes.length := by
    rcases hquotes with rfl | rfl | rfl <;> rfl
  have hafter : (ascii "<<<" ++ (blanks ++ opening)).drop (3 + blanks.length) = opening := by
    rw [← List.drop_drop]
    exact List.drop_left
  have hsame : (quotes.head?.isSome && closing.head? != quotes.head?) = false := by
    rw [← hclosing]
    rcases hquotes with rfl | rfl | rfl <;> simp
  have hraw : (quotes.head? == some singleQuote) = (quotes == [singleQuote]) := by
    rcases hquotes with rfl | rfl | rfl <;> decide
  have hopener : (ascii "<<<" ++ (blanks ++ opening)).drop 3 = blanks ++ opening := rfl
  have hlabelText : opening.drop quotes.length = named := by rw [← hopening, List.drop_left]
  have hafterLabel : named.drop label.length = closing := by rw [← hnamed, List.drop_left]
  have hbreakText : closing.drop quotes.length = broken := by rw [← hclosing, List.drop_left]
  rw [hsource]
  simp only [heredocOpener?, hopener, hrun, hafter, hquote, hwidth, hlabelText, hname, hafterLabel,
    hbreakText, hbreak, hstart, hsame, hraw]
  simp [show (ascii "<<<").length = 3 from rfl, Nat.add_assoc]

/-! ## Raw here documents -/

/-- The first line of a text, without its line feed. -/
def firstLine (s : Bytes) : Bytes := s.takeWhile (· != lf)

/-- The first line is the first of the lines. -/
theorem lines_eq_firstLine (s : Bytes) : ∃ more, lines s = firstLine s :: more := by
  induction s with
  | nil => exact ⟨[], rfl⟩
  | cons b s ih =>
    by_cases hb : b = lf
    · exact ⟨lines s, by simp [lines, firstLine, hb]⟩
    · obtain ⟨more, hmore⟩ := ih
      refine ⟨more, ?_⟩
      rw [lines, if_neg hb, hmore]
      simp [firstLine, hb]

theorem lines_cons_of_ne {b : UInt8} (hb : b ≠ lf) (s : Bytes) :
    (lines (b :: s)).tail = (lines s).tail := by
  obtain ⟨more, hmore⟩ := lines_eq_firstLine s
  simp [lines, hb, hmore]

/-- A label that closes on the first line closes the text. -/
theorem Closes.of_firstLine {label s : Bytes} (h : Closes label (firstLine s)) :
    Closes label s := by
  obtain ⟨blanks, rest, hline, hblanks, hident⟩ := h
  refine ⟨blanks, rest ++ s.dropWhile (· != lf), ?_, hblanks, ?_⟩
  · rw [← List.append_assoc, ← hline, firstLine, List.takeWhile_append_dropWhile]
  · cases rest with
    | cons b rest => exact hident
    | nil =>
      -- at the end of the line only a line feed can come next
      rw [List.nil_append]
      cases hrest : s.dropWhile (· != lf) with
      | nil => rfl
      | cons b more =>
        have hhead := List.head?_dropWhile_not (fun b => b != lf) s
        rw [hrest] at hhead
        have hb : b = lf := by simpa using hhead
        rw [hb]
        rfl

theorem not_closes_nil {label : Bytes} (hlabel : IsLabel label) : ¬ Closes label [] := by
  rintro ⟨blanks, rest, hnil, -, -⟩
  rw [eq_comm, List.append_eq_nil_iff, List.append_eq_nil_iff] at hnil
  exact hlabel.ne_nil hnil.1.2

theorem nowdocBody_closed {label s : Bytes} {n : Nat} (h : closingLabel? label s = some n) :
    nowdocBody label true s = (0, n) := by
  rw [nowdocBody.eq_def]
  simp [h]

theorem nowdocBody_cons {label rest : Bytes} {lineStart : Bool} {b : UInt8}
    (h : lineStart = true → closingLabel? label (b :: rest) = none) :
    nowdocBody label lineStart (b :: rest) =
      ((nowdocBody label (decide (b = lf)) rest).1 + 1,
        (nowdocBody label (decide (b = lf)) rest).2) := by
  have hopen : (if lineStart = true then closingLabel? label (b :: rest) else none) = none := by
    split
    · next hstart => exact h hstart
    · rfl
  rw [nowdocBody.eq_def]
  dsimp only
  rw [hopen]

/-- The body ends at the start of a line, or with the source. -/
theorem nowdocBody_ends (label : Bytes) (lineStart : Bool) (s : Bytes) :
    s.length ≤ (nowdocBody label lineStart s).1 ∨
      (lineStart = true ∧ (nowdocBody label lineStart s).1 = 0) ∨
      (s.take (nowdocBody label lineStart s).1).getLast? = some lf := by
  fun_induction nowdocBody label lineStart s with
  | case1 lineStart s n hclosed =>
    right; left
    cases lineStart with
    | false => cases hclosed
    | true => exact ⟨rfl, rfl⟩
  | case2 => exact Or.inl (Nat.le_refl _)
  | case3 lineStart b rest body n hrest _ ih =>
    rw [hrest] at ih
    rcases ih with hall | ⟨hfeed, hzero⟩ | hlast
    · exact Or.inl (by simpa using hall)
    · right; right
      have hb : b = lf := by simpa using hfeed
      have hbody : body = 0 := hzero
      simp [hb, hbody]
    · right; right
      rw [List.take_succ_cons, List.getLast?_cons, hlast]
      rfl

/-- The first line of the body is the first line of the source. -/
theorem firstLine_nowdocBody {label : Bytes} {lineStart : Bool} {s : Bytes}
    (h : (nowdocBody label lineStart s).1 ≠ 0) :
    firstLine (s.take (nowdocBody label lineStart s).1) = firstLine s := by
  rcases nowdocBody_ends label lineStart s with hall | ⟨-, hzero⟩ | hlast
  · rw [List.take_of_length_le hall]
  · exact absurd hzero h
  · have hmem := List.mem_of_getLast? hlast
    conv_rhs => rw [← List.take_append_drop (nowdocBody label lineStart s).1 s]
    rw [firstLine, firstLine, List.takeWhile_append, if_neg]
    intro hlength
    have hall := List.takeWhile_eq_self_iff.mp ((List.takeWhile_prefix _).eq_of_length hlength)
    exact absurd (hall lf hmem) (by simp)

/-- The first line of a body does not close it. -/
theorem not_closes_firstLine {label : Bytes} (hlabel : IsLabel label) (s : Bytes) :
    ¬ Closes label (firstLine (s.take (nowdocBody label true s).1)) := by
  by_cases hbody : (nowdocBody label true s).1 = 0
  · rw [hbody, List.take_zero]
    exact not_closes_nil hlabel
  · rw [firstLine_nowdocBody hbody]
    intro hcloses
    -- the label would have been found at once
    cases hclosed : closingLabel? label s with
    | none => exact (closingLabel?_eq_none_iff hlabel).mp hclosed hcloses.of_firstLine
    | some n =>
      rw [nowdocBody_closed hclosed] at hbody
      exact hbody rfl

/-- No line of the body closes it, apart from the first one if the body starts inside of a line. -/
theorem nowdocBody_tail {label : Bytes} (hlabel : IsLabel label) (lineStart : Bool) (s : Bytes) :
    ∀ line ∈ (lines (s.take (nowdocBody label lineStart s).1)).tail, ¬ Closes label line := by
  fun_induction nowdocBody label lineStart s with
  | case1 => simp [lines]
  | case2 => simp [lines]
  | case3 lineStart b rest body n hrest _ ih =>
    have hbody : (nowdocBody label (decide (b = lf)) rest).1 = body := by rw [hrest]
    rw [hbody] at ih
    rw [List.take_succ_cons]
    by_cases hb : b = lf
    · obtain ⟨more, hmore⟩ := lines_eq_firstLine (rest.take body)
      rw [hmore] at ih
      rw [lines, if_pos hb, List.tail_cons, hmore, List.forall_mem_cons]
      refine ⟨?_, ih⟩
      rw [← hbody, decide_eq_true hb]
      exact not_closes_firstLine hlabel rest
    · rw [lines_cons_of_ne hb]
      exact ih

/-- No line of the body closes it. -/
theorem nowdocBody_lines {label : Bytes} (hlabel : IsLabel label) (s : Bytes) :
    ∀ line ∈ lines (s.take (nowdocBody label true s).1), ¬ Closes label line := by
  obtain ⟨more, hmore⟩ := lines_eq_firstLine (s.take (nowdocBody label true s).1)
  have htail := nowdocBody_tail hlabel true s
  rw [hmore] at htail ⊢
  exact List.forall_mem_cons.mpr ⟨not_closes_firstLine hlabel s, htail⟩

end SourceTidy.Php
