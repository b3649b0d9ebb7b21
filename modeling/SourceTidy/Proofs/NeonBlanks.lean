import SourceTidy.Proofs.NeonLexing

/-! # Blanks in NEON documents

What the lexer makes of a text whose white space has been tidied. Blanks before line breaks are
stripped in strings of several lines as well, so the text of a scalar can change. All else stays.

* `lexeme_stripLines`, `entryIndent?_stripLines`: the symbols and lines of a stripped text;
* `lexeme_append_spacing`: the symbols of a text with other white space at its end;
* `lex_tidyWhitespace`: the tokens of a tidy text.
-/

namespace SourceTidy.Neon

open Ascii Bytes

/-! ## Stripped documents -/

section

variable {s : Bytes} {b quote : UInt8} {n : Nat} {symbol? : Option Symbol}

theorem spaceFollows_stripLines (s : Bytes) : spaceFollows (stripLines s) = spaceFollows s := by
  rw [spaceFollows, spaceFollows, isEmpty_stripLines, nextIn_stripLines fun _ hb => hb]

theorem endsItem_of_isSpacing (hb : isSpacing b = true) :
    (b == comma || b == closeBracket || b == closeBrace || b == closeParen) = false := by
  simp only [Bool.or_eq_false_iff, beq_eq_false_iff_ne]
  refine ⟨⟨⟨?_, ?_⟩, ?_⟩, ?_⟩ <;> exact ne_of_isSpacing hb (by decide)

theorem valueFollows_stripLines (s : Bytes) : valueFollows (stripLines s) = valueFollows s := by
  rw [valueFollows, valueFollows, spaceFollows_stripLines,
    nextIn_stripLines fun _ hb => endsItem_of_isSpacing hb]

/-- Punctuation depends on what follows it, and that can still be told. -/
theorem punctuation?_stripLines (b : UInt8) (s : Bytes) :
    punctuation? b (stripLines s) = punctuation? b s := by
  rw [punctuation?, punctuation?, spaceFollows_stripLines, valueFollows_stripLines]

/-! ### Literals -/

theorem literalRest_stop (h : (stopsLiteral b || (b = colon && valueFollows s)) = true) :
    literalRest (b :: s) = (0, true) := by
  rw [literalRest, if_pos h]

/-- A literal goes on over a blank if more of it follows. -/
theorem literalRest_blank (hb : isInnerBlank b = true) (s : Bytes) :
    literalRest (b :: s) =
      if (literalRest s).2 then (0, true) else ((literalRest s).1 + 1, false) := by
  have hstop : ¬ (stopsLiteral b || (b = colon && valueFollows s)) = true := by
    simp only [isInnerBlank, isBlank, Bool.or_eq_true, beq_iff_eq] at hb
    rcases hb with (rfl | rfl) | rfl <;> exact Bool.false_ne_true
  rw [literalRest, if_neg hstop]
  exact if_pos hb

/-- A literal goes on with any other octet; a hash ends it if blanks stand before. -/
theorem literalRest_text (hstop : ¬ (stopsLiteral b || (b = colon && valueFollows s)) = true)
    (hb : isInnerBlank b = false) :
    literalRest (b :: s) = ((literalRest s).1 + 1, decide (b = hash)) := by
  rw [literalRest, if_neg hstop]
  exact if_neg (by simp [hb])

/-- White space before the end of a line ends a literal. -/
theorem literalRest_of_endsLine (h : (stripped s).endsLine = true) : literalRest s = (0, true) := by
  induction s with
  | nil => cases h
  | cons b s ih =>
    cases hb : isBlank b with
    | true =>
      rw [stripped_blank s hb] at h
      rw [literalRest_blank (isInnerBlank_of_isBlank hb), ih h]
      rfl
    | false =>
      rw [stripped_not_blank s hb] at h
      simp only [Bool.or_eq_true, Bool.and_eq_true, beq_iff_eq] at h
      -- the line break, or its carriage return, which is a blank here
      rcases h with rfl | ⟨rfl, hfeed⟩
      · exact literalRest_stop rfl
      · obtain ⟨rest, rfl⟩ := exists_of_startsWithFeed hfeed
        rw [literalRest_blank rfl, literalRest_stop rfl]
        rfl

/-- Stripped blanks are not part of a literal. -/
theorem literalRest_stripLines (s : Bytes) : literalRest (stripLines s) = literalRest s := by
  induction s with
  | nil => rfl
  | cons b s ih =>
    rw [stripLines_cons]
    split
    -- a blank that is stripped stands before the end of the line, and so does not belong to the
    -- literal
    · next hstripped =>
      rw [isStripped, Bool.and_eq_true] at hstripped
      have hend := literalRest_of_endsLine hstripped.2
      rw [ih, literalRest_blank (isInnerBlank_of_isBlank hstripped.1), hend]
      rfl
    · by_cases hstop : (stopsLiteral b || (b = colon && valueFollows s)) = true
      · rw [literalRest_stop hstop, literalRest_stop (by rwa [valueFollows_stripLines])]
      · cases hb : isInnerBlank b with
        | true => rw [literalRest_blank hb, literalRest_blank hb, ih]
        | false =>
          rw [literalRest_text hstop hb, literalRest_text (by rwa [valueFollows_stripLines]) hb, ih]

/-- A literal stays as it is. -/
theorem stripLines_literal (s : Bytes) :
    lf ∉ s.take (literalRest s).1 ∧
      stripLines s = s.take (literalRest s).1 ++ stripLines (s.drop (literalRest s).1) := by
  induction s with
  | nil => simp
  | cons b s ih =>
    obtain ⟨hlf, hparts⟩ := ih
    by_cases hstop : (stopsLiteral b || (b = colon && valueFollows s)) = true
    · simp [literalRest_stop hstop]
    · have hne : lf ≠ b := by
        rintro rfl
        exact hstop rfl
      have hkept : isStripped b s = false → lf ∉ (b :: s).take ((literalRest s).1 + 1) ∧
          stripLines (b :: s) = (b :: s).take ((literalRest s).1 + 1) ++
            stripLines ((b :: s).drop ((literalRest s).1 + 1)) := by
        intro hkept
        rw [List.take_succ_cons, List.drop_succ_cons, stripLines_cons, hkept,
          if_neg Bool.false_ne_true]
        refine ⟨?_, ?_⟩
        · rw [List.mem_cons, not_or]
          exact ⟨hne, hlf⟩
        · rw [List.cons_append, ← hparts]
      cases hb : isInnerBlank b with
      | false =>
        rw [literalRest_text hstop hb]
        refine hkept ?_
        have hblank : isBlank b = false := by
          rw [isInnerBlank, Bool.or_eq_false_iff] at hb
          exact hb.1
        rw [isStripped, hblank, Bool.false_and]
      | true =>
        rw [literalRest_blank hb]
        split
        · simp
        · next hends =>
          -- more of the literal follows, so the line does not end here
          refine hkept ?_
          rw [isStripped, Bool.and_eq_false_iff, Bool.eq_false_iff, Bool.eq_false_iff]
          refine Or.inr fun hline => hends ?_
          rw [literalRest_of_endsLine hline]

/-! ### Strings -/

/-- A string on one line with this body ends at the next quote. What follows it matters only if that
is a single quote. -/
structure ClosedBefore (quote : UInt8) (body rest : Bytes) : Prop where
  oneLine : lf ∉ body
  closed : ∀ rest', nextIs singleQuote rest' = nextIs singleQuote rest →
    quotedBody quote (body ++ quote :: rest') = .ok body.length

/-- More text at the front of a body that is closed. -/
theorem ClosedBefore.append_left {body rest : Bytes} (h : ClosedBefore quote body rest)
    (front : Bytes) (hlf : lf ∉ front)
    (hfront : ∀ more, quotedBody quote (front ++ more) =
      (quotedBody quote more).map (· + front.length)) :
    ClosedBefore quote (front ++ body) rest := by
  constructor
  · rw [List.mem_append, not_or]
    exact ⟨hlf, h.oneLine⟩
  · intro rest' hrest
    rw [List.append_assoc, hfront, h.closed rest' hrest, List.length_append, Nat.add_comm]
    rfl

/-- A string is closed by its quote, unless that is one of two single quotes. -/
theorem quotedBody_quote (hlf : ¬ quote = lf)
    (hescape : ¬ (quote = backslash && quote = doubleQuote) = true)
    (h : quote = singleQuote → nextIs singleQuote s = false) :
    quotedBody quote (quote :: s) = .ok 0 := by
  rw [quotedBody.eq_def]
  simp only [hlf, hescape, Bool.false_eq_true, if_false, if_true]
  cases s with
  | nil => rfl
  | cons c s =>
    refine if_neg ?_
    rw [Bool.and_eq_true, decide_eq_true_eq, decide_eq_true_eq]
    rintro ⟨hquote, rfl⟩
    cases h hquote

/-- A string on one line is closed by a quote on that line, whatever comes later. -/
theorem quotedBody_eq_ok (h : quotedBody quote s = .ok n) :
    ∃ body rest, s = body ++ quote :: rest ∧ n = body.length ∧ ClosedBefore quote body rest := by
  fun_induction quotedBody quote s generalizing n with
  | case1 => cases h
  | case2 => cases h
  | case3 => cases h
  -- an escape sequence takes two octets, and so do two single quotes
  | case4 b hlf hescape c s hc ih =>
    obtain ⟨m, hm, rfl⟩ := map_eq_ok h
    obtain ⟨body, rest, rfl, rfl, hclosed⟩ := ih hm
    refine ⟨b :: c :: body, rest, rfl, rfl, hclosed.append_left [b, c] ?_ ?_⟩
    · have hc' : c ≠ lf := by
        rintro rfl
        revert hc
        decide
      simp [Ne.symm hlf, hc'.symm]
    · intro more
      rw [List.cons_append, List.cons_append, List.nil_append, quotedBody.eq_def]
      simp only [hlf, hescape, hc, if_false, if_true]
      rfl
  | case5 => cases h
  | case6 c s hdoubled hlf hescape ih =>
    obtain ⟨m, hm, rfl⟩ := map_eq_ok h
    obtain ⟨body, rest, rfl, rfl, hclosed⟩ := ih hm
    refine ⟨quote :: c :: body, rest, rfl, rfl, hclosed.append_left [quote, c] ?_ ?_⟩
    · have hc : c = quote := by
        simp only [Bool.and_eq_true, decide_eq_true_eq] at hdoubled
        rw [hdoubled.1, hdoubled.2]
      simp [hc, Ne.symm hlf]
    · intro more
      rw [List.cons_append, List.cons_append, List.nil_append, quotedBody.eq_def]
      simp only [hlf, hescape, hdoubled, if_false, if_true]
      rfl
  -- the quote that closes the string, with something after it or not
  | case7 c s hdoubled hlf hescape =>
    cases h
    refine ⟨[], c :: s, rfl, rfl, by simp, ?_⟩
    intro rest' hrest
    refine quotedBody_quote hlf hescape ?_
    rintro rfl
    rw [hrest]
    simpa [nextIs] using hdoubled
  | case8 hlf hescape =>
    cases h
    exact ⟨[], [], rfl, rfl, by simp,
      fun rest' hrest => quotedBody_quote hlf hescape fun _ => hrest⟩
  | case9 b s hlf hescape hb ih =>
    obtain ⟨m, hm, rfl⟩ := map_eq_ok h
    obtain ⟨body, rest, rfl, rfl, hclosed⟩ := ih hm
    refine ⟨b :: body, rest, rfl, rfl, hclosed.append_left [b] ?_ ?_⟩
    · simp [Ne.symm hlf]
    · intro more
      rw [List.cons_append, List.nil_append, quotedBody.eq_def]
      simp only [hlf, hescape, hb, if_false]
      rfl

theorem isSpacing_of_quote (hquote : (quote = singleQuote || quote = doubleQuote) = true) :
    isSpacing quote = false := by
  simp only [Bool.or_eq_true, decide_eq_true_eq] at hquote
  rcases hquote with rfl | rfl <;> rfl

theorem isWord_quotes (hquote : isSpacing quote = false) : IsWord [quote, quote, quote] :=
  ⟨by simp, by simp [hquote]⟩

theorem nextIs_stripLines (hb : isSpacing b = false) (s : Bytes) :
    nextIs b (stripLines s) = nextIs b s := by
  rw [nextIs_eq_nextIn, nextIs_eq_nextIn]
  exact nextIn_stripLines (fun c hc => beq_false_of_ne (ne_of_isSpacing hc hb)) s

/-- The text of a string is stripped, and what follows it is stripped apart. -/
theorem quotedString_stripLines {text : Bytes} (hquote : isSpacing quote = false)
    (h : quotedString quote (quote :: s) = .ok (text, n)) :
    ∃ n', quotedString quote (quote :: stripLines s) = .ok (stripLines text, n') ∧
      Beyond (quote :: s) n n' := by
  have hword := isWord_quotes hquote
  have hblank := isBlank_of_not_isSpacing hquote
  have hcons : quote :: stripLines s = stripLines (quote :: s) :=
    (stripLines_not_blank s hblank).symm
  have hopens : [quote, quote, quote].isPrefixOf (quote :: stripLines s) =
      [quote, quote, quote].isPrefixOf (quote :: s) := by
    rw [Bool.eq_iff_iff, List.isPrefixOf_iff_prefix, List.isPrefixOf_iff_prefix, hcons]
    exact prefix_stripLines_iff hword.text
  unfold quotedString at h ⊢
  rw [hopens]
  split at h
  -- a string of several lines is searched for its end, which moves by what is stripped before it
  · next hthree =>
    obtain ⟨r, rfl⟩ : ∃ r, s = quote :: quote :: r := by
      obtain ⟨r, hr⟩ := List.isPrefixOf_iff_prefix.mp hthree
      exact ⟨r, (List.cons.inj hr).2.symm⟩
    rw [if_pos hthree, stripLines_not_blank _ hblank, stripLines_not_blank _ hblank]
    rcases (indexOf?_stripLines hword r).eq_none_or_eq_some with
      ⟨hnone, -⟩ | ⟨m, m', hsome, hsome', hfound⟩
    · simp [hnone] at h
    · have hend := ((hfound.cons_text hword hblank).cons_text hword hblank).cons_text hword hblank
      obtain rfl : m' = strippedOffset r m := Option.some.inj hfound.moved
      have htake := (take_strippedOffset (hword.startsInText (hfound.there m rfl))).1
      simp only [List.drop_succ_cons, List.drop_zero, hsome, hsome'] at h ⊢
      cases h
      exact ⟨strippedOffset r m + 6, by rw [htake], hend.beyond hword⟩
  -- a string on one line has no blank that is stripped
  · next hone =>
    rw [if_neg hone]
    obtain ⟨m, hm, htext⟩ := map_eq_ok h
    obtain ⟨body, rest, hs, rfl, hclosed⟩ := quotedBody_eq_ok hm
    obtain rfl : s = body ++ quote :: rest := hs
    have hstrip : stripLines (body ++ quote :: rest) = body ++ quote :: stripLines rest := by
      rw [stripLines_append_text _ ⟨quote, rest, rfl, hquote⟩,
        (stripLines_of_one_line hclosed.oneLine).1, stripLines_not_blank _ hblank]
    have hbody := hclosed.closed (stripLines rest) (nextIs_stripLines rfl rest)
    cases htext
    refine ⟨body.length + 2, ?_, ?_⟩
    · rw [hstrip, List.drop_one, List.tail_cons, List.drop_one, List.tail_cons, hbody]
      simp [Except.map, (stripLines_of_one_line hclosed.oneLine).1]
    · have hfront := beyond_of_front (quote :: body ++ [quote]) rest
        (by simp [hstrip, stripLines_not_blank _ hblank])
      simpa using hfront

/-! ### Symbols and lines -/

/-- Punctuation has no text. -/
theorem rename_of_punctuation? {symbol : Symbol} (f : Bytes → Bytes)
    (h : punctuation? b s = some symbol) :
    symbol.rename f = symbol := by
  have hsame : (punctuation? b s).map (Symbol.rename f) = punctuation? b s := by
    simp only [punctuation?, apply_ite (Option.map (Symbol.rename f)), Option.map_some,
      Option.map_none, Symbol.rename]
  rw [h] at hsame
  exact Option.some.inj hsame

theorem literalRest_le (s : Bytes) : (literalRest s).1 ≤ s.length := by
  induction s with
  | nil => rfl
  | cons b s ih =>
    by_cases hstop : (stopsLiteral b || (b = colon && valueFollows s)) = true
    · simp [literalRest_stop hstop]
    · cases hb : isInnerBlank b with
      | false => simpa [literalRest_text hstop hb] using ih
      | true =>
        rw [literalRest_blank hb]
        split
        · simp
        · simpa using ih

/-- Outside of strings a symbol stays as it is. -/
theorem lexeme_stripLines (hlf : b ≠ lf) (h : lexeme b s = .ok (symbol?, n)) :
    ∃ n', lexeme b (stripLines s) = .ok (symbol?.map (Symbol.rename stripLines), n') ∧
      Stripping ((b :: s).drop n) ((b :: stripLines s).drop n') ∧
      lineBreaks ((b :: stripLines s).take n') = lineBreaks ((b :: s).take n) := by
  unfold lexeme at h ⊢
  rw [punctuation?_stripLines]
  cases hsymbol : punctuation? b s with
  | some symbol =>
    rw [hsymbol] at h
    cases h
    exact ⟨1, by rw [Option.map_some, rename_of_punctuation? stripLines hsymbol], rfl, rfl⟩
  | none =>
    rw [hsymbol] at h
    simp only at h ⊢
    split_ifs at h ⊢ with hblank hhash hquote
    -- blanks, a comment, a string and a literal, in the order in which the lexer asks
    · cases h
      exact ⟨1, rfl, rfl, rfl⟩
    · cases h
      subst hhash
      obtain ⟨hrest, hbreaks⟩ := comment_extent s
      obtain ⟨hrest', hbreaks'⟩ := comment_extent (stripLines s)
      refine ⟨_, rfl, ?_, ?_⟩
      · rw [hrest, hrest']
        exact dropWhile_stripLines s
      · rw [hbreaks, hbreaks']
    · obtain ⟨⟨text, m⟩, hstring, hm⟩ := map_eq_ok h
      cases hm
      have hspacing := isSpacing_of_quote hquote
      obtain ⟨n', hstring', hbeyond⟩ := quotedString_stripLines hspacing hstring
      obtain ⟨hrest, hbreaks⟩ := hbeyond
      rw [stripLines_not_blank _ (isBlank_of_not_isSpacing hspacing)] at hrest hbreaks
      refine ⟨n', ?_, hrest, hbreaks⟩
      rw [hstring']
      rfl
    · cases h
      have htext : isBlank b = false := by
        simp only [isInnerBlank, Bool.or_eq_true, not_or, Bool.not_eq_true] at hblank
        exact hblank.1
      obtain ⟨hline, hparts⟩ := stripLines_literal (b :: s)
      have hlength : ((b :: s).take (literalRest (b :: s)).1).length = (literalRest (b :: s)).1 :=
        List.length_take_of_le (literalRest_le _)
      have hbeyond := beyond_of_front ((b :: s).take (literalRest (b :: s)).1)
        ((b :: s).drop (literalRest (b :: s)).1) (by rw [List.take_append_drop]; exact hparts)
      rw [List.take_append_drop, hlength] at hbeyond
      obtain ⟨hrest, hbreaks⟩ := hbeyond
      rw [stripLines_not_blank _ htext] at hrest hbreaks hparts
      refine ⟨(literalRest (b :: s)).1, ?_, hrest, hbreaks⟩
      have hsame : literalRest (b :: stripLines s) = literalRest (b :: s) := by
        rw [← stripLines_not_blank s htext, literalRest_stripLines]
      rw [hsame, Option.map_some, Symbol.rename, (stripLines_of_one_line hline).1, hparts,
        List.take_left' hlength]

/-- Where the stripped text has the end of a line, nothing is left on that line. -/
theorem idle_of_nextIs_lf (h : nextIs lf (stripLines s) = true) : Idle s := by
  induction s with
  | nil => exact .nil
  | cons b s ih =>
    rw [stripLines_cons] at h
    split at h
    · next hstripped =>
      rw [isStripped, Bool.and_eq_true] at hstripped
      exact .blank (isInnerBlank_of_isBlank hstripped.1) (ih h)
    · obtain rfl : b = lf := by simpa [nextIs] using h
      exact .lineEnd s

/-- A text without the blanks that it starts with. -/
theorem exists_blanks_append (s : Bytes) :
    ∃ blanks rest, s = blanks ++ rest ∧ (∀ b ∈ blanks, isBlank b = true) ∧
      ∀ b ∈ rest.head?, isBlank b = false := by
  refine ⟨s.takeWhile isBlank, s.dropWhile isBlank, List.takeWhile_append_dropWhile.symm,
    fun b hb => List.mem_takeWhile_imp hb, ?_⟩
  intro b hb
  have hnot := List.head?_dropWhile_not isBlank s
  rw [Option.mem_def.mp hb] at hnot
  simpa using hnot

/-- A line is indented by the blanks it starts with, if it has something else. -/
theorem entryIndent?_append {blanks rest : Bytes} (hblanks : ∀ b ∈ blanks, isBlank b = true)
    (hb : isBlank b = false) :
    entryIndent? (blanks ++ b :: rest) = if isVacant (b :: rest) then none else some blanks := by
  rw [entryIndent?_eq, List.dropWhile_append_of_pos hblanks, List.takeWhile_append_of_pos hblanks]
  simp [hb]

/-- A line loses the token for its start only if nothing follows on it. -/
theorem entryIndent?_stripLines (s : Bytes) :
    entryIndent? (stripLines s) = entryIndent? s ∨ entryIndent? (stripLines s) = none ∧ Idle s := by
  obtain ⟨blanks, rest, rfl, hblanks, hrest⟩ := exists_blanks_append s
  cases rest with
  | nil =>
    -- there is no line break in blanks
    have hlf : lf ∉ blanks := by
      intro hmem
      cases hblanks lf hmem
    rw [List.append_nil, (stripLines_of_one_line hlf).1]
    exact Or.inl rfl
  | cons b rest =>
    have hb := hrest b rfl
    rw [stripLines_blanks_append hblanks, entryIndent?_append hblanks hb]
    split
    · next hends =>
      -- a line of blanks has no token before and none after
      rw [stripped_not_blank rest hb] at hends
      have hvacant : isVacant (b :: rest) = true ∧ isVacant (b :: stripLines rest) = true := by
        simp only [Bool.or_eq_true, Bool.and_eq_true, beq_iff_eq] at hends
        rcases hends with rfl | ⟨rfl, hfeed⟩
        · exact ⟨rfl, rfl⟩
        · obtain ⟨more, rfl⟩ := exists_of_startsWithFeed hfeed
          exact ⟨rfl, by rw [stripLines_not_blank more (by decide)]; rfl⟩
      have hafter : entryIndent? (b :: stripLines rest) = none := by
        rw [← List.nil_append (b :: stripLines rest), entryIndent?_append (by simp) hb,
          if_pos hvacant.2]
      rw [stripLines_not_blank rest hb, hafter, if_pos hvacant.1]
      exact Or.inl rfl
    · next hends =>
      rw [stripLines_not_blank rest hb, entryIndent?_append hblanks hb]
      by_cases hvoid : b = cr ∧ nextIs lf (stripLines rest) = true
      · -- the blanks between a carriage return and the line break are gone
        obtain ⟨rfl, hlf⟩ := hvoid
        have hidle : Idle (blanks ++ cr :: rest) :=
          idle_append (fun b hb => isInnerBlank_of_isBlank (hblanks b hb))
            (.blank rfl (idle_of_nextIs_lf hlf))
        exact Or.inr ⟨if_pos (by simp [isVacant, hlf]), hidle⟩
      · have hsame : isVacant (b :: stripLines rest) = isVacant (b :: rest) := by
          by_cases hcr : b = cr
          · subst hcr
            have hnot : nextIs lf (stripLines rest) = false := by simpa using hvoid
            have hnot' : nextIs lf rest = false := by
              rw [Bool.eq_false_iff]
              intro hlf
              rw [nextIs, beq_iff_eq, List.head?_eq_some_iff] at hlf
              obtain ⟨more, rfl⟩ := hlf
              rw [stripLines_not_blank more (by decide)] at hnot
              cases hnot
            rw [isVacant, isVacant, isEmpty_stripLines, hnot, hnot']
          · simp [isVacant, hcr]
        rw [hsame]
        exact Or.inl rfl

/-- A text and the same text without blanks before line breaks are read alike. -/
theorem lexesAlike_stripping : LexesAlike Stripping stripLines where
  starts := by
    rintro s _ rfl
    rcases stripping_cases s with rfl | ⟨b, rest, rfl, hb, hstrip⟩ | ⟨b, rest, rfl, hstrip⟩
    · exact .ended (by simp) fun _ _ => rfl
    · rw [hstrip]
      exact .blank hb rfl
    · rw [hstrip]
      exact .both b rfl
  lexeme := by
    rintro s _ b symbol? n rfl hlf h
    exact lexeme_stripLines hlf h
  indent := by
    rintro s _ rfl
    exact entryIndent?_stripLines s

end

/-! ## White space at the end of a document -/

section

variable {s padding : Bytes} {b quote : UInt8} {n : Nat} {symbol? : Option Symbol}

theorem spaceFollows_append_spacing (hpadding : ∀ b ∈ padding, isSpacing b = true) (s : Bytes) :
    spaceFollows (s ++ padding) = spaceFollows s := by
  cases s with
  | cons b s => rfl
  | nil =>
    cases padding with
    | nil => rfl
    | cons b padding => simp [spaceFollows, nextIn, hpadding b List.mem_cons_self]

theorem valueFollows_append_spacing (hpadding : ∀ b ∈ padding, isSpacing b = true) (s : Bytes) :
    valueFollows (s ++ padding) = valueFollows s := by
  rw [valueFollows, valueFollows, spaceFollows_append_spacing hpadding,
    nextIn_append_spacing (fun _ hb => endsItem_of_isSpacing hb) hpadding]

theorem punctuation?_append_spacing (hpadding : ∀ b ∈ padding, isSpacing b = true) (b : UInt8)
    (s : Bytes) :
    punctuation? b (s ++ padding) = punctuation? b s := by
  rw [punctuation?, punctuation?, spaceFollows_append_spacing hpadding,
    valueFollows_append_spacing hpadding]

/-- White space does not go on with a literal. -/
theorem literalRest_of_spacing (hpadding : ∀ b ∈ padding, isSpacing b = true) :
    literalRest padding = (0, true) := by
  induction padding with
  | nil => rfl
  | cons b padding ih =>
    rw [List.forall_mem_cons] at hpadding
    by_cases hlf : b = lf
    · subst hlf
      exact literalRest_stop rfl
    · have hblank : isInnerBlank b = true := by
        simpa [isSpacing, isInnerBlank, hlf] using hpadding.1
      rw [literalRest_blank hblank, ih hpadding.2]
      rfl

/-- White space at the end of a text is not part of a literal. -/
theorem literalRest_append_spacing (hpadding : ∀ b ∈ padding, isSpacing b = true) (s : Bytes) :
    literalRest (s ++ padding) = literalRest s := by
  induction s with
  | nil => exact literalRest_of_spacing hpadding
  | cons b s ih =>
    have hvalue := valueFollows_append_spacing hpadding s
    rw [List.cons_append]
    by_cases hstop : (stopsLiteral b || (b = colon && valueFollows s)) = true
    · rw [literalRest_stop hstop, literalRest_stop (by rwa [hvalue])]
    · cases hb : isInnerBlank b with
      | true => rw [literalRest_blank hb, literalRest_blank hb, ih]
      | false => rw [literalRest_text hstop hb, literalRest_text (by rwa [hvalue]) hb, ih]

theorem nextIs_append_spacing (hb : isSpacing b = false)
    (hpadding : ∀ b ∈ padding, isSpacing b = true) (s : Bytes) :
    nextIs b (s ++ padding) = nextIs b s := by
  rw [nextIs_eq_nextIn, nextIs_eq_nextIn]
  exact nextIn_append_spacing (fun c hc => beq_false_of_ne (ne_of_isSpacing hc hb)) hpadding s

/-- An octet that is no white space comes before the white space at the end. -/
theorem exists_append_of_spacing {body rest : Bytes} (hb : isSpacing b = false)
    (hpadding : ∀ b ∈ padding, isSpacing b = true) (h : s ++ padding = body ++ b :: rest) :
    ∃ rest', s = body ++ b :: rest' ∧ rest = rest' ++ padding := by
  have hnot : b ∉ padding := by
    intro hmem
    exact ne_of_isSpacing (hpadding b hmem) hb rfl
  rcases List.append_eq_append_iff.mp h with ⟨more, -, hmore⟩ | ⟨more, hs, hmore⟩
  · rw [hmore] at hnot
    simp at hnot
  · cases more with
    | nil =>
      rw [List.nil_append] at hmore
      rw [← hmore] at hnot
      simp at hnot
    | cons c more =>
      obtain ⟨rfl, rfl⟩ := List.cons.inj hmore
      exact ⟨more, hs, rfl⟩

/-- A string is closed by a quote, which is no white space. -/
theorem quotedString_append_spacing {padding' text : Bytes} (hquote : isSpacing quote = false)
    (hpadding : ∀ b ∈ padding, isSpacing b = true) (hpadding' : ∀ b ∈ padding', isSpacing b = true)
    (h : quotedString quote (quote :: (s ++ padding)) = .ok (text, n)) :
    quotedString quote (quote :: (s ++ padding')) = .ok (text, n) ∧ n ≤ s.length + 1 := by
  have hword := isWord_quotes hquote
  have hopens : ∀ {padding : Bytes}, (∀ b ∈ padding, isSpacing b = true) →
      [quote, quote, quote].isPrefixOf (quote :: (s ++ padding)) =
        [quote, quote, quote].isPrefixOf (quote :: s) := by
    intro padding hpadding
    rw [Bool.eq_iff_iff, List.isPrefixOf_iff_prefix, List.isPrefixOf_iff_prefix, ← List.cons_append]
    exact prefix_append_spacing_iff hword.text hpadding
  unfold quotedString at h ⊢
  rw [hopens hpadding] at h
  rw [hopens hpadding']
  split at h
  · next hthree =>
    obtain ⟨r, rfl⟩ : ∃ r, s = quote :: quote :: r := by
      obtain ⟨r, hr⟩ := List.isPrefixOf_iff_prefix.mp hthree
      exact ⟨r, (List.cons.inj hr).2.symm⟩
    rw [if_pos hthree]
    simp only [List.cons_append, List.drop_succ_cons, List.drop_zero,
      indexOf?_append_spacing hword hpadding, indexOf?_append_spacing hword hpadding'] at h ⊢
    cases hm : indexOf? [quote, quote, quote] r with
    | none =>
      rw [hm] at h
      cases h
    | some m =>
      rw [hm] at h
      cases h
      have hle : m + 3 ≤ r.length := (indexOf?_stripLines hword r).add_length_le hword hm
      have hle' : m ≤ r.length := by omega
      refine ⟨?_, by simpa using Nat.add_le_add_right hle 3⟩
      simp only [List.take_append_of_le_length hle']
  -- the quote that closes it is in the text, and so is what tells that it does
  · next hone =>
    rw [if_neg hone]
    obtain ⟨m, hm, htext⟩ := map_eq_ok h
    obtain ⟨body, rest, hparts, rfl, hclosed⟩ := quotedBody_eq_ok hm
    obtain ⟨rest', rfl, rfl⟩ := exists_append_of_spacing hquote hpadding hparts
    have hbody := hclosed.closed (rest' ++ padding') (by
      rw [nextIs_append_spacing rfl hpadding, nextIs_append_spacing rfl hpadding'])
    cases htext
    rw [List.drop_one, List.tail_cons, List.append_assoc, List.cons_append, hbody]
    refine ⟨?_, by simp⟩
    simp [Except.map]

theorem idle_of_spacing (hpadding : ∀ b ∈ padding, isSpacing b = true) : Idle padding := by
  induction padding with
  | nil => exact .nil
  | cons b padding ih =>
    rw [List.forall_mem_cons] at hpadding
    by_cases hlf : b = lf
    · subst hlf
      exact .lineEnd padding
    · refine .blank ?_ (ih hpadding.2)
      simpa [isSpacing, isInnerBlank, hlf] using hpadding.1

/-- The text decides on the indentation, not the white space after it. -/
theorem entryIndent?_append_right (hne : s ≠ []) (hs : EndsInText s) (t : Bytes) :
    entryIndent? (s ++ t) = entryIndent? s := by
  obtain ⟨blanks, rest, rfl, hblanks, hrest⟩ := exists_blanks_append s
  cases rest with
  | nil =>
    -- the last octet is no blank
    rw [List.append_nil] at hne hs
    have hpadded : isPadding (blanks.getLast hne) = true := by
      simp [isPadding, isSpacing_of_isBlank (hblanks _ (List.getLast_mem hne))]
    rw [hs _ (List.getLast?_eq_some_getLast hne)] at hpadded
    cases hpadded
  | cons b rest =>
    have hb := hrest b rfl
    rw [List.append_assoc, List.cons_append, entryIndent?_append hblanks hb,
      entryIndent?_append hblanks hb]
    have hsame : isVacant (b :: (rest ++ t)) = isVacant (b :: rest) := by
      cases rest with
      | cons c rest => rfl
      | nil =>
        -- nor is it a carriage return
        have hcr : b ≠ cr := by
          rintro rfl
          cases hs cr (by simp)
        simp [isVacant, hcr]
    rw [hsame]

end

/-- Texts with the same text before the white space at their ends. The second one ends as a tidy
text does. -/
def SameText (s t : Bytes) : Prop :=
  ∃ text padding ending, EndsInText text ∧ (∀ b ∈ padding, isSpacing b = true) ∧
    (ending = [] ∨ ending = [lf] ∨ ending = [cr, lf]) ∧ s = text ++ padding ∧ t = text ++ ending

section

variable {text padding ending : Bytes}

theorem isSpacing_of_ending (h : ending = [] ∨ ending = [lf] ∨ ending = [cr, lf]) :
    ∀ b ∈ ending, isSpacing b = true := by
  rcases h with rfl | rfl | rfl <;> exact List.all_eq_true.mp rfl

/-- After a part of both has been read, the texts are still the same but for their ends. -/
theorem sameText_drop (htext : EndsInText text) (hpadding : ∀ b ∈ padding, isSpacing b = true)
    (hending : ending = [] ∨ ending = [lf] ∨ ending = [cr, lf]) {n : Nat} (hn : n ≤ text.length) :
    SameText ((text ++ padding).drop n) ((text ++ ending).drop n) := by
  rw [List.drop_append_of_le_length hn, List.drop_append_of_le_length hn]
  exact ⟨text.drop n, padding, ending, htext.drop n, hpadding, hending, rfl, rfl⟩

/-- What is left of the texts at a line break. -/
theorem sameText_dropWhile (htext : EndsInText text) (hpadding : ∀ b ∈ padding, isSpacing b = true)
    (hending : ending = [] ∨ ending = [lf] ∨ ending = [cr, lf]) :
    SameText ((text ++ padding).dropWhile (· != lf)) ((text ++ ending).dropWhile (· != lf)) := by
  rw [List.dropWhile_append, List.dropWhile_append]
  split
  · refine ⟨[], padding.dropWhile (· != lf), ending.dropWhile (· != lf), ?_, ?_, ?_, rfl, rfl⟩
    · intro b hb
      cases hb
    · intro b hb
      exact hpadding b ((List.dropWhile_suffix _).subset hb)
    · rcases hending with rfl | rfl | rfl
      · exact Or.inl rfl
      · exact Or.inr (Or.inl rfl)
      · exact Or.inr (Or.inl rfl)
  · refine ⟨text.dropWhile (· != lf), padding, ending, ?_, hpadding, hending, rfl, rfl⟩
    rw [← drop_length_takeWhile]
    exact htext.drop _

/-- No symbol has to do with the white space at the end, but for how much of it is passed over. -/
theorem lexeme_append_spacing {b : UInt8} {symbol? : Option Symbol} {n : Nat}
    (htext : EndsInText text) (hpadding : ∀ b ∈ padding, isSpacing b = true)
    (hending : ending = [] ∨ ending = [lf] ∨ ending = [cr, lf]) (hlf : b ≠ lf)
    (h : lexeme b (text ++ padding) = .ok (symbol?, n)) :
    ∃ n', lexeme b (text ++ ending) = .ok (symbol?, n') ∧
      SameText ((b :: (text ++ padding)).drop n) ((b :: (text ++ ending)).drop n') ∧
      lineBreaks ((b :: (text ++ ending)).take n') =
        lineBreaks ((b :: (text ++ padding)).take n) := by
  have hending' := isSpacing_of_ending hending
  -- a symbol that ends before the white space
  have hinside : ∀ {m : Nat}, 0 < m → m ≤ text.length + 1 →
      SameText ((b :: (text ++ padding)).drop m) ((b :: (text ++ ending)).drop m) ∧
        (b :: (text ++ ending)).take m = (b :: (text ++ padding)).take m := by
    intro m hpos hm
    obtain ⟨m, rfl⟩ := Nat.exists_eq_add_one.mpr hpos
    have hle := Nat.le_of_succ_le_succ hm
    rw [List.take_succ_cons, List.take_succ_cons, List.take_append_of_le_length hle,
      List.take_append_of_le_length hle]
    exact ⟨sameText_drop htext hpadding hending hle, rfl⟩
  have hpos := lexeme_pos hlf h
  unfold lexeme at h ⊢
  rw [punctuation?_append_spacing hpadding] at h
  rw [punctuation?_append_spacing hending']
  cases hsymbol : punctuation? b text with
  | some symbol =>
    rw [hsymbol] at h
    cases h
    obtain ⟨hrest, htake⟩ := hinside hpos (by omega)
    exact ⟨1, rfl, hrest, by rw [htake]⟩
  | none =>
    rw [hsymbol] at h
    simp only at h ⊢
    split_ifs at h ⊢ with hblank hhash hquote
    · cases h
      obtain ⟨hrest, htake⟩ := hinside hpos (by omega)
      exact ⟨1, rfl, hrest, by rw [htake]⟩
    · cases h
      subst hhash
      obtain ⟨hrest, hbreaks⟩ := comment_extent (text ++ padding)
      obtain ⟨hrest', hbreaks'⟩ := comment_extent (text ++ ending)
      refine ⟨_, rfl, ?_, by rw [hbreaks, hbreaks']⟩
      rw [hrest, hrest']
      exact sameText_dropWhile htext hpadding hending
    · obtain ⟨⟨string, m⟩, hstring, hm⟩ := map_eq_ok h
      cases hm
      obtain ⟨hstring', hle⟩ :=
        quotedString_append_spacing (isSpacing_of_quote hquote) hpadding hending' hstring
      obtain ⟨hrest, htake⟩ := hinside hpos hle
      refine ⟨m, ?_, hrest, by rw [htake]⟩
      rw [hstring']
      rfl
    · cases h
      have hsame := literalRest_append_spacing hpadding (b :: text)
      have hsame' := literalRest_append_spacing hending' (b :: text)
      rw [List.cons_append] at hsame hsame'
      rw [hsame] at hpos ⊢
      obtain ⟨hrest, htake⟩ := hinside hpos (literalRest_le (b :: text))
      refine ⟨_, by rw [hsame', htake], hrest, by rw [htake]⟩

end

theorem rename_id (symbol : Symbol) : symbol.rename id = symbol := by
  cases symbol <;> rfl

theorem token_rename_id (t : Token) : t.rename id = t := by
  rw [Token.rename, rename_id]

/-- Texts that differ in the white space at their ends. -/
theorem lexesAlike_sameText : LexesAlike SameText id where
  starts := by
    rintro _ _ ⟨text, padding, ending, htext, hpadding, hending, rfl, rfl⟩
    cases text with
    | nil =>
      -- all that is left is white space
      refine .ended hpadding fun unit line => ?_
      rcases hending with rfl | rfl | rfl <;> rfl
    | cons b text =>
      exact .both b ⟨text, padding, ending, htext.drop 1, hpadding, hending, rfl, rfl⟩
  lexeme := by
    rintro _ _ b symbol? n ⟨text, padding, ending, htext, hpadding, hending, rfl, rfl⟩ hlf h
    rw [show Symbol.rename id = id from funext rename_id, Option.map_id_fun]
    exact lexeme_append_spacing htext hpadding hending hlf h
  indent := by
    rintro _ _ ⟨text, padding, ending, htext, hpadding, hending, rfl, rfl⟩
    by_cases hne : text = []
    · subst hne
      refine Or.inr ⟨?_, idle_of_spacing hpadding⟩
      rcases hending with rfl | rfl | rfl <;> rfl
    · rw [entryIndent?_append_right hne htext, entryIndent?_append_right hne htext]
      exact Or.inl rfl

/-- The tokens of a tidy text. -/
theorem lex_tidyWhitespace {s : Bytes} {tokens : List Token} (native : LineEnding)
    (hs : ∀ b ∈ s, isPadding b = true → isSpacing b = true) (h : lex s = .ok tokens) :
    ∃ between tokens', lex (tidyWhitespace native s) = .ok tokens' ∧
      Voided (tokens.map (Token.rename stripLines)) between ∧ Voided between tokens' := by
  obtain ⟨text, padding, eol, htext, hparts, hpadding, htidy⟩ := tidyWhitespace_parts native hs
  have hending : SameText (stripLines s) (tidyWhitespace native s) := by
    rw [hparts, htidy]
    by_cases hempty : text.isEmpty = true
    · obtain rfl := List.isEmpty_iff.mp hempty
      exact ⟨[], padding, [], htext, hpadding, Or.inl rfl, rfl, rfl⟩
    · rw [if_neg hempty]
      refine ⟨text, padding, eol.bytes, htext, hpadding, ?_, rfl, rfl⟩
      cases eol
      · exact Or.inr (Or.inl rfl)
      · exact Or.inr (Or.inr rfl)
  -- a tidy text is made in two steps, and each of them may void starts of lines
  obtain ⟨between, hbetween, hvoided⟩ := lexesAlike_stripping.lex rfl h
  obtain ⟨tokens', htokens', hvoided'⟩ := lexesAlike_sameText.lex hending hbetween
  have hid : between.map (Token.rename id) = between := by
    rw [show Token.rename id = id from funext token_rename_id, List.map_id]
  exact ⟨between, tokens', htokens', hvoided, hid ▸ hvoided'⟩

end SourceTidy.Neon
