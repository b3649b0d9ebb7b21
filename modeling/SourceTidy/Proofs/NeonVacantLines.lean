import SourceTidy.Proofs.NeonBlanks
import SourceTidy.Proofs.NeonRelabelling

/-! # Lines without tokens in NEON documents

A line of blanks, with or without a comment, has no token, and says nothing of the indentation of
the document. Put in between two lines, it moves the lines after it down by one. No symbol reaches
over the end of a line but a string of several lines, so the lines before it are lexed as if nothing
came after them. And the lexer counts lines but does not ask what their numbers are.

* `lexeme_append`, `EndsLine.entryIndent?_append`: what follows the end of a line makes no
  difference to a symbol or a start of a line before it;
* `lex_append`: the lines of a document are lexed apart;
* `lexFrom_renumber`, `parse_renumber`: other numbers for the lines make no difference but to the
  numbers;
* `lexLines_vacantLine`: a vacant line is passed over;
* `vacant_line_is_invisible`: so it makes no difference but to the numbers of lines.
-/

namespace SourceTidy.Neon

open Ascii Bytes

/-- The text is made of whole lines, and there is one. -/
def EndsLine (s : Bytes) : Prop := s.getLast? = some lf

/-- A line of blanks, with or without a comment after them. -/
inductive VacantLine : Bytes → Prop where
  | mk {blanks comment ending : Bytes} (hblanks : ∀ b ∈ blanks, isBlank b = true)
    (hcomment : comment = [] ∨ ∃ text, comment = hash :: text ∧ lf ∉ text)
    (hending : ending = [lf] ∨ ending = [cr, lf]) : VacantLine (blanks ++ (comment ++ ending))

/-! ## What follows the end of a line -/

section

variable {s p text : Bytes} {b quote : UInt8} {n : Nat} {symbol? : Option Symbol}

theorem EndsLine.ne_nil (hs : EndsLine s) : s ≠ [] := by
  rintro rfl
  cases hs

/-- What is left of whole lines are whole lines, if anything is left. -/
theorem EndsLine.drop (hs : EndsLine s) (hn : n < s.length) : EndsLine (s.drop n) := by
  rw [EndsLine, List.getLast?_drop, if_neg (by omega)]
  exact hs

theorem EndsLine.cons (hs : EndsLine s) (b : UInt8) : EndsLine (b :: s) :=
  (List.getLast?_cons_of_ne_nil hs.ne_nil).trans hs

theorem EndsLine.lineBreaks_pos (hs : EndsLine s) : 0 < lineBreaks s :=
  List.count_pos_iff.mpr (List.mem_of_getLast? hs)

/-- The first octet is the only line break, or there are lines after it. -/
theorem EndsLine.eq_lf_or_tail (hs : EndsLine (b :: s)) : (b = lf ∧ s = []) ∨ EndsLine s := by
  by_cases hnil : s = []
  · subst hnil
    exact Or.inl ⟨Option.some.inj hs, rfl⟩
  · exact Or.inr ((List.getLast?_cons_of_ne_nil hnil).symm.trans hs)

/-- A word without line breaks does not reach over the end of a line. -/
theorem EndsLine.prefix_append_iff (hs : EndsLine s) (hp : lf ∉ p) (t : Bytes) :
    p <+: s ++ t ↔ p <+: s := by
  constructor
  · intro hprefix
    rcases List.prefix_or_prefix_of_prefix hprefix (List.prefix_append s t) with hshort | hlong
    · exact hshort
    · exact absurd (hlong.subset (List.mem_of_getLast? hs)) hp
  · intro hprefix
    exact hprefix.trans (List.prefix_append s t)

theorem spaceFollows_append (hs : s ≠ []) (t : Bytes) : spaceFollows (s ++ t) = spaceFollows s := by
  cases s with
  | nil => exact absurd rfl hs
  | cons b s => rfl

theorem valueFollows_append (hs : s ≠ []) (t : Bytes) : valueFollows (s ++ t) = valueFollows s := by
  rw [valueFollows, valueFollows, spaceFollows_append hs, nextIn_append _ hs]

/-- An octet of look-ahead is all that punctuation needs, and a line has it. -/
theorem punctuation?_append (b : UInt8) (hs : s ≠ []) (t : Bytes) :
    punctuation? b (s ++ t) = punctuation? b s := by
  rw [punctuation?, punctuation?, spaceFollows_append hs, valueFollows_append hs]

/-- A literal ends on its line. -/
theorem literalRest_append (hs : EndsLine s) (t : Bytes) :
    literalRest (s ++ t) = literalRest s ∧ (literalRest s).1 < s.length := by
  induction s with
  | nil => exact absurd rfl hs.ne_nil
  | cons b s ih =>
    rw [List.cons_append]
    -- the line break stops the literal; before it, each octet is looked at together with the next
    -- one
    rcases hs.eq_lf_or_tail with ⟨rfl, rfl⟩ | hs
    · exact ⟨rfl, Nat.one_pos⟩
    · obtain ⟨hsame, hlength⟩ := ih hs
      have hvalue := valueFollows_append hs.ne_nil t
      rw [List.length_cons]
      by_cases hstop : (stopsLiteral b || (b = colon && valueFollows s)) = true
      · rw [literalRest_stop hstop, literalRest_stop (by rwa [hvalue])]
        exact ⟨rfl, Nat.succ_pos _⟩
      · cases hb : isInnerBlank b with
        | true =>
          rw [literalRest_blank hb, literalRest_blank hb, hsame]
          refine ⟨rfl, ?_⟩
          split
          · exact Nat.succ_pos _
          · exact Nat.succ_lt_succ hlength
        | false =>
          rw [literalRest_text hstop hb, literalRest_text (by rwa [hvalue]) hb, hsame]
          exact ⟨rfl, Nat.succ_lt_succ hlength⟩

/-- A string that is closed stays as it is, with more text after the end of a line. -/
theorem quotedString_append (hquote : isSpacing quote = false) (hs : EndsLine s) (t : Bytes)
    (h : quotedString quote (quote :: s) = .ok (text, n)) :
    quotedString quote (quote :: (s ++ t)) = .ok (text, n) ∧ n ≤ s.length := by
  have hword := isWord_quotes hquote
  have hlf : quote ≠ lf := by
    rintro rfl
    cases hquote
  have hn : n ≤ s.length := by
    obtain ⟨front, rfl⟩ := List.getLast?_eq_some_iff.mp hs
    have hbreak : ∀ b ∈ [lf], isSpacing b = true := List.all_eq_true.mp rfl
    simpa using (quotedString_append_spacing hquote hbreak hbreak h).2
  refine ⟨?_, hn⟩
  have hopens : [quote, quote, quote].isPrefixOf (quote :: (s ++ t)) =
      [quote, quote, quote].isPrefixOf (quote :: s) := by
    rw [Bool.eq_iff_iff, List.isPrefixOf_iff_prefix, List.isPrefixOf_iff_prefix]
    exact (hs.cons quote).prefix_append_iff (by simpa using hlf.symm) t
  unfold quotedString at h ⊢
  rw [hopens]
  split at h
  · next hthree =>
    obtain ⟨r, rfl⟩ : ∃ r, s = quote :: quote :: r := by
      obtain ⟨r, hr⟩ := List.isPrefixOf_iff_prefix.mp hthree
      exact ⟨r, (List.cons.inj hr).2.symm⟩
    rw [if_pos hthree]
    simp only [List.cons_append, List.drop_succ_cons, List.drop_zero] at h ⊢
    cases hm : indexOf? [quote, quote, quote] r with
    | none =>
      rw [hm] at h
      cases h
    | some m =>
      rw [hm] at h
      cases h
      rw [indexOf?_append hword hm]
      simp only [List.length_cons] at hn
      simp only [List.take_append_of_le_length (show m ≤ r.length by omega)]
  · next hone =>
    rw [if_neg hone]
    obtain ⟨m, hm, htext⟩ := map_eq_ok h
    obtain ⟨body, rest, hparts, rfl, hclosed⟩ := quotedBody_eq_ok hm
    obtain rfl : s = body ++ quote :: rest := hparts
    -- the line ends after the quote, so what follows the quote is known
    have hrest : rest ≠ [] := by
      rintro rfl
      rw [EndsLine, List.getLast?_concat] at hs
      exact hlf (Option.some.inj hs)
    have hbody := hclosed.closed (rest ++ t) (nextIs_append singleQuote hrest t)
    cases htext
    rw [List.drop_one, List.tail_cons, List.append_assoc, List.cons_append, hbody]
    simp [Except.map]

/-- No symbol that ends in the lines changes with what comes after them. -/
theorem lexeme_append (hs : EndsLine s) (t : Bytes) (h : lexeme b s = .ok (symbol?, n)) :
    lexeme b (s ++ t) = .ok (symbol?, n) ∧ n ≤ s.length := by
  have hpos : 0 < s.length := List.length_pos_of_ne_nil hs.ne_nil
  unfold lexeme at h ⊢
  rw [punctuation?_append b hs.ne_nil]
  cases hsymbol : punctuation? b s with
  | some symbol =>
    rw [hsymbol] at h
    cases h
    exact ⟨rfl, hpos⟩
  | none =>
    rw [hsymbol] at h
    simp only at h ⊢
    split_ifs at h ⊢ with hblank hhash hquote
    · cases h
      exact ⟨rfl, hpos⟩
    · cases h
      -- a comment ends with its line
      have hshort : (s.takeWhile (· != lf)).length < s.length := by
        refine lt_of_le_of_ne (List.takeWhile_prefix _).length_le fun hall => ?_
        have hmem := List.mem_of_getLast? hs
        rw [← (List.takeWhile_prefix (· != lf)).eq_of_length hall] at hmem
        simpa using List.mem_takeWhile_imp hmem
      rw [runLength, runLength, List.takeWhile_append, if_neg hshort.ne]
      exact ⟨rfl, by omega⟩
    · obtain ⟨⟨text, m⟩, hstring, hm⟩ := map_eq_ok h
      cases hm
      obtain ⟨hstring', hle⟩ := quotedString_append (isSpacing_of_quote hquote) hs t hstring
      rw [hstring']
      exact ⟨rfl, hle⟩
    · cases h
      obtain ⟨hsame, hlength⟩ := literalRest_append (hs.cons b) t
      rw [List.length_cons] at hlength
      rw [List.cons_append] at hsame
      rw [hsame, ← List.cons_append,
        List.take_append_of_le_length (by rw [List.length_cons]; omega)]
      exact ⟨rfl, by omega⟩

/-- The indentation of a first line can be told from that line. -/
theorem EndsLine.entryIndent?_append (hs : EndsLine s) (t : Bytes) :
    entryIndent? (s ++ t) = entryIndent? s := by
  obtain ⟨blanks, rest, rfl, hblanks, hrest⟩ := exists_blanks_append s
  cases rest with
  | nil =>
    -- a line break is no blank
    rw [List.append_nil] at hs
    cases hblanks lf (List.mem_of_getLast? hs)
  | cons b rest =>
    have hb := hrest b rfl
    rw [List.append_assoc, List.cons_append, Neon.entryIndent?_append hblanks hb,
      Neon.entryIndent?_append hblanks hb]
    have hsame : isVacant (b :: (rest ++ t)) = isVacant (b :: rest) := by
      cases rest with
      | cons c rest => rfl
      | nil =>
        rw [EndsLine, List.getLast?_concat] at hs
        obtain rfl := Option.some.inj hs
        rfl
    rw [hsame]

end

/-! ## Lines that are lexed apart -/

section

variable {unit unit' : Option UInt8} {line : Nat} {s : Bytes} {tokens start : List Token}

theorem lineBreaks_take_append_drop (n : Nat) (s : Bytes) :
    lineBreaks (s.take n) + lineBreaks (s.drop n) = lineBreaks s := by
  rw [lineBreaks, lineBreaks, lineBreaks, ← List.count_append, List.take_append_drop]

theorem map_append_append (first second : List Token) (x : Except Fault (List Token)) :
    (x.map (second ++ ·)).map (first ++ ·) = x.map ((first ++ second) ++ ·) := by
  cases x <;> simp [Except.map]

/-- Whole lines are lexed as if nothing came after them. They settle which octet indents the lines
that come after them, and their tokens are on them. -/
theorem lexFrom_append (hs : EndsLine s) (h : lexFrom unit line 0 s = .ok tokens) :
    (∀ t ∈ tokens, t.line < line + lineBreaks s) ∧ ∃ unit', ∀ t, lexFrom unit line 0 (s ++ t) =
      (lexLines unit' (line + lineBreaks s) t).map (tokens ++ ·) := by
  -- a symbol may take any number of octets, so the induction is on the length
  induction hlength : s.length using Nat.strong_induction_on generalizing unit line s tokens with
  | _ length ih =>
  subst hlength
  cases s with
  | nil => exact absurd rfl hs.ne_nil
  | cons b s =>
    by_cases hlf : b = lf
    · subst hlf
      have hcount : lineBreaks (lf :: s) = lineBreaks s + 1 := List.count_cons_self
      rcases hs.eq_lf_or_tail with ⟨-, rfl⟩ | hs
      · -- the last line
        cases h
        refine ⟨by simp, unit, ?_⟩
        intro t
        rw [List.cons_append, lexFrom_lf_eq]
        exact (map_nil_append _).symm
      · obtain ⟨start, unit₁, rest, hstart, hrest, rfl⟩ := lexFrom_lf_eq_ok h
        obtain ⟨hlines, unit', hafter⟩ := ih _ (Nat.lt_succ_self _) hs hrest rfl
        have hstart' : ∀ t, startLine unit (line + 1) (s ++ t) = .ok (start, unit₁) := by
          intro t
          rw [← hstart, startLine, startLine, hs.entryIndent?_append]
        refine ⟨?_, unit', ?_⟩
        · intro t ht
          rcases List.mem_append.mp ht with ht | ht
          · rcases startLine_eq_ok hstart with ⟨-, rfl, -⟩ | ⟨indent, -, -, rfl⟩
            · cases ht
            · obtain rfl := List.mem_singleton.mp ht
              have hpos := hs.lineBreaks_pos
              show line + 1 < _
              omega
          · have hline := hlines t ht
            omega
        · intro t
          rw [List.cons_append, lexFrom_lf (hstart' t), hafter, map_append_append, hcount,
            Nat.add_assoc, Nat.add_comm 1]
    · obtain ⟨symbol?, n, rest, hlexeme, hrest, rfl⟩ := lexFrom_lexeme_eq_ok hlf h
      have hs' : EndsLine s := hs.eq_lf_or_tail.resolve_left fun hlast => hlf hlast.1
      have hle : n ≤ s.length := (lexeme_append hs' [] hlexeme).2
      have hn : n < (b :: s).length := Nat.lt_succ_of_le hle
      have hshorter : ((b :: s).drop n).length < (b :: s).length := by
        rw [List.length_drop]
        have hpos := lexeme_pos hlf hlexeme
        omega
      have hcount := lineBreaks_take_append_drop n (b :: s)
      obtain ⟨hlines, unit', hafter⟩ := ih _ hshorter (hs.drop hn) hrest rfl
      refine ⟨?_, unit', ?_⟩
      · intro t ht
        rcases List.mem_append.mp ht with ht | ht
        · obtain ⟨symbol, -, rfl⟩ := List.mem_map.mp ht
          have hpos := hs.lineBreaks_pos
          show line < _
          omega
        · have hline := hlines t ht
          omega
      · intro t
        rw [List.cons_append, lexFrom_lexeme unit line hlf (lexeme_append hs' t hlexeme).1,
          ← List.cons_append, List.take_append_of_le_length hn.le,
          List.drop_append_of_le_length hn.le, hafter, map_append_append, Nat.add_assoc, hcount]

/-- The first lines of a document are lexed apart from the others. -/
theorem lex_append (hs : s = [] ∨ EndsLine s) (h : lex s = .ok tokens) :
    (∀ t ∈ tokens, t.line ≤ lineBreaks s) ∧
      ∃ unit, ∀ t, lex (s ++ t) = (lexLines unit (lineBreaks s + 1) t).map (tokens ++ ·) := by
  -- a document is lexed as if a line break came before it
  have hbroken : EndsLine (lf :: s) := by
    rcases hs with rfl | hs
    · rfl
    · exact hs.cons lf
  have hcount : lineBreaks (lf :: s) = lineBreaks s + 1 := List.count_cons_self
  rw [lex_eq_lexFrom] at h
  obtain ⟨hlines, unit, hafter⟩ := lexFrom_append hbroken h
  rw [hcount, Nat.zero_add] at hlines hafter
  refine ⟨?_, unit, ?_⟩
  · intro t ht
    exact Nat.le_of_lt_succ (hlines t ht)
  · intro t
    rw [lex_eq_lexFrom]
    exact hafter t

end

/-! ## Other numbers for the lines -/

/-- From the given line on, `f` goes on counting one by one. -/
def CountsFrom (f : Nat → Nat) (line : Nat) : Prop := ∀ n, f (line + n) = f line + n

theorem CountsFrom.add {f : Nat → Nat} {line : Nat} (h : CountsFrom f line) (m : Nat) :
    CountsFrom f (line + m) := by
  intro n
  rw [Nat.add_assoc, h, h, Nat.add_assoc]

theorem Token.relabel_lines (f : Nat → Nat) (t : Token) :
    t.relabel (.lines f) = ⟨t.symbol, f t.line⟩ := by
  rw [Token.relabel, Relabelling.lines, rename_id]

theorem Fault.relabel_lines (f : Nat → Nat) (fault : Fault) :
    fault.relabel (.lines f) = ⟨fault.problem, f fault.line⟩ := by
  obtain ⟨problem, line⟩ := fault
  cases problem with
  | unexpected symbol => simp [Fault.relabel, Problem.rename, Relabelling.lines, rename_id]
  | _ => rfl

section

variable {f : Nat → Nat} {line : Nat}

/-- The start of a line with another number. -/
theorem startLine_renumber (f : Nat → Nat) (unit : Option UInt8) (line : Nat) (s : Bytes) :
    startLine unit (f line) s =
      relabelled (.lines f) (fun result => (result.1.map (Token.relabel (.lines f)), result.2))
        (startLine unit line s) := by
  unfold startLine
  split
  · rfl
  · split <;> rfl

/-- The lexer adds to the number of the line it is on, and does nothing else with it. -/
theorem lexFrom_renumber (hf : CountsFrom f line) (unit : Option UInt8) (skip : Nat) (s : Bytes) :
    lexFrom unit (f line) skip s =
      relabelled (.lines f) (List.map (Token.relabel (.lines f))) (lexFrom unit line skip s) := by
  induction s generalizing unit line skip with
  | nil => simp [lexFrom, relabelled]
  | cons b s ih =>
    cases skip with
    | succ skip => exact ih hf unit skip
    | zero =>
      rw [lexFrom, lexFrom]
      split
      -- a line break, which adds one to the number
      · rw [← hf, startLine_renumber]
        cases startLine unit (line + 1) s with
        | error fault => rfl
        | ok result =>
          show (lexFrom result.2 (f (line + 1)) 0 s).map _ =
            relabelled _ _ ((lexFrom result.2 (line + 1) 0 s).map _)
          rw [ih (hf.add 1), map_relabelled, relabelled_map]
          simp only [List.map_append]
      -- a symbol, which adds the line breaks that are in it
      · cases lexeme b s with
        | error problem => exact congrArg Except.error (Fault.relabel_lines f ⟨problem, line⟩).symm
        | ok result =>
          show (lexFrom unit (f line + _) _ s).map _ =
            relabelled _ _ ((lexFrom unit (line + _) _ s).map _)
          rw [← hf, ih (hf.add _), map_relabelled, relabelled_map]
          simp only [List.map_append, List.map_map, Function.comp_def, Token.relabel_lines]

/-- All lines from one on that has another number. -/
theorem lexLines_renumber (hf : CountsFrom f line) (unit : Option UInt8) (s : Bytes) :
    lexLines unit (f line) s =
      relabelled (.lines f) (List.map (Token.relabel (.lines f))) (lexLines unit line s) := by
  rw [lexLines, lexLines, startLine_renumber]
  cases hstart : startLine unit line s with
  | error fault => rfl
  | ok found =>
    obtain ⟨start, unit'⟩ := found
    show (lexFrom unit' (f line) 0 s).map _ = relabelled _ _ ((lexFrom unit' line 0 s).map _)
    rw [lexFrom_renumber hf, map_relabelled, relabelled_map]
    simp only [List.map_append]

/-- A document stays one, and a fault stays the same one, on a line with another number. -/
theorem parse_renumber (f : Nat → Nat) (tokens : List Token) :
    parse (tokens.map (Token.relabel (.lines f))) = relabelled (.lines f) id (parse tokens) := by
  refine (parse_relabel (fun _ => rfl) tokens).resolve_right ?_
  -- the texts are as they were, so no keys become one
  rintro ⟨⟨-, m, -, -, ⟨g, -, a, -, b, -, hne, hab⟩ | ⟨b, -, a, -, a', -, hne, hab⟩⟩, -⟩
  · exact hne hab
  · exact hne hab

end

/-! ## Vacant lines -/

section

variable {a x : Bytes}

/-- After the blanks of a vacant line the line ends, or a comment starts that ends with it. -/
theorem VacantLine.exists_blanks (hx : VacantLine x) :
    ∃ blanks b rest, x = blanks ++ b :: rest ∧ (∀ c ∈ blanks, isBlank c = true) ∧
      isBlank b = false ∧
      (∀ s, isVacant (b :: (rest ++ s)) = true) ∧
      ∀ unit line s, lexFrom unit line 0 (b :: (rest ++ s)) = lexFrom unit line 0 (lf :: s) := by
  obtain @⟨blanks, comment, ending, hblanks, hcomment, hending⟩ := hx
  rcases hcomment with rfl | ⟨text, rfl, htext⟩
  -- no comment: the line break is a line feed, or it has a carriage return, which is a blank to the
  -- lexer
  · rcases hending with rfl | rfl
    · exact ⟨blanks, lf, [], rfl, hblanks, rfl, fun _ => rfl, fun _ _ _ => rfl⟩
    · refine ⟨blanks, cr, [lf], rfl, hblanks, rfl, fun _ => rfl, ?_⟩
      intro unit line s
      exact lexFrom_blank unit line rfl (lf :: s)
  · refine ⟨blanks, hash, text ++ ending, rfl, hblanks, rfl, fun _ => rfl, ?_⟩
    intro unit line s
    -- the comment is read to the end of its line, and a carriage return is part of it
    have hpasses : ∀ b ∈ text, (b != lf) = true := by
      intro b hb
      rw [bne_iff_ne]
      rintro rfl
      exact htext hb
    rw [lexFrom_hash, List.append_assoc, List.dropWhile_append_of_pos hpasses]
    rcases hending with rfl | rfl <;> rfl

/-- A vacant line has no token, and does not tell which octet indents the document. -/
theorem lexLines_vacantLine (hx : VacantLine x) (unit : Option UInt8) (line : Nat) (s : Bytes) :
    lexLines unit line (x ++ s) = lexLines unit (line + 1) s := by
  obtain ⟨blanks, b, rest, rfl, hblanks, hb, hvacant, hlex⟩ := hx.exists_blanks
  rw [List.append_assoc, List.cons_append]
  have hstart : startLine unit line (blanks ++ b :: (rest ++ s)) = .ok ([], unit) := by
    rw [startLine, entryIndent?_append hblanks hb, if_pos (hvacant s)]
  calc lexLines unit line (blanks ++ b :: (rest ++ s))
      = lexFrom unit line 0 (blanks ++ b :: (rest ++ s)) := by
        rw [lexLines, hstart]
        exact map_nil_append _
    _ = lexFrom unit line 0 (lf :: s) := by rw [lexFrom_blanks unit line hblanks, hlex]
    _ = lexLines unit (line + 1) s := lexFrom_lf_eq unit line s

/-- The number of a line, with one more line after the first `n`. -/
def moved (n line : Nat) : Nat := if line ≤ n then line else line + 1

/-- After the new line all numbers are one more. -/
theorem countsFrom_moved (n : Nat) : CountsFrom (moved n) (n + 1) := by
  intro k
  rw [moved, moved, if_neg (by omega), if_neg (by omega)]
  omega

/-- One more vacant line changes nothing but the lines of the tokens after it. -/
theorem lex_vacantLine {tokens : List Token} (ha : a = [] ∨ EndsLine a) (hlex : lex a = .ok tokens)
    (hx : VacantLine x) (b : Bytes) :
    lex (a ++ (x ++ b)) =
      relabelled (.lines (moved (lineBreaks a)))
        (List.map (Token.relabel (.lines (moved (lineBreaks a))))) (lex (a ++ b)) := by
  obtain ⟨hlines, unit, hafter⟩ := lex_append ha hlex
  have hsame : tokens.map (Token.relabel (.lines (moved (lineBreaks a)))) = tokens := by
    refine (List.map_congr_left fun t ht => ?_).trans (List.map_id tokens)
    rw [Token.relabel_lines, moved, if_pos (hlines t ht)]
    rfl
  have hnext : moved (lineBreaks a) (lineBreaks a + 1) = lineBreaks a + 1 + 1 := if_neg (by omega)
  rw [hafter, hafter, lexLines_vacantLine hx, ← hnext, lexLines_renumber (countsFrom_moved _),
    map_relabelled, relabelled_map]
  simp only [List.map_append, hsame]

/-- One more vacant line changes nothing but the lines of the faults after it. -/
theorem decode_vacantLine {tokens : List Token} (ha : a = [] ∨ EndsLine a)
    (hlex : lex a = .ok tokens) (hx : VacantLine x) (b : Bytes) :
    decode (a ++ (x ++ b)) = relabelled (.lines (moved (lineBreaks a))) id (decode (a ++ b)) := by
  rw [decode, decode, lex_vacantLine ha hlex hx]
  exact relabelled_bind (parse_renumber _) _

/-- A line of blanks or a comment, put in between two lines of a text, makes a document of it no
more and no less than it was. A fault is the same one as before, on the same line if it is before
the new one, and else on the next one. -/
theorem vacant_line_is_invisible {tokens : List Token} (ha : a = [] ∨ a.getLast? = some lf)
    (hlex : lex a = .ok tokens) (hx : VacantLine x) (b : Bytes) :
    (decode (a ++ x ++ b) = .ok () ↔ decode (a ++ b) = .ok ()) ∧
      ∀ problem line, decode (a ++ b) = .error ⟨problem, line⟩ →
        decode (a ++ x ++ b) =
          .error ⟨problem, if line ≤ lineBreaks a then line else line + 1⟩ := by
  rw [List.append_assoc, decode_vacantLine ha hlex hx]
  constructor
  · cases decode (a ++ b) <;> simp [relabelled]
  · intro problem line hfault
    rw [hfault]
    exact congrArg Except.error (Fault.relabel_lines _ ⟨problem, line⟩)

end

/-- The first lines of a text, in the middle of which brackets are open. -/
def upperLines : Bytes := ascii "k: [1,\n"

/-- The other lines. They are indented by spaces, and a key is there twice. -/
def lowerLines : Bytes := ascii "  2]\nk: 3\n"

/-- A line that starts with a tab, although the document is indented by spaces. -/
def noteLine : Bytes := ascii "\t# ]\r\n"

theorem vacantLine_noteLine : VacantLine noteLine :=
  @VacantLine.mk [tab] (ascii "# ]") [cr, lf] (List.all_eq_true.mp rfl)
    (.inr ⟨ascii " ]", rfl, by decide⟩) (.inr rfl)

theorem vacant_line_is_invisible_noteLine :
    (upperLines.getLast? = some lf ∧ VacantLine noteLine ∧ ∃ tokens, lex upperLines = .ok tokens) ∧
      decode (upperLines ++ lowerLines) = .error ⟨.duplicatedKey (ascii "k"), 3⟩ ∧
      decode (upperLines ++ noteLine ++ lowerLines) = .error ⟨.duplicatedKey (ascii "k"), 4⟩ := by
  have hends : upperLines.getLast? = some lf := rfl
  have hlex : lex upperLines = .ok
      [⟨.newline [], 1⟩, ⟨.scalar (ascii "k"), 1⟩, ⟨.colon, 1⟩, ⟨.opening .square, 1⟩,
        ⟨.scalar (ascii "1"), 1⟩, ⟨.comma, 1⟩] := rfl
  have hfault : decode (upperLines ++ lowerLines) = .error ⟨.duplicatedKey (ascii "k"), 3⟩ := rfl
  have hmoved :=
    (vacant_line_is_invisible (.inr hends) hlex vacantLine_noteLine lowerLines).2 _ 3 hfault
  exact ⟨⟨hends, vacantLine_noteLine, _, hlex⟩, hfault, hmoved⟩

end SourceTidy.Neon
