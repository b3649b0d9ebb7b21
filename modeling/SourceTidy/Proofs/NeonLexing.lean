import SourceTidy.Proofs.NeonOutline
import SourceTidy.Proofs.StrippedText

/-! # Texts that the lexer reads alike

A line of blanks around a carriage return has a token for its start, and no other token. Where such
blanks go, the token goes with them. Otherwise the lexer steps through two texts side by side, if
their white space is alike.

* `Voided`: tokens without some that start lines on which nothing else stands;
* `startsLine_of_idle`: the next token after a line without symbols starts another line;
* `LexesAlike`: what makes the lexer step through two texts side by side;
* `LexesAlike.lex`: then it finds the same tokens in them.
-/

namespace SourceTidy.Neon

open Ascii Bytes

/-! ## The lexer step by step -/

section

variable {unit unit' : Option UInt8} {line n : Nat} {s : Bytes} {b : UInt8}
  {symbol? : Option Symbol}
  {tokens : List Token}

theorem lexFrom_drop (unit : Option UInt8) (line n : Nat) (s : Bytes) :
    lexFrom unit line n s = lexFrom unit line 0 (s.drop n) := by
  induction n generalizing s with
  | zero => rfl
  | succ n ih =>
    cases s with
    | nil => rfl
    | cons b s =>
      rw [lexFrom, List.drop_succ_cons]
      exact ih s

theorem punctuation?_of_isInnerBlank (hb : isInnerBlank b = true) (s : Bytes) :
    punctuation? b s = none := by
  simp only [isInnerBlank, isBlank, Bool.or_eq_true, beq_iff_eq] at hb
  rcases hb with (rfl | rfl) | rfl <;> rfl

theorem lexeme_of_isInnerBlank (hb : isInnerBlank b = true) (s : Bytes) :
    lexeme b s = .ok (none, 1) := by
  rw [lexeme, punctuation?_of_isInnerBlank hb]
  exact if_pos hb

theorem lexeme_hash (s : Bytes) : lexeme hash s = .ok (none, 1 + runLength (· != lf) s) := rfl

/-- A literal has a first octet. -/
theorem literalRest_pos (hlf : b ≠ lf) (hb : punctuation? b s = none)
    (hblank : isInnerBlank b = false) :
    0 < (literalRest (b :: s)).1 := by
  have hstops : (stopsLiteral b || (b = colon && valueFollows s)) = false := by
    by_contra hnot
    simp only [Bool.not_eq_false, stopsLiteral, Bool.or_eq_true, Bool.and_eq_true, beq_iff_eq,
      decide_eq_true_eq] at hnot
    -- what ends a literal is a symbol by itself
    rcases hnot with
      ((((((((rfl | rfl) | rfl) | rfl) | rfl) | rfl) | rfl) | rfl) | rfl) | ⟨rfl, hvalue⟩
    · exact hlf rfl
    case inr => cases hb.symm.trans (if_pos hvalue : punctuation? colon s = some .colon)
    all_goals cases hb
  simp [literalRest, hstops, hblank]

/-- Every symbol takes something of the text. -/
theorem lexeme_pos (hlf : b ≠ lf) (h : lexeme b s = .ok (symbol?, n)) : 0 < n := by
  unfold lexeme at h
  split at h
  case h_1 =>
    cases h
    exact Nat.one_pos
  case h_2 hnone =>
    split_ifs at h with hblank hhash hquote
    · cases h
      exact Nat.one_pos
    · cases h
      exact Nat.add_pos_left Nat.one_pos _
    -- a string has its quotes, and a literal at least one octet
    · obtain ⟨⟨text, m⟩, hstring, hm⟩ := map_eq_ok h
      cases hm
      unfold quotedString at hstring
      split_ifs at hstring
      · split at hstring
        · cases hstring
          omega
        · cases hstring
      · obtain ⟨k, -, hk⟩ := map_eq_ok hstring
        cases hk
        omega
    · cases h
      exact literalRest_pos hlf hnone (by simpa using hblank)

/-- One symbol of a line, or blanks or a comment. -/
theorem lexFrom_lexeme (unit : Option UInt8) (line : Nat) (hlf : b ≠ lf)
    (h : lexeme b s = .ok (symbol?, n)) :
    lexFrom unit line 0 (b :: s) =
      (lexFrom unit (line + lineBreaks ((b :: s).take n)) 0 ((b :: s).drop n)).map
        (symbol?.toList.map (Token.mk · line) ++ ·) := by
  obtain ⟨m, rfl⟩ : ∃ m, n = m + 1 := Nat.exists_eq_add_one.mpr (lexeme_pos hlf h)
  rw [lexFrom, if_neg hlf, h]
  show (lexFrom unit (line + lineBreaks ((b :: s).take (m + 1))) m s).map _ = _
  rw [lexFrom_drop unit _ m s, List.drop_succ_cons]

theorem lexFrom_lexeme_eq_ok (hlf : b ≠ lf) (h : lexFrom unit line 0 (b :: s) = .ok tokens) :
    ∃ symbol? n rest, lexeme b s = .ok (symbol?, n) ∧
      lexFrom unit (line + lineBreaks ((b :: s).take n)) 0 ((b :: s).drop n) = .ok rest ∧
      tokens = symbol?.toList.map (Token.mk · line) ++ rest := by
  cases hlexeme : lexeme b s with
  | error problem =>
    rw [lexFrom, if_neg hlf, hlexeme] at h
    cases h
  | ok result =>
    obtain ⟨symbol?, n⟩ := result
    rw [lexFrom_lexeme unit line hlf hlexeme] at h
    obtain ⟨rest, hrest, rfl⟩ := map_eq_ok h
    exact ⟨symbol?, n, rest, rfl, hrest, rfl⟩

theorem map_nil_append (x : Except Fault (List Token)) : x.map ([] ++ ·) = x := by
  cases x <;> rfl

theorem ne_lf_of_isInnerBlank (hb : isInnerBlank b = true) : b ≠ lf := by
  rintro rfl
  cases hb

/-- A blank inside of a line is passed over. -/
theorem lexFrom_blank (unit : Option UInt8) (line : Nat) (hb : isInnerBlank b = true) (s : Bytes) :
    lexFrom unit line 0 (b :: s) = lexFrom unit line 0 s := by
  have hlf := ne_lf_of_isInnerBlank hb
  have hbreaks : lineBreaks ((b :: s).take 1) = 0 := by
    simpa [lineBreaks, List.count_eq_zero] using hlf.symm
  rw [lexFrom_lexeme unit line hlf (lexeme_of_isInnerBlank hb s), hbreaks]
  exact map_nil_append _

/-- A comment reaches to the end of its line. -/
theorem comment_extent (s : Bytes) :
    (hash :: s).drop (1 + runLength (· != lf) s) = s.dropWhile (· != lf) ∧
      lineBreaks ((hash :: s).take (1 + runLength (· != lf) s)) = 0 := by
  rw [Nat.add_comm, List.drop_succ_cons, List.take_succ_cons, runLength, drop_length_takeWhile,
    take_length_takeWhile, lineBreaks, List.count_eq_zero, List.mem_cons, not_or]
  refine ⟨rfl, by decide, ?_⟩
  intro hmem
  have hlf := List.mem_takeWhile_imp hmem
  simp at hlf

/-- A comment is passed over up to the end of its line. -/
theorem lexFrom_hash (unit : Option UInt8) (line : Nat) (s : Bytes) :
    lexFrom unit line 0 (hash :: s) = lexFrom unit line 0 (s.dropWhile (· != lf)) := by
  obtain ⟨hrest, hbreaks⟩ := comment_extent s
  rw [lexFrom_lexeme unit line (by decide) (lexeme_hash s), hrest, hbreaks]
  exact map_nil_append _

/-- The end of a line. -/
theorem lexFrom_lf_eq_ok (h : lexFrom unit line 0 (lf :: s) = .ok tokens) :
    ∃ start unit' rest, startLine unit (line + 1) s = .ok (start, unit') ∧
      lexFrom unit' (line + 1) 0 s = .ok rest ∧ tokens = start ++ rest := by
  rw [lexFrom, if_pos rfl] at h
  split at h
  · cases h
  · next start unit' hstart =>
    obtain ⟨rest, hrest, rfl⟩ := map_eq_ok h
    exact ⟨start, unit', rest, hstart, hrest, rfl⟩

theorem lexFrom_lf (hstart : startLine unit (line + 1) s = .ok (tokens, unit')) :
    lexFrom unit line 0 (lf :: s) = (lexFrom unit' (line + 1) 0 s).map (tokens ++ ·) := by
  rw [lexFrom, if_pos rfl, hstart]

/-- The tokens from the start of a line on. -/
def lexLines (unit : Option UInt8) (line : Nat) (s : Bytes) : Except Fault (List Token) :=
  match startLine unit line s with
  | .error fault => .error fault
  | .ok (tokens, unit') => (lexFrom unit' line 0 s).map (tokens ++ ·)

theorem lexFrom_lf_eq (unit : Option UInt8) (line : Nat) (s : Bytes) :
    lexFrom unit line 0 (lf :: s) = lexLines unit (line + 1) s := rfl

end

/-! ## Lines without tokens -/

/-- The symbol with its text changed by `f`, if it has one. -/
def Symbol.rename (f : Bytes → Bytes) : Symbol → Symbol
  | .scalar text => .scalar (f text)
  | symbol => symbol

def Token.rename (f : Bytes → Bytes) (t : Token) : Token := { t with symbol := t.symbol.rename f }

def Token.startsLine (t : Token) : Bool :=
  match t.symbol with
  | .newline _ => true
  | _ => false

/-- Another token that starts a line comes first, or there is no token. -/
def StartsLine (tokens : List Token) : Prop := ∀ t ∈ tokens.head?, t.startsLine = true

/-- Tokens of which some are missing that start a line with no other token. -/
inductive Voided : List Token → List Token → Prop where
  | nil : Voided [] []
  | keep {tokens tokens' : List Token} (t : Token) :
      Voided tokens tokens' → Voided (t :: tokens) (t :: tokens')
  | void {tokens tokens' : List Token} {t : Token} : t.startsLine = true → StartsLine tokens →
      Voided tokens tokens' → Voided (t :: tokens) tokens'

theorem startsLine_rename (f : Bytes → Bytes) (t : Token) :
    (t.rename f).startsLine = t.startsLine := by
  obtain ⟨symbol, line⟩ := t
  cases symbol <;> rfl

/-- Other texts do not change which tokens start lines. -/
theorem StartsLine.rename {tokens : List Token} (f : Bytes → Bytes) (h : StartsLine tokens) :
    StartsLine (tokens.map (Token.rename f)) := by
  cases tokens with
  | nil => exact h
  | cons t tokens =>
    rintro _ ⟨⟩
    rw [startsLine_rename]
    exact h t rfl

/-- Tokens before them stay. -/
theorem Voided.append_left {tokens tokens' : List Token} (h : Voided tokens tokens')
    (first : List Token) :
    Voided (first ++ tokens) (first ++ tokens') := by
  induction first with
  | nil => exact h
  | cons t first ih => exact .keep t ih

/-- Of tokens that all start lines, all may go. -/
theorem voided_nil {tokens : List Token} (h : ∀ t ∈ tokens, t.startsLine = true) :
    Voided tokens [] := by
  induction tokens with
  | nil => exact .nil
  | cons t tokens ih =>
    rw [List.forall_mem_cons] at h
    refine .void h.1 ?_ (ih h.2)
    intro next hnext
    exact h.2 next (List.mem_of_mem_head? hnext)

/-- The rest of a line on which no symbol follows. -/
inductive Idle : Bytes → Prop where
  | nil : Idle []
  | lineEnd (s : Bytes) : Idle (lf :: s)
  | comment (s : Bytes) : Idle (hash :: s)
  | blank {s : Bytes} {b : UInt8} : isInnerBlank b = true → Idle s → Idle (b :: s)

/-- Blanks do not make a line less idle. -/
theorem idle_append {blanks s : Bytes} (hblanks : ∀ b ∈ blanks, isInnerBlank b = true)
    (hs : Idle s) :
    Idle (blanks ++ s) := by
  induction blanks with
  | nil => exact hs
  | cons b blanks ih =>
    rw [List.forall_mem_cons] at hblanks
    exact .blank hblanks.1 (ih hblanks.2)

/-- What is left after a comment, which goes on to the end of its line, is idle. -/
theorem idle_dropWhile (s : Bytes) : Idle (s.dropWhile (· != lf)) := by
  induction s with
  | nil => exact .nil
  | cons b s ih =>
    rw [List.dropWhile_cons]
    split
    · exact ih
    · next hlf =>
      obtain rfl : b = lf := by simpa using hlf
      exact .lineEnd s

theorem isInnerBlank_of_isBlank {b : UInt8} (h : isBlank b = true) : isInnerBlank b = true := by
  simp [isInnerBlank, h]

/-- Blanks at the start of a line, one after the other. -/
theorem lexFrom_blanks (unit : Option UInt8) (line : Nat) {blanks : Bytes}
    (hblanks : ∀ b ∈ blanks, isBlank b = true) (s : Bytes) :
    lexFrom unit line 0 (blanks ++ s) = lexFrom unit line 0 s := by
  induction blanks with
  | nil => rfl
  | cons b blanks ih =>
    rw [List.forall_mem_cons] at hblanks
    rw [List.cons_append, lexFrom_blank unit line (isInnerBlank_of_isBlank hblanks.1), ih hblanks.2]

/-- The line has nothing but blanks, or a comment, after its indentation. -/
def isVacant : Bytes → Bool
  | [] => true
  | b :: rest => b = lf || b = hash || (b = cr && (rest.isEmpty || nextIs lf rest))

/-- The indentation is the blanks that the line starts with, unless it is vacant. -/
theorem entryIndent?_eq (s : Bytes) :
    entryIndent? s =
      if isVacant (s.dropWhile isBlank) then none else some (s.takeWhile isBlank) := by
  rw [← drop_length_takeWhile]
  rfl

/-- No symbol follows on a vacant line. -/
theorem idle_of_isVacant {s : Bytes} (h : isVacant s = true) : Idle s := by
  cases s with
  | nil => exact .nil
  | cons b s =>
    simp only [isVacant, Bool.or_eq_true, Bool.and_eq_true, decide_eq_true_eq,
      List.isEmpty_iff, nextIs, beq_iff_eq, List.head?_eq_some_iff] at h
    rcases h with (rfl | rfl) | ⟨rfl, rfl | ⟨rest, rfl⟩⟩
    · exact .lineEnd s
    · exact .comment s
    · exact .blank rfl .nil
    · exact .blank rfl (.lineEnd rest)

/-- A line that has no token for its start is idle. -/
theorem idle_of_entryIndent?_eq_none {s : Bytes} (h : entryIndent? s = none) : Idle s := by
  rw [entryIndent?_eq, ite_eq_left_iff] at h
  have hvacant : isVacant (s.dropWhile isBlank) = true := by
    by_contra hnot
    cases h hnot
  rw [← List.takeWhile_append_dropWhile (p := isBlank) (l := s)]
  refine idle_append ?_ (idle_of_isVacant hvacant)
  intro b hb
  exact isInnerBlank_of_isBlank (List.mem_takeWhile_imp hb)

section

variable {unit unit' : Option UInt8} {line : Nat} {s : Bytes} {start tokens : List Token}

/-- The start of a line has a token if the line is not vacant. -/
theorem startLine_eq_ok (h : startLine unit line s = .ok (start, unit')) :
    (entryIndent? s = none ∧ start = [] ∧ unit' = unit) ∨
      ∃ indent, entryIndent? s = some indent ∧ agreeIndent? unit indent = some unit' ∧
        start = [⟨.newline indent, line⟩] := by
  unfold startLine at h
  split at h
  · next hnone =>
    cases h
    exact Or.inl ⟨hnone, rfl, rfl⟩
  · next indent hindent =>
    split at h
    · cases h
    · next hunit =>
      cases h
      exact Or.inr ⟨indent, hindent, hunit, rfl⟩

/-- The next token after an idle rest of a line starts another line. -/
theorem startsLine_of_idle (hs : Idle s) (h : lexFrom unit line 0 s = .ok tokens) :
    StartsLine tokens := by
  -- a comment is left out as a whole, so the induction is on the length
  induction hlength : s.length using Nat.strong_induction_on generalizing unit line s tokens with
  | _ length ih =>
  subst hlength
  cases hs with
  | nil =>
    cases h
    intro t ht
    cases ht
  | blank hb hs =>
    rw [lexFrom_blank unit line hb] at h
    exact ih _ (Nat.lt_succ_self _) hs h rfl
  | comment s =>
    rw [lexFrom_hash] at h
    refine ih _ ?_ (idle_dropWhile s) h rfl
    exact Nat.lt_succ_of_le (List.dropWhile_suffix _).length_le
  | lineEnd s =>
    obtain ⟨start, unit', rest, hstart, hrest, rfl⟩ := lexFrom_lf_eq_ok h
    rcases startLine_eq_ok hstart with ⟨hnone, rfl, rfl⟩ | ⟨indent, -, -, rfl⟩
    · exact ih _ (Nat.lt_succ_self _) (idle_of_entryIndent?_eq_none hnone) hrest rfl
    · rintro t ⟨⟩
      rfl

/-- White space has no symbols. -/
theorem startsLine_of_spacing (hs : ∀ b ∈ s, isSpacing b = true)
    (h : lexFrom unit line 0 s = .ok tokens) :
    ∀ t ∈ tokens, t.startsLine = true := by
  induction s generalizing unit line tokens with
  | nil =>
    cases h
    simp
  | cons b s ih =>
    rw [List.forall_mem_cons] at hs
    by_cases hlf : b = lf
    · subst hlf
      obtain ⟨start, unit', rest, hstart, hrest, rfl⟩ := lexFrom_lf_eq_ok h
      rcases startLine_eq_ok hstart with ⟨-, rfl, -⟩ | ⟨indent, -, -, rfl⟩
      · exact ih hs.2 hrest
      · exact List.forall_mem_cons.mpr ⟨rfl, ih hs.2 hrest⟩
    · have hblank : isInnerBlank b = true := by
        simpa [isSpacing, isInnerBlank, hlf] using hs.1
      rw [lexFrom_blank unit line hblank] at h
      exact ih hs.2 h

end

/-! ## Texts that are lexed side by side -/

/-- How two related texts start: white space that is over or a blank is in the first one only. -/
inductive LexStarts (R : Bytes → Bytes → Prop) : Bytes → Bytes → Prop where
  | ended {s t : Bytes} :
      (∀ b ∈ s, isSpacing b = true) → (∀ unit line, lexFrom unit line 0 t = .ok []) →
      LexStarts R s t
  | blank {s t : Bytes} {b : UInt8} : isBlank b = true → R s t → LexStarts R (b :: s) t
  | both {s t : Bytes} (b : UInt8) : R s t → LexStarts R (b :: s) (b :: t)

/-- The lexer steps through related texts side by side, where `f` changes the texts of scalars. -/
structure LexesAlike (R : Bytes → Bytes → Prop) (f : Bytes → Bytes) : Prop where
  starts : ∀ {s t}, R s t → LexStarts R s t
  lexeme : ∀ {s t b symbol? n}, R s t → b ≠ lf → lexeme b s = .ok (symbol?, n) →
    ∃ n', Neon.lexeme b t = .ok (symbol?.map (Symbol.rename f), n') ∧
      R ((b :: s).drop n) ((b :: t).drop n') ∧
      lineBreaks ((b :: t).take n') = lineBreaks ((b :: s).take n)
  indent : ∀ {s t}, R s t → entryIndent? t = entryIndent? s ∨ entryIndent? t = none ∧ Idle s

section

variable {unit unit' next : Option UInt8} {indent : Bytes}

/-- Less is known of the octet that indents a document if fewer lines have been seen. -/
theorem agreeIndent?_of_subset (hunit : ∀ u ∈ unit', u ∈ unit)
    (h : agreeIndent? unit indent = some next) :
    ∃ next', agreeIndent? unit' indent = some next' ∧ ∀ u ∈ next', u ∈ next := by
  cases unit' with
  | some u =>
    obtain rfl : unit = some u := hunit u rfl
    exact ⟨next, h, fun _ hu => hu⟩
  | none =>
    cases unit with
    | none => exact ⟨next, h, fun _ hu => hu⟩
    | some u =>
      cases indent with
      | nil => exact ⟨none, rfl, by simp⟩
      | cons b indent =>
        have hall : (b = u ∧ ∀ c ∈ indent, c = u) ∧ some u = next := by simpa [agreeIndent?] using h
        obtain rfl := hall.1.1
        exact ⟨next, h, fun _ hu => hu⟩

/-- Once a document is indented by an octet, it stays so. -/
theorem subset_of_agreeIndent? (h : agreeIndent? unit indent = some next) :
    ∀ u ∈ unit, u ∈ next := by
  rintro u rfl
  simp only [agreeIndent?, Option.some_or] at h
  split at h
  · exact Option.some.inj h.symm
  · cases h

end

section

variable {R : Bytes → Bytes → Prop} {f : Bytes → Bytes} {unit unit' next : Option UInt8}
  {line : Nat}
  {s t : Bytes} {start tokens : List Token}

/-- The start of a line. What is said of the first text stays true of the other one, unless nothing
follows on the line. -/
theorem LexesAlike.startLine (h : LexesAlike R f) (hst : R s t) (hunit : ∀ u ∈ unit', u ∈ unit)
    (hstart : startLine unit line s = .ok (start, next)) :
    ∃ start' next', Neon.startLine unit' line t = .ok (start', next') ∧ (∀ u ∈ next', u ∈ next) ∧
      (start' = start ∨ start' = [] ∧ Idle s) := by
  rcases startLine_eq_ok hstart with ⟨hnone, rfl, rfl⟩ | ⟨indent, hindent, hnext, rfl⟩
  · have hnone' : entryIndent? t = none := by
      rcases h.indent hst with hsame | ⟨hnone', -⟩
      · rw [hsame, hnone]
      · exact hnone'
    refine ⟨[], unit', ?_, hunit, Or.inl rfl⟩
    rw [Neon.startLine, hnone']
  · rcases h.indent hst with hsame | ⟨hnone', hidle⟩
    · obtain ⟨next', hnext', hsubset⟩ := agreeIndent?_of_subset hunit hnext
      refine ⟨[⟨.newline indent, line⟩], next', ?_, hsubset, Or.inl rfl⟩
      rw [Neon.startLine, hsame, hindent]
      simp only [hnext']
    · refine ⟨[], unit', ?_, ?_, Or.inr ⟨rfl, hidle⟩⟩
      · rw [Neon.startLine, hnone']
      · intro u hu
        exact subset_of_agreeIndent? hnext u (hunit u hu)

/-- The token for the start of a line has no text, and may go if no symbol follows. -/
theorem rename_startLine (f : Bytes → Bytes) (h : startLine unit line s = .ok (start, next)) :
    start.map (Token.rename f) = start ∧ ∀ rest rest', StartsLine rest → Voided rest rest' →
      Voided (start ++ rest) rest' := by
  rcases startLine_eq_ok h with ⟨-, rfl, -⟩ | ⟨indent, -, -, rfl⟩
  · exact ⟨rfl, fun _ _ _ hrest => hrest⟩
  · exact ⟨rfl, fun _ _ hstarts hrest => .void rfl hstarts hrest⟩

/-- A line break, given that the lexer agrees on what follows. -/
theorem LexesAlike.lexFrom_lf (h : LexesAlike R f) (hst : R s t) (hunit : ∀ u ∈ unit', u ∈ unit)
    (hafter : ∀ {unit unit' rest}, (∀ u ∈ unit', u ∈ unit) →
      lexFrom unit (line + 1) 0 s = .ok rest →
      ∃ rest', lexFrom unit' (line + 1) 0 t = .ok rest' ∧ Voided (rest.map (Token.rename f)) rest')
    (hlex : lexFrom unit line 0 (lf :: s) = .ok tokens) :
    ∃ tokens', lexFrom unit' line 0 (lf :: t) = .ok tokens' ∧
      Voided (tokens.map (Token.rename f)) tokens' := by
  obtain ⟨start, next, rest, hstart, hlexRest, rfl⟩ := lexFrom_lf_eq_ok hlex
  obtain ⟨start', next', hstart', hsubset, hvoid⟩ := h.startLine hst hunit hstart
  obtain ⟨rest', hrest', hvoided⟩ := hafter hsubset hlexRest
  obtain ⟨hrename, hdrop⟩ := rename_startLine f hstart
  refine ⟨start' ++ rest', ?_, ?_⟩
  · rw [Neon.lexFrom_lf hstart', hrest']
    rfl
  · rw [List.map_append, hrename]
    rcases hvoid with rfl | ⟨rfl, hidle⟩
    · exact hvoided.append_left _
    · exact hdrop _ _ ((startsLine_of_idle hidle hlexRest).rename f) hvoided

/-- The lexer finds the same tokens in related texts, from any line on. The octet that indents the
document may still be open in the second one. -/
theorem LexesAlike.lexFrom (h : LexesAlike R f) (hst : R s t) (hunit : ∀ u ∈ unit', u ∈ unit)
    (hlex : lexFrom unit line 0 s = .ok tokens) :
    ∃ tokens', Neon.lexFrom unit' line 0 t = .ok tokens' ∧
      Voided (tokens.map (Token.rename f)) tokens' := by
  -- a symbol may take any number of octets, so the induction is on the length
  induction hlength :
    s.length using Nat.strong_induction_on generalizing unit unit' line s t tokens with
  | _ length ih =>
  subst hlength
  cases h.starts hst with
  | ended hs ht =>
    refine ⟨[], ht unit' line, voided_nil ?_⟩
    simp only [List.forall_mem_map, startsLine_rename]
    exact startsLine_of_spacing hs hlex
  | blank hb hrest =>
    rw [lexFrom_blank unit line (isInnerBlank_of_isBlank hb)] at hlex
    exact ih _ (Nat.lt_succ_self _) hrest hunit hlex rfl
  | @both s t b hrest =>
    by_cases hlf : b = lf
    · subst hlf
      refine h.lexFrom_lf hrest hunit ?_ hlex
      intro unit unit' rest hunit hlexRest
      exact ih _ (Nat.lt_succ_self _) hrest hunit hlexRest rfl
    · obtain ⟨symbol?, n, rest, hlexeme, hlexRest, rfl⟩ := lexFrom_lexeme_eq_ok hlf hlex
      obtain ⟨n', hlexeme', hafter, hbreaks⟩ := h.lexeme hrest hlf hlexeme
      have hshorter : ((b :: s).drop n).length < (b :: s).length := by
        rw [List.length_drop, List.length_cons]
        have hpos := lexeme_pos hlf hlexeme
        omega
      obtain ⟨rest', hrest', hvoided⟩ := ih _ hshorter hafter hunit hlexRest rfl
      refine ⟨(symbol?.map (Symbol.rename f)).toList.map (Token.mk · line) ++ rest', ?_, ?_⟩
      · rw [lexFrom_lexeme unit' line hlf hlexeme', hbreaks, hrest']
        rfl
      · rw [List.map_append]
        cases symbol? with
        | none => exact hvoided
        | some symbol => exact .keep _ hvoided

/-- A document is lexed as if a line break came before it. -/
theorem lex_eq_lexFrom (s : Bytes) : lex s = lexFrom none 0 0 (lf :: s) := rfl

/-- It finds the same tokens in all of them. -/
theorem LexesAlike.lex (h : LexesAlike R f) (hst : R s t) (hlex : lex s = .ok tokens) :
    ∃ tokens', Neon.lex t = .ok tokens' ∧ Voided (tokens.map (Token.rename f)) tokens' := by
  rw [lex_eq_lexFrom] at hlex ⊢
  refine h.lexFrom_lf hst (fun _ hu => hu) ?_ hlex
  intro unit unit' rest hunit hrest
  exact h.lexFrom hst hunit hrest

end

end SourceTidy.Neon
