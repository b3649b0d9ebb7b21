import SourceTidy.Proofs.NeonBlanks
import SourceTidy.Proofs.NeonKeys

/-! # Where the NEON lexer stands

The lexer goes through a document turn by turn. At each turn it stands at the start of a line or
inside of one, and takes a part of what is left. The parts, one after the other, are the document,
so the line that the lexer counts is the line of the place.

* `Takes`, `takes_lexeme`: the parts of a line, by what they are spelled with;
* `Turn`: one turn, `Place.Fails`: why there is none, `exists_turn`: there is no other case;
* `LexedTo`: the places on the way, with what has been read and the tokens so far;
* `LexedTo.source_eq`, `LexedTo.line_eq`: what has been read, and the line;
* `exists_place_of_token`, `exists_fails_of_lex`: the place of each token, and of an error.
-/

namespace SourceTidy.Neon

open Ascii Bytes

/-! ## The parts of a line -/

/-- May the octet stand after a literal? -/
def endsLiteral (b : UInt8) : Bool := stopsLiteral b || b == colon || isInnerBlank b

/-- A part of a line, with the symbol that it makes, if any, and what follows it. -/
inductive Takes : Option Symbol → Bytes → Bytes → Prop where
  | punctuation {b : UInt8} {symbol : Symbol} {back : Bytes}
      (h : punctuation? b back = some symbol) :
      Takes (some symbol) [b] back
  | blank {b : UInt8} {back : Bytes} (h : isInnerBlank b = true) : Takes none [b] back
  | comment {text back : Bytes} (htext : lf ∉ text) (hback : back = [] ∨ nextIs lf back = true) :
      Takes none (hash :: text) back
  | quoted {quote : UInt8} {text back : Bytes} (hquote : quote = singleQuote ∨ quote = doubleQuote)
      (htext : lf ∉ text) : Takes (some (.scalar text)) ([quote] ++ text ++ [quote]) back
  /-- A string of several lines. -/
  | block {quote : UInt8} {text back : Bytes} (hquote : quote = singleQuote ∨ quote = doubleQuote) :
      Takes (some (.scalar text)) ([quote, quote, quote] ++ text ++ [quote, quote, quote]) back
  | literal {text back : Bytes} (htext : lf ∉ text)
      (hback : back = [] ∨ nextIn endsLiteral back = true) :
      Takes (some (.scalar text)) text back

section

variable {s text : Bytes} {b quote : UInt8} {n : Nat} {symbol? : Option Symbol}

/-- After a literal comes nothing, or an octet that ends it. -/
theorem drop_literalRest (s : Bytes) :
    s.drop (literalRest s).1 = [] ∨ nextIn endsLiteral (s.drop (literalRest s).1) = true := by
  induction s with
  | nil => exact Or.inl rfl
  | cons b s ih =>
    by_cases hstop : (stopsLiteral b || (b = colon && valueFollows s)) = true
    · rw [literalRest_stop hstop]
      refine Or.inr ?_
      simp only [Bool.or_eq_true, Bool.and_eq_true, decide_eq_true_eq] at hstop
      rcases hstop with hstop | ⟨rfl, -⟩
      · simp [nextIn, endsLiteral, hstop]
      · rfl
    -- text goes on with the literal; a blank does so only if more of it follows
    · cases hb : isInnerBlank b with
      | false =>
        rw [literalRest_text hstop hb]
        exact ih
      | true =>
        rw [literalRest_blank hb]
        split
        · exact Or.inr (by simp [nextIn, endsLiteral, hb])
        · exact ih

/-- A string is closed by what has opened it. -/
theorem quotedString_eq_ok (hquote : isSpacing quote = false)
    (h : quotedString quote (quote :: s) = .ok (text, n)) :
    (∃ back, s = text ++ quote :: back ∧ n = text.length + 2 ∧ lf ∉ text) ∨
      ∃ back, s = quote :: quote :: (text ++ quote :: quote :: quote :: back) ∧
        n = text.length + 6 := by
  unfold quotedString at h
  split at h
  · next hthree =>
    obtain ⟨r, rfl⟩ : ∃ r, s = quote :: quote :: r := by
      obtain ⟨r, hr⟩ := List.isPrefixOf_iff_prefix.mp hthree
      exact ⟨r, (List.cons.inj hr).2.symm⟩
    have hword := isWord_quotes hquote
    split at h
    · next m hm =>
      cases h
      rw [show (quote :: quote :: quote :: r).drop 3 = r from rfl] at hm ⊢
      have hfound := indexOf?_stripLines hword r
      obtain ⟨back, hback⟩ := hfound.there m hm
      -- three quotes: the end that is found is within the text
      have hlength : (r.take m).length = m := by
        have hle := hfound.add_length_le hword hm
        rw [List.length_take]
        omega
      refine Or.inr ⟨back, ?_, by rw [hlength]⟩
      rw [← List.take_append_drop m r, ← hback, List.take_left' hlength]
      rfl
    · cases h
  · obtain ⟨m, hm, htext⟩ := map_eq_ok h
    rw [show (quote :: s).drop 1 = s from rfl] at hm htext
    obtain ⟨body, back, rfl, rfl, hclosed⟩ := quotedBody_eq_ok hm
    cases htext
    refine Or.inl ⟨back, ?_, ?_, ?_⟩ <;> rw [List.take_left]
    exact hclosed.oneLine

/-- What the lexer takes of a line is the front of what is left, and it is one of the parts of a
line. -/
theorem takes_lexeme (hlf : b ≠ lf) (h : lexeme b s = .ok (symbol?, n)) :
    ∃ inner back, s = inner ++ back ∧ n = inner.length + 1 ∧ Takes symbol? (b :: inner) back := by
  unfold lexeme at h
  split at h
  case h_1 symbol hsymbol =>
    cases h
    exact ⟨[], s, rfl, rfl, .punctuation hsymbol⟩
  case h_2 hnone =>
    split_ifs at h with hblank hhash hquote
    · cases h
      exact ⟨[], s, rfl, rfl, .blank hblank⟩
    · cases h
      subst hhash
      refine ⟨s.takeWhile (· != lf), s.dropWhile (· != lf), List.takeWhile_append_dropWhile.symm,
        Nat.add_comm _ _, .comment ?_ ?_⟩
      · intro hmem
        have hne := List.mem_takeWhile_imp hmem
        simp at hne
      · have hnext := List.head?_dropWhile_not (· != lf) s
        cases hback : s.dropWhile (· != lf) with
        | nil => exact Or.inl rfl
        | cons c back =>
          rw [hback] at hnext
          exact Or.inr (by simpa [nextIs] using hnext)
    · obtain ⟨⟨text, m⟩, hstring, hm⟩ := map_eq_ok h
      cases hm
      have hspacing := isSpacing_of_quote hquote
      simp only [Bool.or_eq_true, decide_eq_true_eq] at hquote
      rcases quotedString_eq_ok hspacing hstring with ⟨back, rfl, rfl, htext⟩ | ⟨back, rfl, rfl⟩
      · exact ⟨text ++ [b], back, by simp, by simp, .quoted hquote htext⟩
      · exact ⟨b :: b :: (text ++ [b, b, b]), back, by simp, by simp, .block hquote⟩
    · cases h
      -- a literal has a first octet
      have hpos := literalRest_pos hlf hnone (by simpa using hblank)
      obtain ⟨m, hm⟩ : ∃ m, (literalRest (b :: s)).1 = m + 1 := Nat.exists_eq_add_one.mpr hpos
      have hle := literalRest_le (b :: s)
      have hback := drop_literalRest (b :: s)
      have hline := (stripLines_literal (b :: s)).1
      rw [hm] at hle hback hline ⊢
      refine ⟨s.take m, s.drop m, (List.take_append_drop m s).symm, ?_, .literal hline hback⟩
      rw [List.length_cons] at hle
      rw [List.length_take]
      omega

/-- Of all that stands in a line only strings can be wrong. -/
theorem lexeme_eq_error_iff {problem : Problem} :
    lexeme b s = .error problem ↔
      (b = singleQuote ∨ b = doubleQuote) ∧ quotedString b (b :: s) = .error problem := by
  constructor
  · intro h
    unfold lexeme at h
    split at h
    · cases h
    · split_ifs at h with _ _ hquote
      simp only [Bool.or_eq_true, decide_eq_true_eq] at hquote
      exact ⟨hquote, map_eq_error h⟩
  · rintro ⟨hquote, h⟩
    have hlexeme :
        lexeme b s = (quotedString b (b :: s)).map fun r => (some (.scalar r.1), r.2) := by
      rcases hquote with rfl | rfl <;> rfl
    rw [hlexeme, h]
    rfl

end

/-! ## Turns -/

/-- Where the lexer stands: at the start of a line or inside of one, with the octet that indents the
document, the number of the line, and what is left. -/
structure Place where
  atLineStart : Bool
  unit : Option UInt8
  line : Nat
  rest : Bytes
deriving DecidableEq, Repr

/-- The tokens of what is left. -/
def Place.lex (p : Place) : Except Fault (List Token) :=
  if p.atLineStart then lexLines p.unit p.line p.rest else lexFrom p.unit p.line 0 p.rest

/-- One turn of the lexer: what it reads, the token that it makes, if any, and where it stands
then. -/
inductive Turn : Place → Bytes → Option Token → Place → Prop where
  /-- A line without a token for its start. -/
  | vacantLine {unit : Option UInt8} {line : Nat} {rest : Bytes} (h : entryIndent? rest = none) :
      Turn ⟨true, unit, line, rest⟩ [] none ⟨false, unit, line, rest⟩
  | entryLine {unit unit' : Option UInt8} {line : Nat} {rest indent : Bytes}
      (h : entryIndent? rest = some indent)
      (hunit : agreeIndent? unit indent = some unit') :
      Turn ⟨true, unit, line, rest⟩ [] (some ⟨.newline indent, line⟩) ⟨false, unit', line, rest⟩
  | lineBreak {unit : Option UInt8} {line : Nat} {rest : Bytes} :
      Turn ⟨false, unit, line, lf :: rest⟩ [lf] none ⟨true, unit, line + 1, rest⟩
  | part {unit : Option UInt8} {line : Nat} {b : UInt8} {inner rest : Bytes}
      {symbol? : Option Symbol} (hlf : b ≠ lf)
      (h : lexeme b (inner ++ rest) = .ok (symbol?, inner.length + 1))
      (htakes : Takes symbol? (b :: inner) rest) :
      Turn ⟨false, unit, line, b :: (inner ++ rest)⟩ (b :: inner) (symbol?.map (Token.mk · line))
        ⟨false, unit, line + lineBreaks (b :: inner), rest⟩

/-- The lexer cannot go on, for an indentation or a string that starts at the place. -/
inductive Place.Fails : Place → Fault → Prop where
  | indentation {unit : Option UInt8} {line : Nat} {rest indent : Bytes}
      (h : entryIndent? rest = some indent)
      (hunit : agreeIndent? unit indent = none) :
      Fails ⟨true, unit, line, rest⟩ ⟨.mixedIndentation, line⟩
  | string {unit : Option UInt8} {line : Nat} {quote : UInt8} {rest : Bytes} {problem : Problem}
      (hquote : quote = singleQuote ∨ quote = doubleQuote)
      (h : quotedString quote (quote :: rest) = .error problem) :
      Fails ⟨false, unit, line, quote :: rest⟩ ⟨problem, line⟩

section

variable {p q : Place} {read : Bytes} {token? : Option Token} {fault : Fault}

/-- What is read comes off what is left. -/
theorem Turn.rest_eq (h : Turn p read token? q) : p.rest = read ++ q.rest := by
  cases h <;> rfl

/-- The lexer counts the line breaks in what it reads. -/
theorem Turn.line_eq (h : Turn p read token? q) : q.line = p.line + lineBreaks read := by
  cases h with
  | vacantLine _ => rfl
  | entryLine _ _ => rfl
  | lineBreak => rfl
  | part _ _ _ => rfl

/-- A token starts a line or is a part of one, and has the number of the line that the lexer has
counted. -/
theorem Turn.token_cases {t : Token} (h : Turn p read (some t) q) :
    t.line = p.line ∧
      ((∃ indent, t.symbol = .newline indent ∧ p.atLineStart = true ∧
        entryIndent? p.rest = some indent) ∨
        Takes (some t.symbol) read q.rest) := by
  generalize htoken : some t = token? at h
  cases h with
  | vacantLine _ => cases htoken
  | entryLine hindent _ =>
    cases htoken
    exact ⟨rfl, Or.inl ⟨_, rfl, rfl, hindent⟩⟩
  | lineBreak => cases htoken
  | part _ _ htakes =>
    obtain ⟨symbol, rfl, rfl⟩ := Option.map_eq_some_iff.mp htoken.symm
    exact ⟨rfl, Or.inr htakes⟩

/-- The lexer goes on after a turn. -/
theorem Turn.lex_eq (h : Turn p read token? q) : p.lex = q.lex.map (token?.toList ++ ·) := by
  cases h with
  | @vacantLine unit line rest h =>
    rw [Place.lex, if_pos rfl, lexLines, startLine, h]
    rfl
  | @entryLine unit unit' line rest indent h hunit =>
    rw [Place.lex, if_pos rfl, lexLines, startLine, h]
    simp only [hunit]
    rfl
  | @lineBreak unit line rest =>
    have hlines := lexFrom_lf_eq unit line rest
    exact hlines.trans (map_nil_append _).symm
  -- blanks and comments make no symbol, and so no token
  | @part unit line b inner rest symbol? hlf h htakes =>
    have hparts := lexFrom_lexeme unit line hlf h
    rw [List.take_succ_cons, List.take_left, List.drop_succ_cons, List.drop_left] at hparts
    cases symbol? with
    | none => exact hparts
    | some symbol => exact hparts

/-- Where the lexer fails there are no tokens of what is left. -/
theorem Place.Fails.lex_eq (h : p.Fails fault) : p.lex = .error fault := by
  cases h with
  | indentation h hunit =>
    rw [Place.lex, if_pos rfl, lexLines, startLine, h]
    simp only [hunit]
  | @string unit line quote rest problem hquote h =>
    have hlf : quote ≠ lf := by
      rcases hquote with rfl | rfl <;> decide
    have hlexeme := lexeme_eq_error_iff.mpr ⟨hquote, h⟩
    rw [Place.lex, if_neg Bool.false_ne_true, lexFrom, if_neg hlf, hlexeme]

/-- What goes wrong is told on the line where the lexer stands. -/
theorem Place.Fails.line_eq (h : p.Fails fault) : fault.line = p.line := by
  cases h <;> rfl

/-- Each turn brings the lexer on. -/
theorem Turn.measure_lt (h : Turn p read token? q) :
    2 * q.rest.length + q.atLineStart.toNat < 2 * p.rest.length + p.atLineStart.toNat := by
  cases h with
  | vacantLine _ => exact Nat.lt_succ_self _
  | entryLine _ _ => exact Nat.lt_succ_self _
  | lineBreak =>
    simp only [List.length_cons, Bool.toNat_true, Bool.toNat_false]
    omega
  | part _ _ _ =>
    simp only [List.length_cons, List.length_append, Bool.toNat_false]
    omega

/-- The lexer has come to the end, or fails, or takes a turn. -/
theorem exists_turn (p : Place) :
    (p.atLineStart = false ∧ p.rest = []) ∨ (∃ fault, p.Fails fault) ∨
      ∃ read token? q, Turn p read token? q := by
  obtain ⟨atLineStart, unit, line, rest⟩ := p
  cases atLineStart with
  | true =>
    cases hindent : entryIndent? rest with
    | none => exact Or.inr (Or.inr ⟨_, _, _, .vacantLine hindent⟩)
    | some indent =>
      cases hunit : agreeIndent? unit indent with
      | none => exact Or.inr (Or.inl ⟨_, .indentation hindent hunit⟩)
      | some unit' => exact Or.inr (Or.inr ⟨_, _, _, .entryLine hindent hunit⟩)
  | false =>
    cases rest with
    | nil => exact Or.inl ⟨rfl, rfl⟩
    | cons b rest =>
      by_cases hlf : b = lf
      · subst hlf
        exact Or.inr (Or.inr ⟨_, _, _, .lineBreak⟩)
      · cases hlexeme : lexeme b rest with
        | error problem =>
          obtain ⟨hquote, hstring⟩ := lexeme_eq_error_iff.mp hlexeme
          exact Or.inr (Or.inl ⟨_, .string hquote hstring⟩)
        | ok result =>
          obtain ⟨symbol?, n⟩ := result
          obtain ⟨inner, back, rfl, rfl, htakes⟩ := takes_lexeme hlf hlexeme
          exact Or.inr (Or.inr ⟨_, _, _, .part hlf hlexeme htakes⟩)

end

/-! ## The way of the lexer -/

/-- A token stands in a source after `front`. -/
inductive StandsAt (source front : Bytes) (t : Token) : Prop where
  /-- A line starts there, with an indentation. -/
  | line {indent rest : Bytes} (ht : t.symbol = .newline indent) (hsource : source = front ++ rest)
      (hindent : entryIndent? rest = some indent) (hfront : ∀ b ∈ front.getLast?, b = lf)
  | part {part back : Bytes} (hsource : source = front ++ (part ++ back))
      (htakes : Takes (some t.symbol) part back)

/-- The lexer, started on `source`, has read `front` and made the tokens, and stands at the
place. -/
inductive LexedTo (source : Bytes) : Bytes → List Token → Place → Prop where
  | start : LexedTo source [] [] ⟨true, none, 1, source⟩
  | turn {front read : Bytes} {tokens : List Token} {token? : Option Token} {p q : Place}
      (h : LexedTo source front tokens p) (hturn : Turn p read token? q) :
      LexedTo source (front ++ read) (tokens ++ token?.toList) q

namespace LexedTo

variable {source front : Bytes} {tokens : List Token} {p : Place} {fault : Fault}

/-- What has been read and what is left are the document. -/
theorem source_eq (h : LexedTo source front tokens p) : source = front ++ p.rest := by
  induction h with
  | start => rfl
  | turn _ hturn ih => rw [ih, hturn.rest_eq, List.append_assoc]

/-- The line is the one after the line breaks that have been read. -/
theorem line_eq (h : LexedTo source front tokens p) : p.line = 1 + lineBreaks front := by
  induction h with
  | start => rfl
  | turn _ hturn ih =>
    rw [hturn.line_eq, ih, lineBreaks, lineBreaks, lineBreaks, List.count_append]
    omega

/-- The tokens so far and those of what is left are those of the document. -/
theorem lex_eq (h : LexedTo source front tokens p) : Neon.lex source = p.lex.map (tokens ++ ·) := by
  induction h with
  | start => exact (map_nil_append _).symm
  | @turn _ _ tokens token? p q _ hturn ih =>
    rw [ih, hturn.lex_eq]
    cases q.lex with
    | error fault => rfl
    | ok rest => simp [Except.map]

/-- At the start of a line nothing has been read, or a line break last. -/
theorem eq_lf_of_atLineStart (h : LexedTo source front tokens p) (hp : p.atLineStart = true) :
    ∀ b ∈ front.getLast?, b = lf := by
  cases h with
  | start => simp
  | turn _ hturn =>
    cases hturn with
    | vacantLine _ => cases hp
    | entryLine _ _ => cases hp
    | lineBreak => simp
    | part _ _ _ => cases hp

/-- A token on the way was made at a place on the way. -/
theorem exists_place {earlier later : List Token} {t : Token} (h : LexedTo source front tokens p)
    (htokens : tokens = earlier ++ t :: later) :
    ∃ front p read q, LexedTo source front earlier p ∧ Turn p read (some t) q := by
  induction h generalizing later with
  | start => simp at htokens
  | @turn front read tokens token? p q h hturn ih =>
    cases token? with
    | none => exact ih (by simpa using htokens)
    | some u =>
      rcases List.eq_nil_or_concat later with rfl | ⟨more, last, rfl⟩
      · -- the token is that of the last turn
        obtain ⟨rfl, hlast⟩ := List.append_inj' htokens rfl
        obtain rfl : u = t := by simpa using hlast
        exact ⟨front, p, read, q, h, hturn⟩
      · rw [List.concat_eq_append, ← List.cons_append, ← List.append_assoc] at htokens
        exact ih (List.append_inj' htokens rfl).1

/-- The token of a turn stands where the lexer stood before it. -/
theorem standsAt {read : Bytes} {t : Token} {q : Place} (h : LexedTo source front tokens p)
    (hturn : Turn p read (some t) q) : StandsAt source front t := by
  have hsource := h.source_eq
  rcases hturn.token_cases.2 with ⟨indent, ht, hstart, hindent⟩ | htakes
  · exact .line ht hsource hindent (h.eq_lf_of_atLineStart hstart)
  · rw [hturn.rest_eq] at hsource
    exact .part hsource htakes

/-- From every place the lexer gets to the end, or to a place where it fails. -/
theorem exists_end (h : LexedTo source front tokens p) :
    ∃ front tokens p, LexedTo source front tokens p ∧
      (p.lex = .ok [] ∨ ∃ fault, p.Fails fault) := by
  -- each turn leaves less, or leaves the start of a line behind
  induction hmeasure : 2 * p.rest.length + p.atLineStart.toNat using Nat.strong_induction_on
    generalizing front tokens p with
  | _ measure ih =>
  subst hmeasure
  rcases exists_turn p with ⟨hinside, hrest⟩ | hfails | ⟨read, token?, q, hturn⟩
  · refine ⟨front, tokens, p, h, Or.inl ?_⟩
    rw [Place.lex, hinside, hrest]
    rfl
  · exact ⟨front, tokens, p, h, Or.inr hfails⟩
  · exact ih _ hturn.measure_lt (h.turn hturn) rfl

end LexedTo

/-- Each token is made at a place, after the tokens before it. -/
theorem exists_place_of_token {source : Bytes} {earlier later : List Token} {t : Token}
    (hlex : lex source = .ok (earlier ++ t :: later)) :
    ∃ front p read q, LexedTo source front earlier p ∧ Turn p read (some t) q := by
  obtain ⟨front, tokens, p, hp, hstops⟩ := LexedTo.exists_end (.start : LexedTo source _ _ _)
  have htokens := hp.lex_eq
  rcases hstops with hend | ⟨fault, hfails⟩
  · rw [hlex, hend] at htokens
    exact hp.exists_place (by simpa [Except.map] using (Except.ok.inj htokens).symm)
  · rw [hlex, hfails.lex_eq] at htokens
    cases htokens

/-- An error of the lexer is that of a place where it fails. -/
theorem exists_fails_of_lex {source : Bytes} {fault : Fault} (hlex : lex source = .error fault) :
    ∃ front tokens p, LexedTo source front tokens p ∧ p.Fails fault := by
  obtain ⟨front, tokens, p, hp, hstops⟩ := LexedTo.exists_end (.start : LexedTo source _ _ _)
  have htokens := hp.lex_eq
  rcases hstops with hend | ⟨fault', hfails⟩
  · rw [hlex, hend] at htokens
    cases htokens
  · rw [hlex, hfails.lex_eq] at htokens
    cases htokens
    exact ⟨front, tokens, p, hp, hfails⟩

end SourceTidy.Neon
