import SourceTidy.Proofs.NeonPlaces
import SourceTidy.Proofs.PhpCharacters
import SourceTidy.Proofs.TemplateFirstProblem

/-! # Scanners and characters

The scanners of PHP files, of templates and of NEON documents look at octets, and cut out tokens,
tags and scalars. From a source in UTF-8 each of them cuts whole characters only, and goes on
between two characters.

* `Template.TagParts`, `Template.exists_tagParts`: how the text of a tag is cut apart;
* `Template.BraceSlices`, `Template.braceSlices`: what is cut out at a brace of a template;
* `Neon.PlaceSlices`, `Neon.LexedTo.placeSlices`: what is cut out where the NEON lexer stands;
* `scanners_cut_between_characters`: the three together.
-/

namespace SourceTidy

open Ascii Bytes Utf8

/-! ## Templates -/

namespace Template

section

variable {s source front rest : Bytes} {n : Nat} {tag : Tag}

/-- A tag can be cut off before its closing brace and after it. -/
theorem TagEnds.edges (h : TagEnds s n) : EdgeAt s n ∧ EdgeAt s (n + 1) :=
  edges_of_word ((tagEnd?_stripLines 0 unquoted s).there n h.ends) rfl

/-- A comment or a region without tags ends after a brace, or with the source. -/
theorem edgeAt_of_mark_skipped (h : mark s = .skipped n) : EdgeAt s n := by
  cases marks_of_mark_eq h with
  | @comment n hstar hend =>
    obtain ⟨rest, rfl⟩ := exists_of_nextIs hstar
    have hstart : EdgeAt (star :: rest) 1 := edgeAt_cons (by decide) rest
    have hclosed := edges_of_word ((indexOf?_stripLines isWord_endComment _).there n hend) rfl
    have hwhole : EdgeAt (star :: rest) (1 + (n + 2)) := hstart.add hclosed.2
    rwa [Nat.add_comm] at hwhole
  | @off n m htag _ hon =>
    have hclosed := edges_of_word ((indexOf?_stripLines isWord_endSyntax _).there m hon) rfl
    exact htag.edges.2.add hclosed.2
  | offToEnd => exact .stop (Nat.le_refl _)

theorem edgeAt_of_mark_tag (h : mark s = .tag tag n) : EdgeAt s n := by
  cases marks_of_mark_eq h with
  | tag htag _ => exact htag.edges.2

theorem ascii_of_isNameChar {c : Char} (h : isNameChar c = true) : c.toNat < 0x80 := by
  simp only [isNameChar, Bool.or_eq_true, beq_iff_eq] at h
  rcases h with h | rfl
  · have hrange := toNat_of_isAlphanum h
    omega
  · decide

/-- The name of a tag is ASCII. -/
theorem ascii_of_mem_name {chars : List Char} {c : Char} (h : c ∈ chars.take (nameLength chars)) :
    c.toNat < 0x80 := by
  cases chars with
  | nil => cases h
  | cons first rest =>
    rw [nameLength_cons] at h
    split_ifs at h with halpha hunderscore
    · rw [take_length_takeWhile] at h
      exact ascii_of_isNameChar (List.mem_takeWhile_imp h)
    · subst hunderscore
      rw [List.take_succ_cons, List.take_zero, List.mem_singleton] at h
      subst h
      decide
    · cases h

theorem nameLength_le (chars : List Char) : nameLength chars ≤ chars.length := by
  cases chars with
  | nil => exact Nat.le_refl 0
  | cons first rest =>
    rw [nameLength_cons]
    split_ifs
    · exact (List.takeWhile_sublist _).length_le
    · exact Nat.succ_pos _
    · exact Nat.zero_le _

/-- How the text of a tag is cut apart: the slash of a closing tag, the name and what follows it. -/
structure TagParts (text sign name rest : Bytes) : Prop where
  sliced : Sliced text sign name rest
  sign_eq : sign = if (Tag.parse text).closing then [slash] else []
  length_eq : name.length = nameLength (decode (name ++ rest))
  name_eq :
    (Tag.parse text).name = if continuesExpression (decode rest) then "" else Utf8.toString name

/-- What follows the slash of a closing tag, or else the whole tag. -/
theorem exists_tagBody {text : Bytes} (h : valid text = true) :
    ∃ sign body, Sliced text sign body [] ∧
      sign = (if (Tag.parse text).closing then [slash] else []) ∧
      decode body =
        if (decode text).head? == some '/' then (decode text).drop 1 else decode text := by
  cases hslash : (decode text).head? == some '/' with
  | false =>
    have hclosing : (Tag.parse text).closing = false := hslash
    refine ⟨[], text, ⟨(List.append_nil text).symm, valid_nil, h, valid_nil⟩, ?_, rfl⟩
    rw [hclosing]
    rfl
  | true =>
    have hclosing : (Tag.parse text).closing = true := hslash
    rw [beq_iff_eq] at hslash
    obtain ⟨chars, hchars⟩ := List.head?_eq_some_iff.mp hslash
    obtain ⟨b, body, rfl, hb, hcode, hbody⟩ := exists_octet_of_decode h hchars (by decide)
    obtain rfl : b = slash := UInt8.toNat_inj.mp hcode.symm
    rw [valid_cons_ascii hb] at h
    refine ⟨[slash], body, ⟨by simp, rfl, h, valid_nil⟩, by rw [hclosing]; rfl, ?_⟩
    rw [hchars, hbody]
    rfl

/-- The text of a tag is cut apart between characters. -/
theorem exists_tagParts {text : Bytes} (h : valid text = true) :
    ∃ sign name rest, TagParts text sign name rest := by
  obtain ⟨sign, body, hbody, hsign, hchars⟩ := exists_tagBody h
  obtain ⟨name, rest, hparts, hlength, hname, hrest⟩ := exists_sliced_of_decode hbody.part
    (List.take_append_drop (nameLength (decode body)) _).symm fun _ => ascii_of_mem_name
  rw [List.length_take_of_le (nameLength_le _)] at hlength
  have heq : body = name ++ rest := hparts.source_eq
  have hsliced := hbody.trans hparts
  simp only [List.append_nil] at hsliced
  refine ⟨sign, name, rest, hsliced, hsign, by rw [hlength, heq], ?_⟩
  simp only [Tag.parse, Tag.ofChars, ← hchars, Utf8.toString, hname, hrest]

/-- What is cut out at a brace, with `front` before it and `rest` after it. -/
structure BraceSlices (source front rest : Bytes) : Prop where
  brace : Sliced source front [openBrace] rest
  /-- The text in which the end of a comment is looked for. -/
  comment : nextIs star rest = true → Sliced source (front ++ [openBrace, star]) (rest.drop 1) []
  tag : ∀ n, TagEnds rest n → Sliced source (front ++ [openBrace]) (rest.take n) (rest.drop n)
  name : ∀ n, TagEnds rest n → ∃ sign name more, TagParts (rest.take n) sign name more ∧
    Sliced source (front ++ [openBrace] ++ sign) name (more ++ rest.drop n)
  /-- The text in which tags are looked for to be switched on again. -/
  afterTag : ∀ n, TagEnds rest n →
    Sliced source (front ++ openBrace :: rest.take (n + 1)) (rest.drop (n + 1)) []
  resumes :
    ∀ line part after tags, openBrace :: rest = part ++ after → ScanStep line part after tags →
    Sliced source (front ++ part) after []

/-- All that is cut out at a brace is whole characters. -/
theorem braceSlices (hsource : valid source = true) (heq : source = front ++ openBrace :: rest) :
    BraceSlices source front rest := by
  subst heq
  have hbrace : openBrace < 0x80 := by decide
  obtain ⟨hfront, hrest⟩ := valid_of_append_cons hbrace hsource
  -- what is left after any edge of the text behind the brace
  have hcut : ∀ n, EdgeAt rest n →
      Sliced (front ++ openBrace :: rest) (front ++ openBrace :: rest.take n) (rest.drop n) [] := by
    intro n hn
    obtain ⟨htake, hdrop⟩ := hn.valid hrest
    refine ⟨by simp, valid_append hfront ?_, hdrop, valid_nil⟩
    rwa [valid_cons_ascii hbrace]
  have htag : ∀ n, TagEnds rest n →
      Sliced (front ++ openBrace :: rest) (front ++ [openBrace]) (rest.take n) (rest.drop n) := by
    intro n hends
    obtain ⟨htake, hdrop⟩ := hends.edges.1.valid hrest
    exact ⟨by simp, valid_append_ascii hfront (by simpa using hbrace), htake, hdrop⟩
  refine ⟨⟨rfl, hfront, rfl, hrest⟩, ?_, htag, ?_, ?_, ?_⟩
  · intro hstar
    obtain ⟨more, rfl⟩ := exists_of_nextIs hstar
    exact hcut 1 (edgeAt_cons (by decide) more)
  · intro n hends
    obtain ⟨sign, name, more, hparts⟩ := exists_tagParts (htag n hends).part
    exact ⟨sign, name, more, hparts, (htag n hends).trans hparts.sliced⟩
  · intro n hends
    exact hcut (n + 1) hends.edges.2
  · intro line part after tags hparts hstep
    cases hstep with
    | octet hb => exact absurd (List.cons.inj hparts).1.symm hb
    | text _ =>
      obtain rfl : rest = after := (List.cons.inj hparts).2
      exact hcut 0 (.start rfl)
    | @skipped inner _ hmark =>
      obtain rfl : rest = inner ++ after := (List.cons.inj hparts).2
      simpa using hcut inner.length (edgeAt_of_mark_skipped hmark)
    | @tag inner _ _ hmark =>
      obtain rfl : rest = inner ++ after := (List.cons.inj hparts).2
      simpa using hcut inner.length (edgeAt_of_mark_tag hmark)

/-- Every tag is made of a text that is cut out between characters. -/
theorem exists_sliced_of_mem_scan {t : Placed} (hsource : valid source = true)
    (ht : t ∈ (scan source).1) :
    ∃ front text back, Sliced source front text back ∧ t.tag = Tag.parse text := by
  obtain ⟨earlier, later, htags⟩ := List.append_of_mem ht
  obtain ⟨front, inner, rest, heq, -, hmark, -⟩ := exists_stands htags
  generalize hextent : inner.length = extent at hmark
  generalize htag : t.tag = tag at hmark
  cases marks_of_mark_eq hmark with
  | tag hends _ => exact ⟨_, _, _, (braceSlices hsource heq).tag _ hends, rfl⟩

end

end Template

/-! ## NEON documents -/

namespace Neon

section

variable {b quote : UInt8} {s source front part back read sequence : Bytes}
  {symbol? : Option Symbol}
  {token? : Option Token} {tokens : List Token} {p q : Place} {line : Nat}

/-- Punctuation is ASCII. -/
theorem ascii_of_punctuation? {symbol : Symbol} (h : punctuation? b s = some symbol) :
    b < 0x80 := by
  by_contra hb
  have hne : ∀ c : UInt8, c < 0x80 → b ≠ c := by
    rintro _ hc rfl
    exact hb hc
  have hnone : punctuation? b s = none := by
    simp [punctuation?, hne comma (by decide), hne equals (by decide), hne openBracket (by decide),
      hne openBrace (by decide), hne openParen (by decide), hne closeBracket (by decide),
      hne closeBrace (by decide), hne closeParen (by decide), hne dash (by decide),
        hne colon (by decide)]
  rw [hnone] at h
  cases h

theorem ascii_of_isInnerBlank (h : isInnerBlank b = true) : b < 0x80 := by
  simp only [isInnerBlank, Bool.or_eq_true, beq_iff_eq] at h
  rcases h with h | rfl
  · exact ascii_of_isSpacing (isSpacing_of_isBlank h)
  · decide

theorem ascii_of_endsLiteral (h : endsLiteral b = true) : b < 0x80 := by
  simp only [endsLiteral, stopsLiteral, Bool.or_eq_true, beq_iff_eq] at h
  rcases h with (((((((((rfl | rfl) | rfl) | rfl) | rfl) | rfl) | rfl) | rfl) | rfl) | rfl) | h
  case inr => exact ascii_of_isInnerBlank h
  all_goals decide

theorem ascii_of_quote (h : quote = singleQuote ∨ quote = doubleQuote) : quote < 0x80 := by
  rcases h with rfl | rfl <;> decide

/-- A literal ends with the document or before an ASCII octet. -/
theorem edgeAt_literal (h : back = [] ∨ nextIn endsLiteral back = true) :
    EdgeAt (part ++ back) part.length := by
  rcases h with rfl | hnext
  · exact .stop (by simp)
  · obtain ⟨b, rest, rfl, hb⟩ := Php.exists_of_nextIn hnext
    exact .before (by rw [List.drop_left, List.head?_cons]) (ascii_of_endsLiteral hb)

theorem edgeAt_append_octet (hb : b < 0x80) (s t : Bytes) :
    EdgeAt (s ++ [b] ++ t) (s ++ [b]).length :=
  .after (by rw [List.take_left, List.getLast?_concat]) hb

/-- The parts of a line end between characters. -/
theorem Takes.edgeAt (h : Takes symbol? part back) : EdgeAt (part ++ back) part.length := by
  cases h with
  | punctuation h => exact edgeAt_cons (ascii_of_punctuation? h) back
  | blank h => exact edgeAt_cons (ascii_of_isInnerBlank h) back
  | comment _ hback =>
    rcases hback with rfl | hnext
    · exact .stop (by simp)
    · obtain ⟨rest, rfl⟩ := exists_of_nextIs hnext
      exact .before (by rw [List.drop_left, List.head?_cons]) (by decide : lf < 0x80)
  | quoted hquote _ => exact edgeAt_append_octet (ascii_of_quote hquote) _ _
  | @block quote text _ hquote =>
    have hedge := edgeAt_append_octet (ascii_of_quote hquote)
      ([quote, quote, quote] ++ text ++ [quote, quote]) back
    simpa using hedge
  | literal _ hback => exact edgeAt_literal hback

/-- What the lexer reads in one turn ends between characters. -/
theorem Turn.edgeAt (h : Turn p read token? q) : EdgeAt (read ++ q.rest) read.length := by
  cases h with
  | vacantLine _ => exact .start rfl
  | entryLine _ _ => exact .start rfl
  | lineBreak => exact edgeAt_cons (by decide) _
  | part _ _ htakes => exact htakes.edgeAt

/-- The lexer stands between characters. -/
theorem LexedTo.valid (hsource : Utf8.valid source = true) (h : LexedTo source front tokens p) :
    Utf8.valid front = true ∧ Utf8.valid p.rest = true := by
  induction h with
  | start => exact ⟨valid_nil, hsource⟩
  | turn _ hturn ih =>
    obtain ⟨hfront, hrest⟩ := ih
    rw [hturn.rest_eq] at hrest
    obtain ⟨hread, hback⟩ := hturn.edgeAt.valid_parts hrest
    exact ⟨valid_append hfront hread, hback⟩

/-- The text that a symbol is cut out with: that of a scalar, or an indentation. -/
def Symbol.text? : Symbol → Option Bytes
  | .scalar text | .newline text => some text
  | _ => none

/-- Punctuation is cut out with no text. -/
theorem text?_of_punctuation? {symbol : Symbol} (h : punctuation? b s = some symbol) :
    symbol.text? = none := by
  have hnone : (punctuation? b s).bind Symbol.text? = none := by
    simp only [punctuation?, apply_ite (Option.bind · Symbol.text?), Option.bind_some,
      Option.bind_none, Symbol.text?, ite_self]
  rwa [h] at hnone

/-- The text of a scalar is cut out of its quotes, if it has any. -/
theorem Takes.sliced_scalar {text : Bytes} (h : Takes (some (.scalar text)) part back)
    (hvalid : Utf8.valid (part ++ back) = true) :
    ∃ quotes, part = quotes ++ (text ++ quotes) ∧
      Sliced (part ++ back) quotes text (quotes ++ back) := by
  -- the quotes are ASCII and stand on both sides; a literal has none of them
  have hinside : ∀ quotes : Bytes, quotes.all (· < 0x80) = true →
      EdgeAt (text ++ (quotes ++ back)) text.length →
      part = quotes ++ (text ++ quotes) →
      ∃ quotes, part = quotes ++ (text ++ quotes) ∧
        Sliced (part ++ back) quotes text (quotes ++ back) := by
    rintro quotes hquotes hedge rfl
    refine ⟨quotes, rfl, sliced_of_edges hvalid (by simp only [List.append_assoc]) ?_ hedge⟩
    rw [List.append_assoc]
    exact edgeAt_of_front (List.prefix_append _ _) hquotes
  have hnext : ∀ {quote : UInt8} (more : Bytes), quote < 0x80 →
      EdgeAt (text ++ quote :: more) text.length :=
    fun more hquote => .before (by rw [List.drop_left, List.head?_cons]) hquote
  cases h with
  | punctuation h => cases text?_of_punctuation? h
  | @quoted quote _ _ hquote _ =>
    have hascii := ascii_of_quote hquote
    exact hinside [quote] (by simpa using hascii) (hnext back hascii) (List.append_assoc _ _ _)
  | @block quote _ _ hquote =>
    have hascii := ascii_of_quote hquote
    exact hinside [quote, quote, quote] (by simpa using hascii) (hnext _ hascii)
      (List.append_assoc _ _ _)
  | literal _ hback => exact hinside [] rfl (edgeAt_literal hback) (List.append_nil part).symm

/-- The escape sequence that is wrong is in the string. -/
theorem exists_of_invalidEscape (h : quotedBody quote s = .error (.invalidEscape sequence)) :
    ∃ before after, s = before ++ (sequence ++ after) ∧ sequence.head? = some backslash ∧
      sequence.all (· < 0x80) = true := by
  fun_induction quotedBody quote s with
  | case1 => cases h
  | case2 => cases h
  | case3 b _ hescape =>
    simp only [Bool.and_eq_true, decide_eq_true_eq] at hescape
    obtain ⟨rfl, -⟩ := hescape
    cases h
    exact ⟨[], [], rfl, rfl, rfl⟩
  -- an escape sequence that is fine; the wrong one comes later
  | case4 b _ _ c rest _ ih =>
    obtain ⟨before, after, rfl, hsequence⟩ := ih (map_eq_error h)
    exact ⟨b :: c :: before, after, rfl, hsequence⟩
  | case5 b _ hescape c rest _ =>
    simp only [Bool.and_eq_true, decide_eq_true_eq] at hescape
    obtain ⟨rfl, -⟩ := hescape
    cases h
    have hbackslash : backslash < 0x80 := by decide
    split
    · next hc => exact ⟨[], rest, rfl, rfl, by simp [hc, hbackslash]⟩
    · exact ⟨[], c :: rest, rfl, rfl, rfl⟩
  | case6 c rest _ _ _ ih =>
    obtain ⟨before, after, rfl, hsequence⟩ := ih (map_eq_error h)
    exact ⟨quote :: c :: before, after, rfl, hsequence⟩
  | case7 => cases h
  | case8 => cases h
  | case9 b rest _ _ _ ih =>
    obtain ⟨before, after, rfl, hsequence⟩ := ih (map_eq_error h)
    exact ⟨b :: before, after, rfl, hsequence⟩

/-- The escape sequence that is told of is cut out between characters. -/
theorem sliced_of_fails (hrest : Utf8.valid p.rest = true)
    (h : p.Fails ⟨.invalidEscape sequence, line⟩) :
    ∃ before after, Sliced p.rest before sequence after := by
  generalize hfault : Fault.mk (.invalidEscape sequence) line = fault at h
  cases h with
  | indentation _ _ => cases hfault
  | @string _ _ quote rest problem hquote h =>
    cases hfault
    have hbody : quotedBody quote rest = .error (.invalidEscape sequence) := by
      unfold quotedString at h
      split at h
      · split at h <;> cases h
      · exact map_eq_error h
    obtain ⟨before, after, rfl, hhead, hascii⟩ := exists_of_invalidEscape hbody
    refine ⟨quote :: before, after,
      sliced_of_edges hrest rfl ?_ (edgeAt_of_front (List.prefix_append _ _) hascii)⟩
    refine .before (b := backslash) ?_ (by decide)
    obtain ⟨more, rfl⟩ := List.head?_eq_some_iff.mp hhead
    rw [List.length_cons, List.drop_succ_cons, List.drop_left]
    rfl

/-- What is cut out where the lexer stands, with `front` before the place. -/
structure PlaceSlices (source front : Bytes) (p : Place) : Prop where
  rest : Sliced source front p.rest []
  read : ∀ read token? q, Turn p read token? q → Sliced source front read q.rest
  indent : ∀ indent, p.atLineStart = true → entryIndent? p.rest = some indent →
    Sliced source front indent (p.rest.drop indent.length)
  scalar : ∀ read text line q, Turn p read (some ⟨.scalar text, line⟩) q →
    ∃ quotes, read = quotes ++ (text ++ quotes) ∧
      Sliced source (front ++ quotes) text (quotes ++ q.rest)
  /-- The escape sequence that an error names. -/
  escape : ∀ sequence line, p.Fails ⟨.invalidEscape sequence, line⟩ →
    ∃ before after, Sliced source before sequence after

/-- All that is cut out where the NEON lexer stands is whole characters. -/
theorem LexedTo.placeSlices (hsource : Utf8.valid source = true)
    (h : LexedTo source front tokens p) :
    PlaceSlices source front p := by
  obtain ⟨hfront, hvalid⟩ := h.valid hsource
  have heq := h.source_eq
  have hrest : Sliced source front p.rest [] :=
    ⟨by rw [heq, List.append_nil], hfront, hvalid, valid_nil⟩
  refine ⟨hrest, ?_, ?_, ?_, ?_⟩
  · intro read token? q hturn
    rw [hturn.rest_eq] at heq hvalid
    obtain ⟨hread, hback⟩ := hturn.edgeAt.valid_parts hvalid
    exact ⟨heq, hfront, hread, hback⟩
  · intro indent _ hindent
    -- the indentation is a run of blanks, which are ASCII
    have htake : indent = p.rest.takeWhile isBlank := by
      rw [entryIndent?_eq] at hindent
      split at hindent
      · cases hindent
      · exact (Option.some.inj hindent).symm
    have hedge := edgeAt_runLength (p := isBlank)
      (fun _ hb => ascii_of_isSpacing (isSpacing_of_isBlank hb)) p.rest
    obtain ⟨hpart, hback⟩ := hedge.valid hvalid
    rw [runLength, take_length_takeWhile, ← htake] at hpart
    rw [runLength, ← htake] at hback
    refine ⟨?_, hfront, hpart, hback⟩
    rw [heq, htake, drop_length_takeWhile, List.takeWhile_append_dropWhile]
  · intro read text line q hturn
    have hread := hturn.rest_eq
    rcases hturn.token_cases.2 with ⟨indent, ht, -, -⟩ | htakes
    · cases ht
    · rw [hread] at hrest hvalid
      obtain ⟨quotes, hparts, hsliced⟩ := htakes.sliced_scalar hvalid
      exact ⟨quotes, hparts, by simpa using hrest.trans hsliced⟩
  · intro sequence line hfails
    obtain ⟨before, after, hsequence⟩ := sliced_of_fails hvalid hfails
    exact ⟨_, _, hrest.trans hsequence⟩

/-- The texts of scalars and the indentations of lines are cut out between characters. -/
theorem exists_sliced_of_mem_lex {t : Token} {text : Bytes} (hsource : Utf8.valid source = true)
    (hlex : lex source = .ok tokens) (ht : t ∈ tokens) (htext : t.symbol.text? = some text) :
    ∃ front back, Sliced source front text back := by
  obtain ⟨earlier, later, rfl⟩ := List.append_of_mem ht
  obtain ⟨front, p, read, q, hp, hturn⟩ := exists_place_of_token hlex
  have hslices := hp.placeSlices hsource
  obtain ⟨symbol, line⟩ := t
  rcases hturn.token_cases.2 with ⟨indent, rfl, hstart, hindent⟩ | htakes
  · cases htext
    exact ⟨_, _, hslices.indent text hstart hindent⟩
  · cases htakes with
    | punctuation h =>
      rw [text?_of_punctuation? h] at htext
      cases htext
    | _ =>
      cases htext
      obtain ⟨quotes, -, hsliced⟩ := hslices.scalar _ text line q hturn
      exact ⟨_, _, hsliced⟩

end

end Neon

/-! ## All three -/

/-- In a source in UTF-8 the scanners cut between characters: each PHP token, and the text in which
the end of a comment is looked for; each tag of a template with its name, and every place where a
scan of it goes on after a brace; each part that the NEON lexer takes, with the texts of scalars and
the indentations. -/
theorem scanners_cut_between_characters {source : Bytes} (hsource : valid source = true) :
    ((∀ before t after, Php.tokenize source = before ++ t :: after →
        Sliced source (before.flatMap (·.text)) t.text (after.flatMap (·.text))) ∧
      ∀ p, Php.Reached source p → ∃ front, Sliced source front p.rest [] ∧
        ∀ rest, p.rest = slash :: star :: rest → Sliced source (front ++ [slash, star]) rest []) ∧
    ((∀ front rest, source = front ++ openBrace :: rest → Template.BraceSlices source front rest) ∧
      ∀ t ∈ (Template.scan source).1, ∃ front text back,
        Sliced source front text back ∧ t.tag = Template.Tag.parse text) ∧
    (∀ front tokens p, Neon.LexedTo source front tokens p → Neon.PlaceSlices source front p) ∧
      ∀ tokens t text, Neon.lex source = .ok tokens → t ∈ tokens → t.symbol.text? = some text →
        ∃ front back, Sliced source front text back := by
  refine ⟨⟨fun _ _ _ h => Php.sliced_token hsource h, ?_⟩, ⟨?_, ?_⟩, ?_, ?_⟩
  · intro p hp
    obtain ⟨front, hrest⟩ := hp.sliced hsource
    refine ⟨front, hrest, ?_⟩
    intro rest heq
    rw [heq] at hrest
    -- a comment is looked at without its opener, which is ASCII
    have hvalid := hrest.part
    rw [valid_cons_ascii (by decide), valid_cons_ascii (by decide)] at hvalid
    have hinside : Sliced (slash :: star :: rest) [slash, star] rest [] :=
      ⟨by simp, rfl, hvalid, valid_nil⟩
    exact hrest.trans hinside
  · intro front rest heq
    exact Template.braceSlices hsource heq
  · intro t ht
    exact Template.exists_sliced_of_mem_scan hsource ht
  · intro front tokens p hp
    exact hp.placeSlices hsource
  · intro tokens t text hlex ht htext
    exact Neon.exists_sliced_of_mem_lex hsource hlex ht htext

/-- Characters of two octets in quotes, after backslashes and in a tag. -/
def accentedSource : Bytes :=
  ascii "'" ++ [0xC3, 0xA9] ++ ascii "' <?php '\\" ++ [0xC3, 0xA9] ++
    ascii "' \x7bif \"\\" ++ [0xC3, 0xA9] ++ ascii "\"\x7d"

theorem scanners_cut_between_characters_accentedSource :
    valid accentedSource = true ∧
    (∃ before t after, Php.tokenize accentedSource = before ++ t :: after ∧
      t.text = ascii "'\\" ++ [0xC3, 0xA9] ++ ascii "'" ∧
      Sliced accentedSource (before.flatMap (·.text)) t.text (after.flatMap (·.text))) ∧
    (∃ t ∈ (Template.scan accentedSource).1, t.tag.name = "if" ∧ ∃ front text back,
      Sliced accentedSource front text back ∧ t.tag = Template.Tag.parse text) ∧
    ∃ tokens, Neon.lex accentedSource = .ok tokens ∧ ⟨.scalar [0xC3, 0xA9], 1⟩ ∈ tokens ∧
      ∃ front back, Sliced accentedSource front [0xC3, 0xA9] back := by
  have hsource : valid accentedSource = true := by decide +kernel
  obtain ⟨⟨hphp, -⟩, ⟨-, htemplate⟩, -, hneon⟩ := scanners_cut_between_characters hsource
  refine ⟨hsource, ?_, ?_, ?_⟩
  · have htokens : Php.tokenize accentedSource = (Php.tokenize accentedSource).take 2 ++
        ⟨⟨.singleQuoted, ascii "'\\" ++ [0xC3, 0xA9] ++ ascii "'"⟩, 1⟩ ::
          (Php.tokenize accentedSource).drop 3 := by
      decide +kernel
    exact ⟨_, _, _, htokens, rfl, hphp _ _ _ htokens⟩
  · have htags : (Template.scan accentedSource).1 =
        [⟨Template.Tag.parse (ascii "if \"\\" ++ [0xC3, 0xA9] ++ ascii "\""), 1⟩] := by
      decide +kernel
    have hmem : _ ∈ (Template.scan accentedSource).1 := htags ▸ List.mem_singleton_self _
    exact ⟨_, hmem, by decide +kernel, htemplate _ hmem⟩
  · have hlex : Neon.lex accentedSource = .ok [⟨.newline [], 1⟩, ⟨.scalar [0xC3, 0xA9], 1⟩,
        ⟨.scalar (ascii "<?php '\\" ++ [0xC3, 0xA9] ++ ascii "'"), 1⟩, ⟨.opening .curly, 1⟩,
        ⟨.scalar (ascii "if \"\\" ++ [0xC3, 0xA9] ++ ascii "\""), 1⟩, ⟨.closing .curly, 1⟩] := by
      decide +kernel
    exact ⟨_, hlex, by simp, hneon _ ⟨.scalar [0xC3, 0xA9], 1⟩ _ hlex (by simp) rfl⟩

end SourceTidy
