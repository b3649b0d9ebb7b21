import SourceTidy.Neon.Document
import SourceTidy.Proofs.NeonBlanks

/-! # Texts in single quotes

In single quotes a quote is written twice. Three quotes open a string of several lines instead, so a
text that starts with a quote cannot be written this way; every other text on one line can.

* `quotedBody_doubled`: the closing quote is the first one that is not doubled;
* `lexFrom_inQuotes`: the lexer goes on after it, unless the text starts with a quote;
* `endsBlock_or_nextIs`: where a string between three quotes ends, if it was to be one between
  single quotes;
* `doubled_quotes_read_iff`: which texts are read as one scalar, and which ones can be the value of
  a key;
* `leading_quote_opens_block`: one that is not read, and cannot.
-/

namespace SourceTidy.Neon

open Ascii Bytes

/-- A text with each single quote written twice. -/
def doubled (w : Bytes) : Bytes := w.flatMap fun b => if b = singleQuote then [b, b] else [b]

/-- A text in single quotes. -/
def inQuotes (w : Bytes) : Bytes := singleQuote :: (doubled w ++ [singleQuote])

def threeQuotes : Bytes := [singleQuote, singleQuote, singleQuote]

/-- Does the text end with a quote, and no two quotes in it stand side by side? In quotes after a
quote of its own, such a text is a string between three quotes. -/
def EndsBlock (v : Bytes) : Prop :=
  v.getLast? = some singleQuote ∧ ¬ [singleQuote, singleQuote] <:+: v

section

variable {b : UInt8} {w r s v text : Bytes} {n : Nat}

/-! ## Doubled quotes -/

theorem doubled_quote (w : Bytes) :
    doubled (singleQuote :: w) = singleQuote :: singleQuote :: doubled w := rfl

theorem doubled_octet (hb : b ≠ singleQuote) (w : Bytes) : doubled (b :: w) = b :: doubled w := by
  rw [doubled, List.flatMap_cons, if_neg hb]
  rfl

/-- A text that does not start with a quote does not do so when quotes are doubled. -/
theorem nextIs_doubled (hb : b ≠ singleQuote) (w s : Bytes) :
    nextIs singleQuote (doubled (b :: w) ++ s) = false := by
  rw [doubled_octet hb]
  simpa [nextIs] using hb

/-- A text on one line stays on it. -/
theorem lf_not_mem_doubled (hw : lf ∉ w) : lf ∉ doubled w := by
  intro hmem
  obtain ⟨b, hb, hmem⟩ := List.mem_flatMap.mp hmem
  obtain rfl : lf = b := by split_ifs at hmem <;> simpa using hmem
  exact hw hb

theorem inQuotes_append (w r : Bytes) :
    inQuotes w ++ r = singleQuote :: (doubled w ++ singleQuote :: r) := by
  simp [inQuotes]

theorem quotedBody_pair (s : Bytes) :
    quotedBody singleQuote (singleQuote :: singleQuote :: s) =
      (quotedBody singleQuote s).map (· + 2) := rfl

theorem quotedBody_octet (hlf : b ≠ lf) (hb : b ≠ singleQuote) (s : Bytes) :
    quotedBody singleQuote (b :: s) = (quotedBody singleQuote s).map (· + 1) := by
  have hescape : ¬ (b = backslash && singleQuote = doubleQuote) = true := by
    rw [Bool.and_eq_true]
    exact fun h => absurd h.2 (by decide)
  rw [quotedBody.eq_def]
  exact (if_neg hlf).trans ((if_neg hescape).trans (if_neg hb))

/-- The text ends at the first quote that is not doubled. -/
theorem quotedBody_doubled (hw : lf ∉ w) (hr : nextIs singleQuote r = false) :
    quotedBody singleQuote (doubled w ++ singleQuote :: r) = .ok (doubled w).length := by
  induction w with
  | nil => exact quotedBody_quote (by decide) (by decide) fun _ => hr
  | cons b w ih =>
    rw [List.mem_cons, not_or] at hw
    by_cases hb : b = singleQuote
    · subst hb
      rw [doubled_quote, List.cons_append, List.cons_append, quotedBody_pair, ih hw.2]
      rfl
    · rw [doubled_octet hb, List.cons_append, quotedBody_octet (Ne.symm hw.1) hb, ih hw.2]
      rfl

/-! ## Three quotes -/

theorem isPrefixOf_quote (s : Bytes) : [singleQuote].isPrefixOf s = nextIs singleQuote s := by
  cases s with
  | nil => rfl
  | cons b s => exact (Bool.and_true _).trans BEq.comm

theorem opensBlock_pair (s : Bytes) :
    threeQuotes.isPrefixOf (singleQuote :: singleQuote :: s) = nextIs singleQuote s :=
  isPrefixOf_quote s

theorem opensBlock_of_next (hs : nextIs singleQuote s = false) :
    threeQuotes.isPrefixOf (singleQuote :: s) = false := by
  cases s with
  | nil => rfl
  | cons b s =>
    have hb : (singleQuote == b) = false := BEq.comm.trans hs
    show (singleQuote == b && _) = false
    rw [hb, Bool.false_and]

/-- Only a quote at the start of the text makes three of them. -/
theorem opensBlock_inQuotes (hr : nextIs singleQuote r = false)
    (hstart : nextIs singleQuote w = false) :
    threeQuotes.isPrefixOf (singleQuote :: (doubled w ++ singleQuote :: r)) = false := by
  cases w with
  | nil => exact (opensBlock_pair r).trans hr
  | cons b w =>
    have hb : b ≠ singleQuote := by
      rintro rfl
      cases hstart
    exact opensBlock_of_next (nextIs_doubled hb w _)

theorem indexOf?_octet (hb : b ≠ singleQuote) (s : Bytes) :
    indexOf? threeQuotes (b :: s) =
      (indexOf? threeQuotes s).map (· + 1) := by
  have hnot : threeQuotes.isPrefixOf (b :: s) = false := by
    simp [threeQuotes, List.isPrefixOf, Ne.symm hb]
  rw [indexOf?, hnot]
  rfl

theorem indexOf?_pair (hs : nextIs singleQuote s = false) :
    indexOf? threeQuotes (singleQuote :: singleQuote :: s) =
      (indexOf? threeQuotes s).map (· + 2) := by
  rw [indexOf?, opensBlock_pair, hs, indexOf?, opensBlock_of_next hs]
  exact Option.map_map _ _ _

/-- The rest of a text that ends a block, if there is a rest. -/
theorem EndsBlock.tail (h : EndsBlock (b :: v)) (hv : v ≠ []) : EndsBlock v := by
  obtain ⟨hlast, hsole⟩ := h
  rw [List.getLast?_cons_of_ne_nil hv] at hlast
  exact ⟨hlast, fun hinfix => hsole (List.infix_cons hinfix)⟩

/-- A longer text ends a block as well, as long as no two quotes come together. -/
theorem EndsBlock.cons (h : EndsBlock v) (hb : b = singleQuote → nextIs singleQuote v = false) :
    EndsBlock (b :: v) := by
  obtain ⟨hlast, hsole⟩ := h
  have hv : v ≠ [] := by
    rintro rfl
    cases hlast
  refine ⟨(List.getLast?_cons_of_ne_nil hv).trans hlast, ?_⟩
  rw [List.infix_cons_iff, not_or]
  refine ⟨?_, hsole⟩
  rintro ⟨rest, hrest⟩
  obtain ⟨rfl, rfl⟩ := List.cons.inj hrest
  cases hb rfl

/-- In quotes, such a text has three of them at its end and nowhere else. -/
theorem EndsBlock.exists_indexOf? (h : EndsBlock v) (r : Bytes) :
    ∃ n, indexOf? threeQuotes (doubled v ++ singleQuote :: r) = some n ∧
      (doubled v ++ singleQuote :: r).drop (n + 3) = r := by
  induction v with
  | nil => cases h.1
  | cons b v ih =>
    by_cases hb : b = singleQuote
    · subst hb
      cases v with
      | nil => exact ⟨0, rfl, rfl⟩
      | cons c v =>
        have hc : c ≠ singleQuote := by
          rintro rfl
          exact h.2 ⟨[], v, rfl⟩
        -- no other quote follows the pair, so the three are further on
        obtain ⟨n, hn, hrest⟩ := ih (h.tail (List.cons_ne_nil c v))
        refine ⟨n + 2, ?_, hrest⟩
        rw [doubled_quote, List.cons_append, List.cons_append,
          indexOf?_pair (nextIs_doubled hc v _), hn]
        rfl
    · have hv : v ≠ [] := by
        rintro rfl
        exact hb (Option.some.inj h.1)
      obtain ⟨n, hn, hrest⟩ := ih (h.tail hv)
      rw [doubled_octet hb, List.cons_append]
      refine ⟨n + 1, ?_, hrest⟩
      rw [indexOf?_octet hb, hn]
      rfl

/-- In any other text, another quote follows the first three. -/
theorem endsBlock_or_nextIs
    (h : indexOf? threeQuotes (doubled v ++ [singleQuote, lf]) = some n) :
    EndsBlock v ∨ nextIs singleQuote ((doubled v ++ [singleQuote, lf]).drop (n + 3)) = true := by
  -- octet by octet, where a quote of the text takes two octets of what is searched
  induction v generalizing n with
  | nil => cases h
  | cons b v ih =>
    by_cases hb : b = singleQuote
    · subst hb
      rw [doubled_quote, List.cons_append, List.cons_append] at h ⊢
      cases v with
      | nil => exact .inl ⟨rfl, by decide⟩
      | cons c v =>
        by_cases hc : c = singleQuote
        · -- two pairs are three quotes and one more
          subst hc
          cases h
          exact .inr rfl
        · rw [indexOf?_pair (nextIs_doubled hc v _)] at h
          obtain ⟨m, hm, rfl⟩ := Option.map_eq_some_iff.mp h
          exact (ih hm).imp_left fun hends => hends.cons fun _ => by simpa [nextIs] using hc
    · rw [doubled_octet hb, List.cons_append] at h ⊢
      rw [indexOf?_octet hb] at h
      obtain ⟨m, hm, rfl⟩ := Option.map_eq_some_iff.mp h
      exact (ih hm).imp_left fun hends => hends.cons fun hquote => absurd hquote hb

/-! ## One scalar -/

theorem lexeme_quote (s : Bytes) :
    lexeme singleQuote s =
      (quotedString singleQuote (singleQuote :: s)).map fun (text, n) => (some (.scalar text), n) :=
  rfl

theorem quotedString_block (s : Bytes) :
    quotedString singleQuote (singleQuote :: singleQuote :: singleQuote :: s) =
      match indexOf? threeQuotes s with
      | some n => .ok (s.take n, n + 6)
      | none => .error (.missingQuotes singleQuote) :=
  rfl

/-- The string ends at the quote that was put there. -/
theorem quotedString_inQuotes (hw : lf ∉ w) (hr : nextIs singleQuote r = false)
    (hstart : nextIs singleQuote w = false) :
    quotedString singleQuote (singleQuote :: (doubled w ++ singleQuote :: r)) =
      .ok (doubled w, (doubled w).length + 2) := by
  have hopens := opensBlock_inQuotes hr hstart
  rw [threeQuotes] at hopens
  rw [quotedString, hopens]
  show (quotedBody singleQuote (doubled w ++ singleQuote :: r)).map _ = _
  rw [quotedBody_doubled hw hr]
  show Except.ok ((doubled w ++ singleQuote :: r).take (doubled w).length, _) = _
  rw [List.take_left]

/-- Over the text in it, a string between three quotes reaches by six octets and not by two. -/
theorem quotedString_block_ne (s text : Bytes) :
    quotedString singleQuote (singleQuote :: singleQuote :: singleQuote :: s) ≠
      .ok (text, text.length + 2) := by
  rw [quotedString_block]
  intro h
  split at h
  · obtain ⟨rfl, hn⟩ := Prod.mk.inj (Except.ok.inj h)
    rw [List.length_take] at hn
    omega
  · cases h

/-- The lexer reads the text in its quotes as one scalar. -/
theorem lexeme_inQuotes (hw : lf ∉ w) (hr : nextIs singleQuote r = false)
    (hstart : nextIs singleQuote w = false) :
    lexeme singleQuote (doubled w ++ singleQuote :: r) =
      .ok (some (.scalar (doubled w)), (doubled w).length + 2) := by
  rw [lexeme_quote, quotedString_inQuotes hw hr hstart]
  rfl

theorem drop_inQuotes (w r : Bytes) : (inQuotes w ++ r).drop ((doubled w).length + 2) = r := by
  simp [inQuotes]

theorem lineBreaks_inQuotes (hw : lf ∉ w) (r : Bytes) :
    lineBreaks ((inQuotes w ++ r).take ((doubled w).length + 2)) = 0 := by
  have htake : (inQuotes w ++ r).take ((doubled w).length + 2) = inQuotes w :=
    List.take_left' (by simp [inQuotes])
  rw [htake, lineBreaks, List.count_eq_zero, inQuotes, List.mem_cons, List.mem_append,
    List.mem_singleton]
  rintro (h | h | h)
  · cases h
  · exact lf_not_mem_doubled hw h
  · cases h

/-- The lexer goes on after the closing quote. -/
theorem lexFrom_inQuotes (hw : lf ∉ w) (hr : nextIs singleQuote r = false)
    (hstart : nextIs singleQuote w = false) (unit : Option UInt8) (line : Nat) :
    lexFrom unit line 0 (inQuotes w ++ r) =
      (lexFrom unit line 0 r).map (⟨.scalar (doubled w), line⟩ :: ·) := by
  have hlexeme := lexFrom_lexeme unit line (by decide) (lexeme_inQuotes hw hr hstart)
  rw [← inQuotes_append, drop_inQuotes, lineBreaks_inQuotes hw] at hlexeme
  exact hlexeme

theorem lexFrom_quote_eq_ok {unit : Option UInt8} {line : Nat} {tokens : List Token}
    (h : lexFrom unit line 0 (singleQuote :: s) = .ok tokens) :
    ∃ text n rest, quotedString singleQuote (singleQuote :: s) = .ok (text, n) ∧
      lexFrom unit (line + lineBreaks ((singleQuote :: s).take n)) 0 ((singleQuote :: s).drop n) =
        .ok rest ∧
      tokens = ⟨.scalar text, line⟩ :: rest := by
  obtain ⟨symbol?, n, rest, hlexeme, hrest, rfl⟩ := lexFrom_lexeme_eq_ok (by decide) h
  rw [lexeme_quote] at hlexeme
  obtain ⟨⟨text, m⟩, hstring, heq⟩ := map_eq_ok hlexeme
  cases heq
  exact ⟨text, n, rest, hstring, hrest, rfl⟩

/-! ## The value of a key -/

/-- What stands before a value on the first line. -/
def keyTokens : List Token := [⟨.newline [], 1⟩, ⟨.scalar (ascii "k"), 1⟩, ⟨.colon, 1⟩]

/-- The tokens of what follows a key on the first line come after those of the key. -/
theorem lex_keyed (s : Bytes) :
    lex (ascii "k: " ++ s) = (lexFrom none 1 0 s).map (keyTokens ++ ·) := by
  have hlex : lex (ascii "k: " ++ s) =
      (((((lexFrom none 1 0 s).map ([] ++ ·)).map ([⟨.colon, 1⟩] ++ ·)).map
        ([⟨.scalar (ascii "k"), 1⟩] ++ ·)).map
        ([⟨.newline [], 1⟩] ++ ·)) := rfl
  rw [hlex]
  cases lexFrom none 1 0 s <;> rfl

theorem parse_scalar (text : Bytes) : parse (keyTokens ++ [⟨.scalar text, 1⟩]) = .ok () := rfl

/-- A key has one scalar for its value, and no second one. -/
theorem parse_scalar_scalar (text text' : Bytes) (line : Nat) (tokens : List Token) :
    parse (keyTokens ++ ⟨.scalar text, 1⟩ :: ⟨.scalar text', line⟩ :: tokens) =
      .error ⟨.unexpected (.scalar text'), line⟩ :=
  rfl

/-- A key with one scalar is a document. -/
theorem decode_of_lexeme (h : lexeme singleQuote s = .ok (some (.scalar text), n))
    (hrest : (singleQuote :: s).drop n = [lf]) :
    decode (ascii "k: " ++ singleQuote :: s) = .ok () := by
  rw [decode, lex_keyed, lexFrom_lexeme none 1 (by decide) h, hrest]
  exact parse_scalar text

/-- Such a text can be the value of a key. -/
theorem decode_inQuotes (hw : lf ∉ w) (hstart : nextIs singleQuote w = false) :
    decode (ascii "k: " ++ (inQuotes w ++ [lf])) = .ok () := by
  have hrest := drop_inQuotes w [lf]
  rw [inQuotes_append] at hrest ⊢
  exact decode_of_lexeme (lexeme_inQuotes hw rfl hstart) hrest

/-- A text that starts with a quote can be one too, as a string between three quotes. -/
theorem EndsBlock.decode (h : EndsBlock v) :
    decode (ascii "k: " ++ (inQuotes (singleQuote :: v) ++ [lf])) = .ok () := by
  obtain ⟨n, hn, hrest⟩ := h.exists_indexOf? [lf]
  have hlexeme : lexeme singleQuote (doubled (singleQuote :: v) ++ [singleQuote, lf]) =
      .ok (some (.scalar ((doubled v ++ [singleQuote, lf]).take n)), n + 6) := by
    rw [doubled_quote, List.cons_append, List.cons_append, lexeme_quote, quotedString_block, hn]
    rfl
  rw [inQuotes_append]
  exact decode_of_lexeme hlexeme hrest

/-- A string in three quotes has to end with the line. -/
theorem endsBlock_of_decode
    (h : decode (ascii "k: " ++
      singleQuote :: singleQuote :: singleQuote :: (doubled v ++ [singleQuote, lf])) = .ok ()) :
    EndsBlock v := by
  rw [decode, lex_keyed] at h
  cases hlex : lexFrom none 1 0
    (singleQuote :: singleQuote :: singleQuote :: (doubled v ++ [singleQuote, lf])) with
  | error fault =>
    rw [hlex] at h
    cases h
  | ok tokens =>
    rw [hlex] at h
    replace h : parse (keyTokens ++ tokens) = .ok () := h
    obtain ⟨text, n, rest, hstring, hrest, rfl⟩ := lexFrom_quote_eq_ok hlex
    rw [quotedString_block] at hstring
    cases hindex : indexOf? threeQuotes (doubled v ++ [singleQuote, lf]) with
    | none =>
      rw [hindex] at hstring
      cases hstring
    | some m =>
      rw [hindex] at hstring
      cases hstring
      refine (endsBlock_or_nextIs hindex).resolve_right fun hnext => ?_
      -- the quote that follows starts a second scalar
      obtain ⟨s, hs⟩ := exists_of_nextIs hnext
      replace hrest :
          lexFrom none _ 0 ((doubled v ++ [singleQuote, lf]).drop (m + 3)) = .ok rest := hrest
      rw [hs] at hrest
      obtain ⟨text', n', rest', -, -, rfl⟩ := lexFrom_quote_eq_ok hrest
      cases (parse_scalar_scalar _ _ _ _).symm.trans h

/-- Every text on one line can be written in quotes, with its own quotes doubled, unless it starts
with one. -/
theorem doubled_quotes_read_iff (hw : lf ∉ w) (hr : nextIs singleQuote r = false) :
    (lexeme singleQuote (doubled w ++ singleQuote :: r) =
      .ok (some (.scalar (doubled w)), (doubled w).length + 2) ↔
      nextIs singleQuote w = false) ∧
    (nextIs singleQuote w = false → ∀ unit line, lexFrom unit line 0 (inQuotes w ++ r) =
      (lexFrom unit line 0 r).map (⟨.scalar (doubled w), line⟩ :: ·)) ∧
    (decode (ascii "k: " ++ (inQuotes w ++ [lf])) = .ok () ↔
      nextIs singleQuote w = false ∨ ∃ v, w = singleQuote :: v ∧ EndsBlock v) := by
  refine ⟨⟨?_, lexeme_inQuotes hw hr⟩, lexFrom_inQuotes hw hr, ?_, ?_⟩
  -- read as one scalar, a text that starts with a quote would be read with another extent
  · intro h
    by_contra hstart
    rw [Bool.not_eq_false] at hstart
    obtain ⟨v, rfl⟩ := exists_of_nextIs hstart
    rw [lexeme_quote] at h
    obtain ⟨⟨text, n⟩, hstring, heq⟩ := map_eq_ok h
    cases heq
    exact quotedString_block_ne _ _ hstring
  · intro h
    rw [or_iff_not_imp_left, Bool.not_eq_false]
    intro hstart
    obtain ⟨v, rfl⟩ := exists_of_nextIs hstart
    rw [inQuotes_append] at h
    exact ⟨v, rfl, endsBlock_of_decode h⟩
  · rintro (hstart | ⟨v, rfl, hends⟩)
    · exact decode_inQuotes hw hstart
    · exact hends.decode

end

theorem doubled_quotes_read_iff_apostrophe :
    (lf ∉ ascii "it's" ∧ nextIs singleQuote (ascii ", b") = false) ∧
      lexeme singleQuote (ascii "it''s', b") = .ok (some (.scalar (ascii "it''s")), 7) ∧
      lexFrom none 1 0 (ascii "'it''s', b") =
        .ok [⟨.scalar (ascii "it''s"), 1⟩, ⟨.comma, 1⟩, ⟨.scalar (ascii "b"), 1⟩] ∧
      decode (ascii "k: 'it''s'\n") = .ok () := by
  have h := @doubled_quotes_read_iff (ascii "it's") (ascii ", b") (by decide) rfl
  exact ⟨⟨by decide, rfl⟩, h.1.mpr rfl, (h.2.1 rfl none 1).trans rfl, h.2.2.mpr (.inl rfl)⟩

/-- A quote at the start of the text, doubled, is read with the opening one as three quotes. -/
theorem leading_quote_opens_block :
    inQuotes (ascii "'a") = ascii "'''a'" ∧
      lexeme singleQuote (doubled (ascii "'a") ++ [singleQuote, lf]) =
        .error (.missingQuotes singleQuote) ∧
      decode (ascii "k: " ++ (inQuotes (ascii "'a") ++ [lf])) =
        .error ⟨.missingQuotes singleQuote, 1⟩ :=
  ⟨rfl, rfl, rfl⟩

end SourceTidy.Neon
