import SourceTidy.Proofs.StandardRules
import SourceTidy.Proofs.StrippedText

/-! # What a tidy text looks like

The rule on white space leaves nothing, or a text with one line break at its end. It leaves no blank
before a line break either, unless it makes that line break itself: where blanks stand on both sides
of a carriage return and a line feed comes next, the blanks after the carriage return go, and those
before it now stand before a line break of two octets.

* `occurs_trailingBlank_stripLines`: the blanks before line breaks that are left are those;
* `stripLines_eq_self_iff`: a text that stays as it is has no blank before a line break;
* `not_occurs_hiddenBlank_stripLines`: no such place is made, so a second run leaves nothing to do;
* `tidy_text_but_for_hidden_blanks`: the same of the whole rule, with `hidden_blank_left_behind`.
-/

namespace SourceTidy

open Ascii Bytes

/-- Somewhere in the text, what follows is as `p` says. -/
def Occurs (p : Bytes → Prop) (s : Bytes) : Prop := ∃ t, t <:+ s ∧ p t

/-- The text starts with a blank, and a line break comes next. -/
def TrailingBlank (s : Bytes) : Prop :=
  ∃ (b : UInt8) (eol : LineEnding) (rest : Bytes), isBlank b = true ∧ s = b :: (eol.bytes ++ rest)

/-- The text starts with a blank, a carriage return, one or more blanks, and a line feed. -/
def HiddenBlank (s : Bytes) : Prop :=
  ∃ (b : UInt8) (blanks rest : Bytes), isBlank b = true ∧ blanks ≠ [] ∧
    (∀ c ∈ blanks, isBlank c = true) ∧ s = b :: cr :: (blanks ++ lf :: rest)

/-- The text ends with one line break, and what stands before it is no padding. -/
def EndsInOneBreak (s : Bytes) : Prop :=
  ∃ (text : Bytes) (b : UInt8) (eol : LineEnding), isPadding b = false ∧ s = text ++ b :: eol.bytes

variable {p : Bytes → Prop} {s t : Bytes} {b : UInt8}

theorem not_occurs_nil (h : ¬ p []) : ¬ Occurs p [] := by
  rintro ⟨t, ht, hp⟩
  rw [List.suffix_nil.mp ht] at hp
  exact h hp

theorem occurs_cons : Occurs p (b :: s) ↔ p (b :: s) ∨ Occurs p s := by
  constructor
  · rintro ⟨t, ht, hp⟩
    rcases List.suffix_cons_iff.mp ht with rfl | ht
    · exact Or.inl hp
    · exact Or.inr ⟨t, ht, hp⟩
  · rintro (hp | ⟨t, ht, hp⟩)
    · exact ⟨b :: s, List.suffix_rfl, hp⟩
    · exact ⟨t, ht.trans (List.suffix_cons b s), hp⟩

/-! ## Blanks that are left -/

/-- What is left before a line feed is no blank, and blanks before it are at the end of a line. -/
theorem endsLine_of_feed {blanks rest : Bytes} (hblanks : ∀ c ∈ blanks, isBlank c = true)
    (h : stripLines s = blanks ++ lf :: rest) : blanks = [] ∧ (stripped s).endsLine = true := by
  induction s generalizing blanks with
  | nil => simp at h
  | cons b s ih =>
    rw [stripLines_cons] at h
    split at h
    · next hstripped =>
      rw [isStripped, Bool.and_eq_true] at hstripped
      obtain ⟨hnil, hends⟩ := ih hblanks h
      rw [stripped_blank s hstripped.1]
      exact ⟨hnil, hends⟩
    · next hkept =>
      cases blanks with
      | nil =>
        obtain ⟨rfl, -⟩ := List.cons.inj h
        rw [stripped_not_blank s (by decide)]
        exact ⟨rfl, rfl⟩
      | cons c blanks =>
        -- the blank would not have been kept
        obtain ⟨rfl, hrest⟩ := List.cons.inj h
        rw [List.forall_mem_cons] at hblanks
        have hends := (ih hblanks.2 hrest).2
        rw [isStripped, hblanks.1, hends] at hkept
        exact absurd rfl hkept

/-- A line feed comes first in the stripped text if there were only blanks before it. -/
theorem exists_blanks_of_feed {rest : Bytes} (h : stripLines s = lf :: rest) :
    ∃ blanks rest', (∀ c ∈ blanks, isBlank c = true) ∧ s = blanks ++ lf :: rest' := by
  induction s with
  | nil => simp at h
  | cons b s ih =>
    rw [stripLines_cons] at h
    split at h
    · next hstripped =>
      rw [isStripped, Bool.and_eq_true] at hstripped
      obtain ⟨blanks, rest', hblanks, rfl⟩ := ih h
      exact ⟨b :: blanks, rest', List.forall_mem_cons.mpr ⟨hstripped.1, hblanks⟩, rfl⟩
    · obtain ⟨rfl, -⟩ := List.cons.inj h
      exact ⟨[], s, List.forall_mem_nil _, rfl⟩

theorem endsLine_lf (s : Bytes) : (stripped (lf :: s)).endsLine = true := by
  rw [stripped_not_blank s (by decide)]
  rfl

theorem endsLine_cr (s : Bytes) :
    (stripped (cr :: s)).endsLine = (stripped s).startsWithFeed := by
  rw [stripped_not_blank s (by decide)]
  rfl

theorem startsWithFeed_blank (s : Bytes) (hb : isBlank b = true) :
    (stripped (b :: s)).startsWithFeed = false := by
  rw [stripped_blank s hb]

/-- Before blanks and a line feed, a carriage return does not end the line. -/
theorem endsLine_of_hiddenBlank (h : HiddenBlank (b :: s)) : (stripped s).endsLine = false := by
  obtain ⟨_, blanks, rest, -, hne, hblanks, heq⟩ := h
  obtain ⟨-, rfl⟩ := List.cons.inj heq
  obtain ⟨c, blanks, rfl⟩ := List.exists_cons_of_ne_nil hne
  rw [endsLine_cr, List.cons_append, startsWithFeed_blank _ (hblanks c List.mem_cons_self)]

/-- A blank that is kept stands before a line break if blanks have hidden the line feed from it. -/
theorem trailingBlank_cons_stripLines (hends : (stripped s).endsLine = false) :
    TrailingBlank (b :: stripLines s) ↔ HiddenBlank (b :: s) := by
  constructor
  · rintro ⟨_, eol, rest, hb, heq⟩
    obtain ⟨rfl, hbreak⟩ := List.cons.inj heq
    cases eol with
    | lf =>
      have hfeed : stripLines s = [] ++ lf :: rest := hbreak
      have hagain := (endsLine_of_feed (List.forall_mem_nil _) hfeed).2
      rw [hends] at hagain
      cases hagain
    | crlf =>
      cases s with
      | nil => cases hbreak
      | cons c s =>
        rw [stripLines_cons] at hbreak
        split at hbreak
        · next hstripped =>
          rw [isStripped, Bool.and_eq_true] at hstripped
          rw [stripped_blank s hstripped.1] at hends
          exact absurd hstripped.2 (Bool.eq_false_iff.mp hends)
        · obtain ⟨rfl, hfeed⟩ := List.cons.inj hbreak
          obtain ⟨blanks, rest', hblanks, rfl⟩ := exists_blanks_of_feed hfeed
          refine ⟨b, blanks, rest', hb, ?_, hblanks, rfl⟩
          -- without blanks in between the two octets would have been a line break before
          rintro rfl
          cases hends
  · rintro ⟨_, blanks, rest, hb, -, hblanks, heq⟩
    obtain ⟨rfl, rfl⟩ := List.cons.inj heq
    refine ⟨b, .crlf, stripLines rest, hb, ?_⟩
    rw [stripLines_not_blank _ (by decide), stripLines_blanks_append hblanks,
      endsLine_lf, if_pos rfl, stripLines_not_blank _ (by decide)]
    rfl

/-- Blanks are left before a line break just where the line feed was hidden from them. -/
theorem occurs_trailingBlank_stripLines (s : Bytes) :
    Occurs TrailingBlank (stripLines s) ↔ Occurs HiddenBlank s := by
  induction s with
  | nil =>
    have htrailing : ¬ Occurs TrailingBlank [] := not_occurs_nil (by rintro ⟨_, _, _, -, ⟨⟩⟩)
    have hhidden : ¬ Occurs HiddenBlank [] := not_occurs_nil (by rintro ⟨_, _, _, -, -, -, ⟨⟩⟩)
    exact iff_of_false htrailing hhidden
  | cons b s ih =>
    rw [occurs_cons, stripLines_cons, ← ih]
    split
    · next hstripped =>
      rw [isStripped, Bool.and_eq_true] at hstripped
      have hnot : ¬ HiddenBlank (b :: s) := by
        intro hhidden
        exact absurd hstripped.2 (Bool.eq_false_iff.mp (endsLine_of_hiddenBlank hhidden))
      exact (or_iff_right hnot).symm
    · next hkept =>
      rw [occurs_cons]
      refine or_congr_left ?_
      cases hb : isBlank b with
      | true =>
        rw [isStripped, hb, Bool.true_and, Bool.not_eq_true] at hkept
        exact trailingBlank_cons_stripLines hkept
      | false =>
        -- neither pattern starts with another octet
        constructor
        · rintro ⟨c, _, _, hc, heq⟩
          obtain ⟨rfl, -⟩ := List.cons.inj heq
          rw [hb] at hc
          cases hc
        · rintro ⟨c, _, _, hc, -, -, heq⟩
          obtain ⟨rfl, -⟩ := List.cons.inj heq
          rw [hb] at hc
          cases hc

/-- What a stripped text ends with is a stripped text. -/
theorem exists_suffix_of_stripLines (h : t <:+ stripLines s) : ∃ u, stripLines u = t := by
  induction s with
  | nil =>
    rw [stripLines_nil, List.suffix_nil] at h
    exact ⟨[], h.symm⟩
  | cons b s ih =>
    by_cases hall : t = stripLines (b :: s)
    · exact ⟨b :: s, hall.symm⟩
    · rw [stripLines_cons] at h hall
      split at h
      · exact ih h
      · next hkept =>
        rw [if_neg hkept] at hall
        exact ih ((List.suffix_cons_iff.mp h).resolve_left hall)

/-- No blank is left before a line feed, so nothing is hidden in a stripped text. -/
theorem not_occurs_hiddenBlank_stripLines (s : Bytes) : ¬ Occurs HiddenBlank (stripLines s) := by
  rintro ⟨t, ht, b, blanks, rest, -, hne, hblanks, rfl⟩
  have hfeed : blanks ++ lf :: rest <:+ b :: cr :: (blanks ++ lf :: rest) :=
    (List.suffix_cons cr _).trans (List.suffix_cons b _)
  obtain ⟨u, hu⟩ := exists_suffix_of_stripLines (hfeed.trans ht)
  exact hne (endsLine_of_feed hblanks hu).1

/-! ## Texts that stay as they are -/

/-- A text of which blanks at the start would be stripped starts with a line break, or has a blank
to strip itself. -/
theorem trailingBlank_of_endsLine (hb : isBlank b = true) (h : (stripped s).endsLine = true) :
    Occurs TrailingBlank (b :: s) := by
  induction s generalizing b with
  | nil => cases h
  | cons c s ih =>
    rw [occurs_cons]
    cases hc : isBlank c with
    | true =>
      rw [stripped_blank s hc] at h
      exact Or.inr (ih hc h)
    | false =>
      left
      rw [stripped_not_blank s hc] at h
      simp only [Bool.or_eq_true, Bool.and_eq_true, beq_iff_eq] at h
      rcases h with rfl | ⟨rfl, hfeed⟩
      · exact ⟨b, .lf, s, hb, rfl⟩
      · obtain ⟨rest, rfl⟩ := exists_of_startsWithFeed hfeed
        exact ⟨b, .crlf, rest, hb, rfl⟩

/-- A blank before a line break is stripped. -/
theorem isStripped_of_trailingBlank (h : TrailingBlank (b :: s)) : isStripped b s = true := by
  obtain ⟨_, eol, rest, hb, heq⟩ := h
  obtain ⟨rfl, rfl⟩ := List.cons.inj heq
  rw [isStripped, hb, (stripped_lineBreak eol rest).2]
  rfl

/-- Stripping leaves just those texts alone in which no blank stands before a line break. -/
theorem stripLines_eq_self_iff (s : Bytes) : stripLines s = s ↔ ¬ Occurs TrailingBlank s := by
  induction s with
  | nil =>
    have hnil : ¬ Occurs TrailingBlank [] := not_occurs_nil (by rintro ⟨_, _, _, -, ⟨⟩⟩)
    exact iff_of_true rfl hnil
  | cons b s ih =>
    rw [stripLines_cons]
    split
    · next hstripped =>
      rw [isStripped, Bool.and_eq_true] at hstripped
      -- one octet less can not be the same text
      have hshorter : stripLines s ≠ b :: s := by
        intro hsame
        have hle := (stripLines_sublist s).length_le
        rw [hsame, List.length_cons] at hle
        omega
      have hoccurs := trailingBlank_of_endsLine hstripped.1 hstripped.2
      exact iff_of_false hshorter (not_not_intro hoccurs)
    · next hkept =>
      have hnot : ¬ TrailingBlank (b :: s) := mt isStripped_of_trailingBlank hkept
      rw [occurs_cons, or_iff_right hnot, ← ih, List.cons.injEq]
      exact and_iff_right rfl

/-! ## The end of the text -/

/-- A text that is not empty ends with an octet that is no padding. -/
theorem EndsInText.exists_concat (hs : EndsInText s) (hne : s ≠ []) :
    ∃ front b, s = front ++ [b] ∧ isPadding b = false := by
  obtain ⟨front, b, rfl⟩ := (List.eq_nil_or_concat s).resolve_left hne
  rw [List.concat_eq_append] at hs ⊢
  exact ⟨front, b, rfl, hs b (by simp)⟩

theorem isSpacing_of_not_isPadding (hb : isPadding b = false) : isSpacing b = false := by
  simp only [isPadding, Bool.or_eq_false_iff] at hb
  exact hb.1.1

/-- Stripping leaves the last octet of a text alone if it is no white space. -/
theorem stripLines_concat (s : Bytes) (hb : isPadding b = false) :
    stripLines (s ++ [b]) = stripLines s ++ [b] := by
  have hspacing := isSpacing_of_not_isPadding hb
  rw [stripLines_append_text s ⟨b, [], rfl, hspacing⟩,
    stripLines_not_blank _ (isBlank_of_not_isSpacing hspacing), stripLines_nil]

/-- The padding at the end may be cut off before the text is stripped. -/
theorem trimEnd_stripLines (s : Bytes) : trimEnd (stripLines s) = stripLines (trimEnd s) := by
  obtain ⟨padding, hs, hpadding⟩ := exists_trimEnd_append s
  have hends := endsInText_trimEnd s
  have hstripped : ∀ b ∈ stripLines padding, isPadding b = true :=
    fun b hb => hpadding b ((stripLines_sublist padding).mem hb)
  -- nothing but padding is there, or the text before the padding is stripped apart from it
  by_cases hne : trimEnd s = []
  · rw [hne, List.nil_append] at hs
    rw [hne, ← hs, stripLines_nil]
    have hnil : EndsInText [] := by
      intro b hb
      cases hb
    exact trimEnd_append hnil hstripped
  · obtain ⟨front, b, hfront, hb⟩ := hends.exists_concat hne
    have htext : EndsInText (stripLines (trimEnd s)) := by
      intro c hc
      rw [hfront, stripLines_concat front hb, List.getLast?_concat] at hc
      rw [← Option.some.inj hc]
      exact hb
    conv_lhs => rw [← hs, stripLines_append hne hends]
    exact trimEnd_append htext hstripped

/-- What is hidden in a text is so whatever comes after it, as a hidden blank lies in padding. -/
theorem hiddenBlank_append_iff (hs : EndsInText s) (hne : s ≠ []) :
    HiddenBlank (s ++ t) ↔ HiddenBlank s := by
  constructor
  · rintro ⟨b, blanks, rest, hb, hblanks, hall, heq⟩
    have hparts : s ++ t = (b :: cr :: (blanks ++ [lf])) ++ rest := by simpa using heq
    rcases List.append_eq_append_iff.mp hparts with ⟨more, hpattern, -⟩ | ⟨more, hs', -⟩
    · -- the text would end inside of the padding
      obtain ⟨front, x, rfl, hx⟩ := hs.exists_concat hne
      have hmem : x ∈ b :: cr :: (blanks ++ [lf]) := by simp [hpattern]
      have hpadding : isPadding x = true := by
        simp only [List.mem_cons, List.mem_append, List.not_mem_nil, or_false] at hmem
        rcases hmem with rfl | rfl | hmem | rfl
        · simp [isPadding, isSpacing, hb]
        · rfl
        · simp [isPadding, isSpacing, hall x hmem]
        · rfl
      rw [hx] at hpadding
      cases hpadding
    · exact ⟨b, blanks, more, hb, hblanks, hall, by simpa using hs'⟩
  · rintro ⟨b, blanks, rest, hb, hblanks, hall, rfl⟩
    exact ⟨b, blanks, rest ++ t, hb, hblanks, hall, by simp⟩

/-- A line break at the end hides no blank. -/
theorem occurs_hiddenBlank_append_iff (hs : EndsInText s) (hne : s ≠ []) (eol : LineEnding) :
    Occurs HiddenBlank (s ++ eol.bytes) ↔ Occurs HiddenBlank s := by
  induction s with
  | nil => exact absurd rfl hne
  | cons b s ih =>
    rw [List.cons_append, occurs_cons, occurs_cons, ← List.cons_append,
      hiddenBlank_append_iff hs hne]
    refine or_congr_right ?_
    by_cases hrest : s = []
    · subst hrest
      have hbreak : ¬ Occurs HiddenBlank eol.bytes := by
        have h := not_occurs_hiddenBlank_stripLines eol.bytes
        rwa [stripLines_lineEnding] at h
      have hnil : ¬ Occurs HiddenBlank [] := not_occurs_nil (by rintro ⟨_, _, _, -, -, -, ⟨⟩⟩)
      exact iff_of_false hbreak hnil
    · exact ih (hs.drop 1) hrest

/-- What the rule leaves is the stripped text up to its padding, and a line break. -/
theorem tidyWhitespace_cases (native : LineEnding) (c : Bytes) :
    (trimEnd c = [] ∧ tidyWhitespace native c = []) ∨
      trimEnd c ≠ [] ∧
      ∃ eol, tidyWhitespace native c = stripLines (trimEnd c ++ LineEnding.bytes eol) := by
  have hends := endsInText_trimEnd c
  rw [tidyWhitespace, trimEnd_stripLines]
  by_cases hne : trimEnd c = []
  · simp [hne]
  · right
    refine ⟨hne, (firstLineEnding? (stripLines c)).getD native, ?_⟩
    have hempty : (stripLines (trimEnd c)).isEmpty = false := by
      rw [isEmpty_stripLines]
      simpa using hne
    rw [stripLines_append hne hends, stripLines_lineEnding]
    simp [hempty]

/-! ## The whole rule -/

/-- The rule says nothing exactly of texts that are tidy already. -/
theorem whitespace_run_eq_none_iff (native : LineEnding) (file : SourceFile) (c : Bytes) :
    (Rule.whitespace native).run file c = .none ↔ tidyWhitespace native c = c := by
  rcases Rule.rewrites_whitespace native file c with ⟨hrun, hsame⟩ | ⟨message, hrun, hchanged⟩
  · exact iff_of_true hrun hsame
  · refine iff_of_false ?_ hchanged
    rw [hrun]
    intro hnone
    cases hnone

/-- A tidy text is empty or ends with one line break. -/
theorem endsInOneBreak_tidyWhitespace (native : LineEnding) (c : Bytes) :
    tidyWhitespace native c = [] ∨ EndsInOneBreak (tidyWhitespace native c) := by
  rcases tidyWhitespace_cases native c with ⟨-, hleft⟩ | ⟨hne, eol, hleft⟩
  · exact Or.inl hleft
  · right
    have hends := endsInText_trimEnd c
    obtain ⟨front, b, hfront, hb⟩ := hends.exists_concat hne
    refine ⟨stripLines front, b, eol, hb, ?_⟩
    rw [hleft, stripLines_append hne hends, stripLines_lineEnding, hfront,
      stripLines_concat front hb]
    simp

/-- The blanks before line breaks that are left are those that were hidden. -/
theorem occurs_trailingBlank_tidyWhitespace (native : LineEnding) (c : Bytes) :
    Occurs TrailingBlank (tidyWhitespace native c) ↔ Occurs HiddenBlank (trimEnd c) := by
  rcases tidyWhitespace_cases native c with ⟨htrim, hleft⟩ | ⟨hne, eol, hleft⟩
  · rw [hleft, htrim]
    exact occurs_trailingBlank_stripLines []
  · rw [hleft, occurs_trailingBlank_stripLines]
    exact occurs_hiddenBlank_append_iff (endsInText_trimEnd c) hne eol

/-- Apart from blanks before line breaks nothing is left for a second run. -/
theorem tidyWhitespace_again_eq_iff (native : LineEnding) (c : Bytes) :
    tidyWhitespace native (tidyWhitespace native c) = tidyWhitespace native c ↔
      ¬ Occurs TrailingBlank (tidyWhitespace native c) := by
  rw [← stripLines_eq_self_iff]
  constructor
  · intro hsame
    have hsize := textSize_tidyWhitespace_le_stripLines native (tidyWhitespace native c)
    rw [hsame] at hsize
    refine (stripLines_eq_or_lt _).resolve_right ?_
    omega
  · exact tidyWhitespace_of_stripped native

/-- Nothing is hidden in a tidy text. -/
theorem not_occurs_hiddenBlank_tidyWhitespace (native : LineEnding) (c : Bytes) :
    ¬ Occurs HiddenBlank (trimEnd (tidyWhitespace native c)) := by
  rcases tidyWhitespace_cases native c with ⟨-, hleft⟩ | ⟨-, eol, hleft⟩
  · rw [hleft]
    exact not_occurs_hiddenBlank_stripLines []
  · rw [hleft, trimEnd_stripLines]
    exact not_occurs_hiddenBlank_stripLines _

/-- Whatever the content, the rule leaves nothing or a text with one line break at its end. It
leaves a blank before a line break, and something to do for a second run, just where a line feed is
hidden from such a blank somewhere before the padding at the end; after the second run that is never
so. -/
theorem tidy_text_but_for_hidden_blanks (native : LineEnding) (file : SourceFile) (c : Bytes) :
    let rule := Rule.whitespace native
    let left := rule.apply file c
    (left = [] ∨ EndsInOneBreak left) ∧
      (Occurs TrailingBlank left ↔ Occurs HiddenBlank (trimEnd c)) ∧
      (rule.run file left = .none ↔ ¬ Occurs HiddenBlank (trimEnd c)) ∧
      ¬ Occurs TrailingBlank (rule.apply file left) ∧
        rule.run file (rule.apply file left) = .none := by
  intro rule left
  have hrule : ∀ c, rule.apply file c = tidyWhitespace native c :=
    congrFun ((Rule.rewrites_whitespace native).apply_eq file)
  have hleft : left = tidyWhitespace native c := hrule c
  have hsecond : ¬ Occurs TrailingBlank (tidyWhitespace native (tidyWhitespace native c)) := by
    rw [occurs_trailingBlank_tidyWhitespace]
    exact not_occurs_hiddenBlank_tidyWhitespace native c
  rw [hrule, hleft, whitespace_run_eq_none_iff, whitespace_run_eq_none_iff,
    tidyWhitespace_again_eq_iff, tidyWhitespace_again_eq_iff, occurs_trailingBlank_tidyWhitespace]
  exact ⟨endsInOneBreak_tidyWhitespace native c, Iff.rfl, Iff.rfl, hsecond, hsecond⟩

/-- The blank after the `a` is not seen, as a blank stands between the carriage return and the line
feed. When that one is gone, it stands before a line break. -/
theorem hidden_blank_left_behind :
    let rule := Rule.whitespace .lf
    let left := rule.apply (.ofPath "a.txt") (ascii "a \r \nb\n")
    left = ascii "a \r\nb\r\n" ∧ Occurs TrailingBlank left ∧
      rule.run (.ofPath "a.txt") left =
        .fixed (ascii "a\r\nb\r\n") "1 bytes of whitespaces" := by
  intro rule left
  have hleft : left = ascii "a \r\nb\r\n" := by decide
  refine ⟨hleft, ?_, ?_⟩
  · rw [hleft]
    exact ⟨ascii " \r\nb\r\n", ⟨ascii "a", rfl⟩, space, .crlf, ascii "b\r\n", rfl, rfl⟩
  · rw [hleft]
    decide

end SourceTidy
