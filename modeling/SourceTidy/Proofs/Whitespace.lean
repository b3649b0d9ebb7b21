import SourceTidy.Proofs.LineBreaks
import SourceTidy.Rule.Whitespace

/-! # White space at the end of lines

What the rule on white space leaves, for all texts and for those with one kind of line break.

* `exists_trimEnd_append`, `trimEnd_append`: `trimEnd` cuts a text in two, where the padding at its
  end starts;
* `stripLines_sublist`: stripping only leaves octets out;
* `stripLines_append`: parts of a text are stripped apart, if the first one ends in text;
* `uniform_tidyWhitespace`, `tidyWhitespace_tidyWhitespace`: a text with one kind of line break
  keeps it, and a second run of the rule finds nothing to do. The second part needs the first: a
  carriage return alone may hide a blank from the rule until the blanks after it are gone;
* `tidyWhitespace_again`: on any text, a second run finds nothing to do or takes such blanks away.
-/

namespace SourceTidy

open Ascii Bytes

theorem isSpacing_of_isBreak {b : UInt8} (h : isBreak b = true) : isSpacing b = true := by
  rcases isBreak_iff.mp h with rfl | rfl <;> decide

theorem isSpacing_of_isBlank {b : UInt8} (h : isBlank b = true) : isSpacing b = true := by
  simp [isSpacing, h]

theorem isBlank_of_not_isSpacing {b : UInt8} (h : isSpacing b = false) : isBlank b = false := by
  simp only [isSpacing, Bool.or_eq_false_iff] at h
  exact h.1.1

theorem ne_of_isSpacing {b c : UInt8} (hb : isSpacing b = true) (hc : isSpacing c = false) :
    b ≠ c := by
  rintro rfl
  rw [hb] at hc
  cases hc

theorem isPadding_of_isBreak {b : UInt8} (h : isBreak b = true) : isPadding b = true := by
  simp [isPadding, isSpacing_of_isBreak h]

theorem isBreak_of_isBlank {b : UInt8} (h : isBlank b = true) : isBreak b = false := by
  simp only [isBlank, Bool.or_eq_true, beq_iff_eq] at h
  rcases h with rfl | rfl <;> decide

/-! ## Padding at the end of a text -/

/-- The text is empty, or its last octet is no padding. -/
def EndsInText (s : Bytes) : Prop := ∀ b, s.getLast? = some b → isPadding b = false

/-- Without the padding at its end a text ends in text. -/
theorem endsInText_trimEnd (s : Bytes) : EndsInText (trimEnd s) := by
  intro b hb
  have hne : trimEnd s ≠ [] := by
    intro hnil
    simp [hnil] at hb
  have hlast : (trimEnd s).getLast hne = b := by
    rw [List.getLast?_eq_some_getLast hne] at hb
    exact Option.some.inj hb
  have hnot := List.rdropWhile_last_not isPadding s hne
  rw [← hlast]
  exact Bool.eq_false_iff.mpr hnot

/-- A text is what `trimEnd` leaves of it, and padding. -/
theorem exists_trimEnd_append (s : Bytes) :
    ∃ padding, trimEnd s ++ padding = s ∧ ∀ b ∈ padding, isPadding b = true :=
  ⟨s.rtakeWhile isPadding, List.rdropWhile_append_rtakeWhile,
    fun _ hb => List.mem_rtakeWhile_imp hb⟩

/-- There is only one way to cut the padding off. -/
theorem trimEnd_append {s padding : Bytes} (hs : EndsInText s)
    (hpadding : ∀ b ∈ padding, isPadding b = true) : trimEnd (s ++ padding) = s := by
  have hrev : ∀ b ∈ padding.reverse, isPadding b = true := by
    intro b hb
    exact hpadding b (List.mem_reverse.mp hb)
  have hself : s.rdropWhile isPadding = s := by
    rw [List.rdropWhile_eq_self_iff]
    intro hne
    have h := hs _ (List.getLast?_eq_some_getLast hne)
    simp [h]
  rw [trimEnd, List.reverse_append, List.dropWhile_append_of_pos hrev]
  exact hself

theorem EndsInText.getLast?_ne {s : Bytes} (hs : EndsInText s) {b : UInt8}
    (hb : isPadding b = true) : s.getLast? ≠ some b := by
  intro hlast
  have h := hs b hlast
  rw [hb] at h
  exact absurd h (by decide)

/-- A text with one kind of line break keeps it, as no line break is cut in two. -/
theorem uniform_trimEnd {eol : LineEnding} {s : Bytes} (h : Uniform eol s) :
    Uniform eol (trimEnd s) := by
  obtain ⟨padding, hs, -⟩ := exists_trimEnd_append s
  rw [← hs] at h
  exact h.of_append (Or.inl ((endsInText_trimEnd s).getLast?_ne (by decide)))

/-! ## Blanks at the ends of lines -/

/-- The machine behind `stripLines` after it has read the text. -/
def stripped (s : Bytes) : Stripped := s.foldr Stripped.cons ⟨[], false, false⟩

theorem stripLines_eq (s : Bytes) : stripLines s = (stripped s).text := rfl

@[simp] theorem stripLines_nil : stripLines [] = [] := rfl

theorem stripped_cons (b : UInt8) (s : Bytes) : stripped (b :: s) = (stripped s).cons b := rfl

/-- A blank is left out if the line ends after it. -/
theorem stripped_blank {b : UInt8} (s : Bytes) (hb : isBlank b = true) :
    stripped (b :: s) =
      ⟨if (stripped s).endsLine then stripLines s else b :: stripLines s, (stripped s).endsLine,
        false⟩ := by
  simp [stripped_cons, Stripped.cons, hb, stripLines_eq]

/-- Everything else stays, and line breaks end a line. -/
theorem stripped_not_blank {b : UInt8} (s : Bytes) (hb : isBlank b = false) :
    stripped (b :: s) =
      ⟨b :: stripLines s, b == lf || (b == cr && (stripped s).startsWithFeed), b == lf⟩ := by
  simp [stripped_cons, Stripped.cons, hb, stripLines_eq]

theorem stripped_octet {b : UInt8} (s : Bytes) (hb : isBlank b = false) (hcr : b ≠ cr)
    (hlf : b ≠ lf) : stripped (b :: s) = ⟨b :: stripLines s, false, false⟩ := by
  simp [stripped_not_blank s hb, hcr, hlf]

theorem stripped_lineBreak (eol : LineEnding) (s : Bytes) :
    (stripped (eol.bytes ++ s)).text = eol.bytes ++ stripLines s ∧
      (stripped (eol.bytes ++ s)).endsLine = true := by
  have hlf : isBlank lf = false := by decide
  have hcr : isBlank cr = false := by decide
  cases eol <;> simp [LineEnding.bytes, stripped_not_blank, hlf, hcr, stripLines_eq]

theorem stripLines_lineEnding (eol : LineEnding) : stripLines eol.bytes = eol.bytes := by
  have h := (stripped_lineBreak eol []).1
  rwa [← stripLines_eq, stripLines_nil, List.append_nil] at h

theorem stripLines_blank {b : UInt8} (s : Bytes) (hb : isBlank b = true) :
    stripLines (b :: s) = if (stripped s).endsLine then stripLines s else b :: stripLines s := by
  rw [stripLines_eq, stripped_blank s hb]

theorem stripLines_not_blank {b : UInt8} (s : Bytes) (hb : isBlank b = false) :
    stripLines (b :: s) = b :: stripLines s := by
  rw [stripLines_eq, stripped_not_blank s hb]

/-- Octets are left out, and none is added. -/
theorem stripLines_sublist (s : Bytes) : (stripLines s).Sublist s := by
  induction s with
  | nil => exact List.Sublist.refl []
  | cons b s ih =>
    cases hb : isBlank b with
    | true =>
      rw [stripLines_blank s hb]
      split
      · exact ih.cons b
      · exact ih.cons_cons b
    | false =>
      rw [stripLines_not_blank s hb]
      exact ih.cons_cons b

/-- Blanks are text, so stripping changes nothing or takes text away. -/
theorem stripLines_eq_or_lt (s : Bytes) :
    stripLines s = s ∨ textSize (stripLines s) < textSize s := by
  induction s with
  | nil => exact Or.inl rfl
  | cons b s ih =>
    -- an octet that stays leaves the decision to the rest
    have hstays : b :: stripLines s = b :: s ∨
        textSize (b :: stripLines s) < textSize (b :: s) := by
      rcases ih with ih | ih
      · left
        rw [ih]
      · right
        rw [textSize_cons, textSize_cons]
        omega
    cases hb : isBlank b with
    | false =>
      rw [stripLines_not_blank s hb]
      exact hstays
    | true =>
      rw [stripLines_blank s hb]
      split
      · have hle : textSize (stripLines s) ≤ textSize s := (stripLines_sublist s).countP_le
        right
        rw [textSize_cons, isBreak_of_isBlank hb]
        simp only [Bool.false_eq_true, if_false]
        omega
      · exact hstays

/-- Text put behind what the machine has read stays behind what it reads next. -/
theorem Stripped.cons_append (b : UInt8) (x : Stripped) (t : Bytes) :
    Stripped.cons b { x with text := x.text ++ t } =
      { Stripped.cons b x with text := (Stripped.cons b x).text ++ t } := by
  unfold Stripped.cons
  split
  · split <;> rfl
  · rfl

/-- After an octet that is no white space, the machine has forgotten what it read before. -/
theorem stripped_append {s t : Bytes} (hne : s ≠ []) (hs : EndsInText s) :
    stripped (s ++ t) = { stripped s with text := stripLines s ++ stripLines t } := by
  induction s with
  | nil => exact absurd rfl hne
  | cons b rest ih =>
    cases rest with
    | nil =>
      have hpadding : isPadding b = false := hs b rfl
      have hb : isBlank b = false ∧ b ≠ cr ∧ b ≠ lf := by
        simp only [isPadding, isSpacing, Bool.or_eq_false_iff, beq_eq_false_iff_ne] at hpadding
        exact ⟨hpadding.1.1.1.1, hpadding.1.1.1.2, hpadding.1.1.2⟩
      rw [List.singleton_append, stripped_octet t hb.1 hb.2.1 hb.2.2, stripLines_eq [b],
        stripped_octet [] hb.1 hb.2.1 hb.2.2]
      rfl
    | cons c more =>
      have hrest : EndsInText (c :: more) := by
        intro d hd
        exact hs d (by rw [List.getLast?_cons_cons]; exact hd)
      rw [List.cons_append, stripped_cons, ih (by simp) hrest, stripLines_eq (c :: more),
        Stripped.cons_append, stripLines_eq (b :: c :: more), stripped_cons b (c :: more)]

/-- Parts are stripped apart if the first one ends in text. -/
theorem stripLines_append {s t : Bytes} (hne : s ≠ []) (hs : EndsInText s) :
    stripLines (s ++ t) = stripLines s ++ stripLines t := by
  rw [stripLines_eq, stripped_append hne hs]

/-- Where a text is stripped already, so is its front, up to an octet that is no padding. -/
theorem stripLines_front {s t : Bytes} (hs : EndsInText s) (h : stripLines (s ++ t) = s ++ t) :
    stripLines s = s := by
  by_cases hne : s = []
  · rw [hne, stripLines_nil]
  · rw [stripLines_append hne hs] at h
    -- neither part can grow, so neither of them shrinks
    have hs' := (stripLines_sublist s).length_le
    have ht' := (stripLines_sublist t).length_le
    have hlength := congrArg List.length h
    rw [List.length_append, List.length_append] at hlength
    exact (List.append_inj h (by omega)).1

section

variable {eol : LineEnding} {s : Bytes}

/-- Line breaks stay uniform. -/
theorem uniform_stripLines (h : Uniform eol s) : Uniform eol (stripLines s) := by
  induction h with
  | nil => exact .nil
  | @octet b s hcr hlf _ ih =>
    cases hb : isBlank b with
    | true =>
      rw [stripLines_blank s hb]
      split
      · exact ih
      · exact .octet hcr hlf ih
    | false =>
      rw [stripLines_not_blank s hb]
      exact .octet hcr hlf ih
  | @lineBreak s _ ih =>
    rw [stripLines_eq, (stripped_lineBreak eol s).1]
    exact .lineBreak ih

/-- On what it leaves, the machine ends as it did before: no blank is at the end of a line now that
was not before. -/
theorem stripped_stripLines (h : Uniform eol s) :
    (stripped (stripLines s)).text = stripLines s ∧
      (stripped (stripLines s)).endsLine = (stripped s).endsLine := by
  induction h with
  | nil => exact ⟨rfl, rfl⟩
  | @octet b s hcr hlf _ ih =>
    obtain ⟨htext, hends⟩ := ih
    cases hb : isBlank b with
    | true =>
      rw [stripLines_eq (b :: s), stripped_blank s hb]
      cases hline : (stripped s).endsLine with
      | true => exact ⟨htext, hends.trans hline⟩
      | false =>
        -- the blank stays, and what comes after it still does not end the line
        have hagain : (stripped (stripLines s)).endsLine = false := hends.trans hline
        simp only [Bool.false_eq_true, if_false]
        rw [stripped_blank _ hb, hagain, stripLines_eq (stripLines s), htext]
        exact ⟨rfl, rfl⟩
    | false =>
      rw [stripLines_eq (b :: s), stripped_octet s hb hcr hlf, stripped_octet _ hb hcr hlf,
        stripLines_eq (stripLines s), htext]
      exact ⟨rfl, rfl⟩
  | @lineBreak s _ ih =>
    obtain ⟨hbreak, hbreakEnds⟩ := stripped_lineBreak eol s
    obtain ⟨hagain, hagainEnds⟩ := stripped_lineBreak eol (stripLines s)
    rw [stripLines_eq (eol.bytes ++ s), hbreak, hbreakEnds]
    refine ⟨?_, hagainEnds⟩
    rw [hagain, stripLines_eq (stripLines s), ih.1]

/-- Where line breaks are uniform, one stripping is enough. -/
theorem stripLines_stripLines (h : Uniform eol s) : stripLines (stripLines s) = stripLines s :=
  (stripped_stripLines h).1

/-- The line break for the end of the text is the one that the text has. -/
theorem firstLineEnding_of_uniform (h : Uniform eol s) : (firstLineEnding? s).getD eol = eol := by
  induction h with
  | nil => rfl
  | @octet b s hcr hlf _ ih => simpa [firstLineEnding?, hcr, hlf] using ih
  | lineBreak _ _ => cases eol <;> simp [LineEnding.bytes, firstLineEnding?, nextIs, lf_ne_cr.symm]

/-! ## The whole rule -/

/-- After stripping, the rule may add a line break at the end, and otherwise only leaves octets
out. -/
theorem textSize_tidyWhitespace_le_stripLines (native : LineEnding) (s : Bytes) :
    textSize (tidyWhitespace native s) ≤ textSize (stripLines s) := by
  have hle : textSize (trimEnd (stripLines s)) ≤ textSize (stripLines s) :=
    (List.rdropWhile_prefix isPadding (stripLines s)).sublist.countP_le
  simp only [tidyWhitespace]
  split
  · exact Nat.zero_le _
  · rw [textSize_append, textSize_lineEnding]
    exact hle

/-- The rule adds no text. -/
theorem textSize_tidyWhitespace_le (native : LineEnding) (s : Bytes) :
    textSize (tidyWhitespace native s) ≤ textSize s :=
  (textSize_tidyWhitespace_le_stripLines native s).trans (stripLines_sublist s).countP_le

/-- What the rule leaves of a text with one kind of line break. -/
theorem tidyWhitespace_of_uniform (h : Uniform eol s) :
    tidyWhitespace eol s =
      if trimEnd (stripLines s) = [] then [] else trimEnd (stripLines s) ++ eol.bytes := by
  simp [tidyWhitespace, firstLineEnding_of_uniform (uniform_stripLines h), List.isEmpty_iff]

/-- Such a text keeps its line breaks. -/
theorem uniform_tidyWhitespace (h : Uniform eol s) : Uniform eol (tidyWhitespace eol s) := by
  rw [tidyWhitespace_of_uniform h]
  split
  · exact .nil
  · exact (uniform_trimEnd (uniform_stripLines h)).append .bytes

/-- The rule leaves nothing for a second run. -/
theorem tidyWhitespace_tidyWhitespace (h : Uniform eol s) :
    tidyWhitespace eol (tidyWhitespace eol s) = tidyWhitespace eol s := by
  have htidy := uniform_tidyWhitespace h
  rw [tidyWhitespace_of_uniform h] at htidy ⊢
  split
  · rfl
  · next hne =>
    rw [if_neg hne] at htidy
    have hends := endsInText_trimEnd (stripLines s)
    have hfront : stripLines (trimEnd (stripLines s)) = trimEnd (stripLines s) := by
      obtain ⟨padding, hpadding, -⟩ := exists_trimEnd_append (stripLines s)
      apply stripLines_front hends (t := padding)
      rw [hpadding, stripLines_stripLines h]
    have hstrip : stripLines (trimEnd (stripLines s) ++ eol.bytes) =
        trimEnd (stripLines s) ++ eol.bytes := by
      rw [stripLines_append hne hends, hfront, stripLines_lineEnding]
    have htrim : trimEnd (trimEnd (stripLines s) ++ eol.bytes) = trimEnd (stripLines s) :=
      trimEnd_append hends fun _ hb => isPadding_of_isBreak (isBreak_of_mem_bytes hb)
    rw [tidyWhitespace_of_uniform htidy, hstrip, htrim, if_neg hne]

end

/-! ## A second run on any text -/

/-- The first line break is found in the first part that has one. -/
theorem firstLineEnding?_append {s t : Bytes} (h : CleanCut s t) :
    firstLineEnding? (s ++ t) = (firstLineEnding? s).or (firstLineEnding? t) := by
  induction s with
  | nil => rfl
  | cons b rest ih =>
    rw [List.cons_append, firstLineEnding?, firstLineEnding?, ih h.tail]
    by_cases hcr : b = cr
    · subst hcr
      rw [h.nextIs_eq]
      cases nextIs lf rest <;> simp [lf_ne_cr.symm]
    · by_cases hlf : b = lf <;> simp [hlf, hcr]

theorem firstLineEnding?_bytes (eol : LineEnding) : firstLineEnding? eol.bytes = some eol := by
  cases eol <;> decide

/-- With the line break that the rule puts in the place of the padding, it would choose the same one
again. -/
theorem firstLineEnding?_chosen (native : LineEnding) {s : Bytes} (padding : Bytes)
    (hs : EndsInText s) :
    (firstLineEnding? (s ++ ((firstLineEnding? (s ++ padding)).getD native).bytes)).getD native =
      (firstLineEnding? (s ++ padding)).getD native := by
  have hcut : ∀ t, CleanCut s t := fun t => Or.inl (hs.getLast?_ne (by decide))
  rw [firstLineEnding?_append (hcut _), firstLineEnding?_append (hcut _), firstLineEnding?_bytes]
  cases firstLineEnding? s <;> simp

/-- Where nothing is left to strip, the rule does not change what it has made of a text. -/
theorem tidyWhitespace_of_stripped (native : LineEnding) {s : Bytes}
    (h : stripLines (tidyWhitespace native s) = tidyWhitespace native s) :
    tidyWhitespace native (tidyWhitespace native s) = tidyWhitespace native s := by
  obtain ⟨padding, hpadding, -⟩ := exists_trimEnd_append (stripLines s)
  have hends := endsInText_trimEnd (stripLines s)
  by_cases hempty : trimEnd (stripLines s) = []
  · have honce : tidyWhitespace native s = [] := by simp [tidyWhitespace, hempty]
    rw [honce]
    rfl
  · have honce : tidyWhitespace native s =
        trimEnd (stripLines s) ++ ((firstLineEnding? (stripLines s)).getD native).bytes := by
      simp [tidyWhitespace, hempty]
    have htrim : trimEnd (tidyWhitespace native s) = trimEnd (stripLines s) := by
      rw [honce]
      exact trimEnd_append hends fun _ hb => isPadding_of_isBreak (isBreak_of_mem_bytes hb)
    have hbreak := firstLineEnding?_chosen native padding hends
    rw [hpadding, ← honce] at hbreak
    rw [tidyWhitespace, h, htrim, hbreak, honce]
    simp [hempty]

/-- A second run of the rule changes nothing, or finds blanks that a carriage return alone has
hidden from the first one. -/
theorem tidyWhitespace_again (native : LineEnding) (s : Bytes) :
    tidyWhitespace native (tidyWhitespace native s) = tidyWhitespace native s ∨
      textSize (tidyWhitespace native (tidyWhitespace native s)) <
        textSize (tidyWhitespace native s) := by
  rcases stripLines_eq_or_lt (tidyWhitespace native s) with hstrip | hstrip
  · exact Or.inl (tidyWhitespace_of_stripped native hstrip)
  · exact Or.inr ((textSize_tidyWhitespace_le_stripLines native _).trans_lt hstrip)

end SourceTidy
