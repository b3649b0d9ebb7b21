import SourceTidy.Proofs.TagBlanks

/-! # Blanks in templates

Blanks before line breaks, and white space at the end, make no difference to the check of a
template. The two scans see different texts, in strings, comments and regions without tags too. They
are related step by step.

* `tagEnd?_stripLines`: a tag ends at the same brace;
* `ReadsAlike`: texts that a scan steps through side by side;
* `readsAlike_stripping`, `readsAlike_padding`: a stripped text, and one without white space at its
  end;
* `whitespace_keeps_check`: so the check comes to the same answer, on the same line.
-/

namespace SourceTidy.Template

open Ascii Bytes

/-! ## What a brace starts -/

theorem isWord_closeBrace : IsWord [closeBrace] := ⟨by decide, none_of_any (by decide)⟩

section

variable {depth : Nat} {quote : Option UInt8} {s : Bytes} {b : UInt8}

theorem tagEnd?_endQuote (depth : Nat) (q : UInt8) (s : Bytes) :
    tagEnd? depth (some q) (q :: s) = (tagEnd? depth none s).map (· + 1) := by
  rw [tagEnd?.eq_def depth (some q) (q :: s)]
  exact if_pos rfl

theorem tagEnd?_escape (depth : Nat) {q : UInt8} (hq : backslash ≠ q) (b : UInt8) (s : Bytes) :
    tagEnd? depth (some q) (backslash :: b :: s) = (tagEnd? depth (some q) s).map (· + 2) := by
  rw [tagEnd?.eq_def depth (some q) (backslash :: b :: s)]
  exact if_neg hq

theorem tagEnd?_quoted (depth : Nat) {q : UInt8} (hq : b ≠ q) (hb : b ≠ backslash) (s : Bytes) :
    tagEnd? depth (some q) (b :: s) = (tagEnd? depth (some q) s).map (· + 1) := by
  rw [tagEnd?.eq_def depth (some q) (b :: s)]
  exact (if_neg hq).trans (if_neg hb)

theorem tagEnd?_startQuote (depth : Nat) (hb : (b = singleQuote || b = doubleQuote) = true)
    (s : Bytes) :
    tagEnd? depth none (b :: s) = (tagEnd? depth (some b) s).map (· + 1) := by
  rw [tagEnd?.eq_def depth none (b :: s)]
  exact if_pos hb

theorem tagEnd?_openBrace (depth : Nat) (s : Bytes) :
    tagEnd? depth none (openBrace :: s) = (tagEnd? (depth + 1) none s).map (· + 1) := by
  rw [tagEnd?.eq_def depth none (openBrace :: s)]
  rfl

theorem tagEnd?_closeBrace (depth : Nat) (s : Bytes) :
    tagEnd? (depth + 1) none (closeBrace :: s) = (tagEnd? depth none s).map (· + 1) := by
  rw [tagEnd?.eq_def (depth + 1) none (closeBrace :: s)]
  rfl

theorem tagEnd?_here (s : Bytes) : tagEnd? 0 none (closeBrace :: s) = some 0 := by
  rw [tagEnd?.eq_def 0 none (closeBrace :: s)]
  rfl

theorem tagEnd?_code (depth : Nat) (hb : ¬ (b = singleQuote || b = doubleQuote) = true)
    (hopen : b ≠ openBrace) (hclose : b ≠ closeBrace) (s : Bytes) :
    tagEnd? depth none (b :: s) = (tagEnd? depth none s).map (· + 1) := by
  rw [tagEnd?.eq_def depth none (b :: s)]
  exact (if_neg hb).trans ((if_neg hopen).trans (if_neg hclose))

theorem unquoted : ∀ q ∈ (none : Option UInt8), isSpacing q = false := by simp

/-- No quote that starts a string is white space. -/
theorem quoted (hb : (b = singleQuote || b = doubleQuote) = true) :
    ∀ q ∈ some b, isSpacing q = false := by
  rintro q ⟨⟩
  simp only [Bool.or_eq_true, decide_eq_true_eq] at hb
  rcases hb with rfl | rfl <;> decide

/-- White space is neither a quote nor a brace. -/
theorem tagEnd?_spacing (depth : Nat) (hquote : ∀ q ∈ quote, isSpacing q = false)
    (hb : isSpacing b = true) (s : Bytes) :
    tagEnd? depth quote (b :: s) = (tagEnd? depth quote s).map (· + 1) := by
  have hne : ∀ {c : UInt8}, isSpacing c = false → b ≠ c := fun hc => ne_of_isSpacing hb hc
  cases quote with
  | none =>
    have hsingle : b ≠ singleQuote := hne (by decide)
    have hdouble : b ≠ doubleQuote := hne (by decide)
    exact tagEnd?_code depth (by simp [hsingle, hdouble]) (hne (by decide)) (hne (by decide)) s
  | some q => exact tagEnd?_quoted depth (hne (hquote q rfl)) (hne (by decide)) s

/-- A tag ends where it did before. -/
theorem tagEnd?_stripLines (depth : Nat) (hquote : ∀ q ∈ quote, isSpacing q = false) (s : Bytes) :
    Strips [closeBrace] s (tagEnd? depth quote s) (tagEnd? depth quote (stripLines s)) := by
  have hword := isWord_closeBrace
  have hbackslash : isBlank backslash = false := by decide
  have hopen : isBlank openBrace = false := by decide
  have hclose : isBlank closeBrace = false := by decide
  fun_induction tagEnd? depth quote s with
  | case1 => exact strips_none _ _
  | case2 depth rest q ih =>
    have htext := isBlank_of_not_isSpacing (hquote q rfl)
    rw [stripLines_not_blank _ htext, tagEnd?_endQuote]
    exact (ih unquoted).cons_text hword htext
  | case3 depth q hq =>
    have hend : tagEnd? depth (some q) (stripLines [backslash]) = none := by
      rw [stripLines_not_blank _ hbackslash, stripLines_nil]
      simp [tagEnd?, hq]
    rw [hend]
    exact strips_none _ _
  | case4 depth q c rest hq ih =>
    -- if the blank after the backslash is stripped, the line break is skipped in its place, and it
    -- is not the end of the string
    have hboth := ((ih hquote).cons hword c).cons_text hword hbackslash
    rw [Option.map_map] at hboth
    rw [stripLines_not_blank _ hbackslash, stripLines_cons]
    cases hstripped : isStripped c rest with
    | true =>
      have hends := hstripped
      rw [isStripped, Bool.and_eq_true] at hends
      obtain ⟨d, t, ht, hd⟩ := exists_break_of_endsLine hends.2
      rw [hstripped, if_pos rfl, ht, tagEnd?_spacing depth hquote (isSpacing_of_isBreak hd),
        Option.map_map] at hboth
      rw [if_pos rfl, ht, tagEnd?_escape depth hq]
      exact hboth
    | false =>
      rw [hstripped, if_neg Bool.false_ne_true, Option.map_map] at hboth
      rw [if_neg Bool.false_ne_true, tagEnd?_escape depth hq]
      exact hboth
  | case5 depth b rest q hq hb ih =>
    exact (ih hquote).pass hword fun _ => tagEnd?_quoted depth hq hb _
  | case6 depth b rest hb ih =>
    have htext := isBlank_of_not_isSpacing (quoted hb b rfl)
    rw [stripLines_not_blank _ htext, tagEnd?_startQuote depth hb]
    exact (ih (quoted hb)).cons_text hword htext
  | case7 depth rest _ ih =>
    rw [stripLines_not_blank _ hopen, tagEnd?_openBrace]
    exact (ih unquoted).cons_text hword hopen
  | case8 rest _ _ =>
    rw [stripLines_not_blank _ hclose, tagEnd?_here]
    exact strips_zero (by simp)
  | case9 rest depth _ _ ih =>
    rw [stripLines_not_blank _ hclose, tagEnd?_closeBrace]
    exact (ih unquoted).cons_text hword hclose
  | case10 depth b rest hb hne hne' ih =>
    exact (ih unquoted).pass hword fun _ => tagEnd?_code depth hb hne hne' _

end

/-! ## Scans of two texts -/

/-- What two scans find differs in the arguments of tags only. -/
structure SameScan (x y : List Placed × Ending) : Prop where
  tags : List.Forall₂ (fun t t' => t.tag.Alike t'.tag ∧ t.line = t'.line) x.1 y.1
  ending : x.2 = y.2

/-- After `n` octets of one text and `n'` of the other both are over, or go on as related texts, on
the same line. -/
inductive Resumes (R : Bytes → Bytes → Prop) (s t : Bytes) (n n' : Nat) : Prop where
  | ended (hs : s.drop n = []) (ht : t.drop n' = [])
  | on (rest : R (s.drop n) (t.drop n')) (lines : lineBreaks (s.take n) = lineBreaks (t.take n'))

/-- A brace starts the same in two texts. -/
inductive SameMark (R : Bytes → Bytes → Prop) (s t : Bytes) : Mark → Mark → Prop where
  | text : SameMark R s t .text .text
  | skipped {n n' : Nat} : Resumes R s t n n' → SameMark R s t (.skipped n) (.skipped n')
  | tag {tag tag' : Tag} {n n' : Nat} : tag.Alike tag' → Resumes R s t n n' →
      SameMark R s t (.tag tag n) (.tag tag' n')
  | openComment : SameMark R s t .openComment .openComment
  | openTag : SameMark R s t .openTag .openTag

/-- How two related texts start: white space that is over or a blank is in the first one only. -/
inductive Starts (R : Bytes → Bytes → Prop) : Bytes → Bytes → Prop where
  | ended {s : Bytes} : (∀ b ∈ s, isSpacing b = true) → Starts R s []
  | blank {s t : Bytes} {b : UInt8} : isBlank b = true → R s t → Starts R (b :: s) t
  | both {s t : Bytes} (b : UInt8) : R s t → Starts R (b :: s) (b :: t)

/-- A scan steps through related texts side by side. -/
structure ReadsAlike (R : Bytes → Bytes → Prop) : Prop where
  starts : ∀ {s t}, R s t → Starts R s t
  mark : ∀ {s t}, R s t → SameMark R s t (mark s) (mark t)

/-- Octets that are to be skipped are as good as gone. -/
theorem scanFrom_drop (line n : Nat) (s : Bytes) :
    scanFrom line n s = scanFrom line 0 (s.drop n) := by
  induction n generalizing s with
  | zero => rfl
  | succ n ih =>
    cases s with
    | nil => simp [scanFrom]
    | cons b s => rw [scanFrom, ih, List.drop_succ_cons]

theorem scanFrom_text (line : Nat) {b : UInt8} (hlf : b ≠ lf) (hb : b ≠ openBrace) (s : Bytes) :
    scanFrom line 0 (b :: s) = scanFrom line 0 s := by
  rw [scanFrom, if_neg hlf, if_neg hb]

/-- In white space there is nothing to find. -/
theorem scanFrom_spacing (line : Nat) {s : Bytes} (hs : ∀ b ∈ s, isSpacing b = true) :
    scanFrom line 0 s = ([], .complete) := by
  induction s generalizing line with
  | nil => rfl
  | cons b s ih =>
    rw [List.forall_mem_cons] at hs
    have hopen : b ≠ openBrace := by
      rintro rfl
      cases hs.1
    rw [scanFrom, if_neg hopen, ih _ hs.2, ih _ hs.2, ite_self]

section

variable {R : Bytes → Bytes → Prop}

/-- The step of a scan at a brace, given that the scans agree on all shorter texts. -/
theorem scanFrom_resume {s t : Bytes} {n n' : Nat} (line : Nat) (h : Resumes R s t n n')
    (ih : ∀ line t', R (s.drop n) t' → SameScan (scanFrom line 0 (s.drop n)) (scanFrom line 0 t')) :
    SameScan (scanFrom (line + lineBreaks (s.take n)) n s)
      (scanFrom (line + lineBreaks (t.take n')) n' t) := by
  rw [scanFrom_drop, scanFrom_drop _ n']
  cases h with
  | ended hs ht =>
    rw [hs, ht]
    exact ⟨.nil, rfl⟩
  | on rest lines =>
    rw [lines]
    exact ih _ _ rest

/-- A scan of related texts finds the same, from any line on. -/
theorem ReadsAlike.scanFrom (h : ReadsAlike R) (line : Nat) {s t : Bytes} (hst : R s t) :
    SameScan (scanFrom line 0 s) (scanFrom line 0 t) := by
  -- a mark may take any number of octets, so the induction is on the length
  induction hlength : s.length using Nat.strong_induction_on generalizing line s t with
  | _ length ih =>
  subst hlength
  cases h.starts hst with
  | ended hs =>
    rw [scanFrom_spacing line hs]
    exact ⟨.nil, rfl⟩
  | @blank s t b hb hrest =>
    have hlf : b ≠ lf := by
      rintro rfl
      cases hb
    have hopen : b ≠ openBrace := by
      rintro rfl
      cases hb
    rw [scanFrom_text line hlf hopen]
    exact ih _ (Nat.lt_succ_self _) line hrest rfl
  | @both s t b hrest =>
    have hresume : ∀ (n : Nat) (line : Nat) (t' : Bytes), R (s.drop n) t' →
        SameScan (Template.scanFrom line 0 (s.drop n)) (Template.scanFrom line 0 t') := by
      intro n line t' h
      refine ih _ ?_ line h rfl
      rw [List.length_drop, List.length_cons]
      omega
    rw [Template.scanFrom, Template.scanFrom]
    by_cases hlf : b = lf
    · rw [if_pos hlf, if_pos hlf]
      exact ih _ (Nat.lt_succ_self _) _ hrest rfl
    · rw [if_neg hlf, if_neg hlf]
      by_cases hopen : b = openBrace
      · rw [if_pos hopen, if_pos hopen]
        have hmark := h.mark hrest
        generalize Template.mark s = m at hmark ⊢
        generalize Template.mark t = m' at hmark ⊢
        cases hmark with
        | text => exact ih _ (Nat.lt_succ_self _) _ hrest rfl
        | skipped hafter => exact scanFrom_resume line hafter (hresume _)
        | tag halike hafter =>
          obtain ⟨htags, hending⟩ := scanFrom_resume line hafter (hresume _)
          exact ⟨.cons ⟨halike, rfl⟩ htags, hending⟩
        | openComment => exact ⟨.nil, rfl⟩
        | openTag => exact ⟨.nil, rfl⟩
      · rw [if_neg hopen, if_neg hopen]
        exact ih _ (Nat.lt_succ_self _) _ hrest rfl

end

/-! ## Stripped templates -/

section

variable {s : Bytes}

theorem isWord_endComment : IsWord [star, closeBrace] := ⟨by decide, none_of_any (by decide)⟩

theorem isWord_endSyntax : IsWord (ascii "\x7b/syntax\x7d") :=
  ⟨by decide, none_of_any (by decide)⟩

/-- Beyond a place of the text that is not stripped, both texts go on as before. -/
theorem resumes_of_beyond {n n' : Nat} (h : Beyond s n n') :
    Resumes Stripping s (stripLines s) n n' :=
  .on h.rest h.lines.symm

/-- White space after a brace does not make it open a tag, whichever it is. -/
theorem opensTag_of_isSpacing {b : UInt8} (h : isSpacing b = true) :
    (!(isTagSpacing b || b == singleQuote || b == doubleQuote || b == openBrace ||
      b == closeBrace)) = false := by
  simp [isTagSpacing, h]

/-- A brace starts the same in the stripped text, and what it starts has the same end. -/
theorem mark_stripLines (s : Bytes) :
    SameMark Stripping s (stripLines s) (mark s) (mark (stripLines s)) := by
  have hstars : nextIs star (stripLines s) = nextIs star s := by
    rw [nextIs_eq_nextIn, nextIs_eq_nextIn]
    exact nextIn_stripLines (fun b hb => beq_false_of_ne (ne_of_isSpacing hb (by decide))) s
  -- what a brace starts depends on the octet after it; a blank may be stripped there, but it would
  -- start nothing, and neither does the line break behind it
  rw [mark, mark, hstars, opensTag, opensTag,
    nextIn_stripLines (fun _ => opensTag_of_isSpacing)]
  split_ifs with hstar hopens
  · -- a comment
    obtain ⟨s', rfl⟩ : ∃ s', s = star :: s' := by
      rw [nextIs, beq_iff_eq] at hstar
      exact List.head?_eq_some_iff.mp hstar
    have hblank : isBlank star = false := by decide
    rw [stripLines_not_blank _ hblank, List.drop_one, List.drop_one, List.tail_cons, List.tail_cons]
    rcases (indexOf?_stripLines isWord_endComment s').eq_none_or_eq_some with
      ⟨hnone, hnone'⟩ | ⟨n, n', hsome, hsome', hfound⟩
    · rw [hnone, hnone']
      exact .openComment
    · rw [hsome, hsome', ← stripLines_not_blank _ hblank]
      exact .skipped
        (resumes_of_beyond ((hfound.cons_text isWord_endComment hblank).beyond isWord_endComment))
  -- text, as nothing follows that a tag can start with
  · exact .text
  · rcases (tagEnd?_stripLines 0 unquoted s).eq_none_or_eq_some with
      ⟨hnone, hnone'⟩ | ⟨n, n', hsome, hsome', hfound⟩
    · rw [hnone, hnone']
      exact .openTag
    · have hend : Beyond s (n + 1) (n' + 1) := hfound.beyond isWord_closeBrace
      -- what is in the tag is stripped as well, and the arguments may change by that
      have halike : (Tag.parse (s.take n)).Alike (Tag.parse ((stripLines s).take n')) := by
        obtain rfl : n' = strippedOffset s n := Option.some.inj hfound.moved
        rw [(take_strippedOffset (isWord_closeBrace.startsInText (hfound.there n rfl))).1]
        exact alike_parse _
      rw [hsome, hsome']
      simp only [← halike.switchesOff_eq, hend.rest]
      split
      · -- tags are switched off
        rcases (indexOf?_stripLines isWord_endSyntax (s.drop (n + 1))).eq_none_or_eq_some with
          ⟨hnone, hnone'⟩ | ⟨m, m', hm, hm', hfound'⟩
        · rw [hnone, hnone']
          exact .skipped (resumes_of_beyond (beyond_length s))
        · rw [hm, hm']
          exact .skipped (resumes_of_beyond (hend.add (hfound'.beyond isWord_endSyntax)))
      · exact .tag halike (resumes_of_beyond hend)

/-- A text and the same text without blanks before line breaks are read alike. -/
theorem readsAlike_stripping : ReadsAlike Stripping where
  starts := by
    rintro s _ rfl
    rcases stripping_cases s with rfl | ⟨b, rest, rfl, hb, hstrip⟩ | ⟨b, rest, rfl, hstrip⟩
    · exact .ended (by simp)
    · rw [hstrip]
      exact .blank hb rfl
    · rw [hstrip]
      exact .both b rfl
  mark := by
    rintro s _ rfl
    exact mark_stripLines s

end

/-! ## White space at the end of a template -/

section

variable {depth : Nat} {quote : Option UInt8} {s padding : Bytes}

/-- No tag ends in white space. -/
theorem tagEnd?_of_isSpacing (depth : Nat) (hquote : ∀ q ∈ quote, isSpacing q = false)
    (hpadding : ∀ b ∈ padding, isSpacing b = true) : tagEnd? depth quote padding = none := by
  induction padding with
  | nil => exact tagEnd?.eq_def depth quote []
  | cons b padding ih =>
    rw [List.forall_mem_cons] at hpadding
    rw [tagEnd?_spacing depth hquote hpadding.1, ih hpadding.2]
    rfl

/-- White space after the template is not where a tag ends. -/
theorem tagEnd?_append_spacing (depth : Nat) (hquote : ∀ q ∈ quote, isSpacing q = false)
    (hpadding : ∀ b ∈ padding, isSpacing b = true) (s : Bytes) :
    tagEnd? depth quote (s ++ padding) = tagEnd? depth quote s := by
  fun_induction tagEnd? depth quote s with
  | case1 depth => exact tagEnd?_of_isSpacing depth hquote hpadding
  | case2 depth rest q ih => rw [List.cons_append, tagEnd?_endQuote, ih unquoted]
  | case3 depth q hq =>
    -- the template ends after a backslash, which takes the first octet of the white space
    cases padding with
    | nil => simp [tagEnd?, hq]
    | cons b padding =>
      rw [List.forall_mem_cons] at hpadding
      rw [List.cons_append, List.nil_append, tagEnd?_escape depth hq,
        tagEnd?_of_isSpacing depth hquote hpadding.2]
      rfl
  | case4 depth q c rest hq ih => rw [List.cons_append, List.cons_append,
      tagEnd?_escape depth hq, ih hquote]
  | case5 depth b rest q hq hb ih => rw [List.cons_append, tagEnd?_quoted depth hq hb, ih hquote]
  | case6 depth b rest hb ih =>
    rw [List.cons_append, tagEnd?_startQuote depth hb, ih (quoted hb)]
  | case7 depth rest _ ih => rw [List.cons_append, tagEnd?_openBrace, ih unquoted]
  | case8 rest _ _ => rw [List.cons_append, tagEnd?_here]
  | case9 rest depth _ _ ih => rw [List.cons_append, tagEnd?_closeBrace, ih unquoted]
  | case10 depth b rest hb hne hne' ih =>
    rw [List.cons_append, tagEnd?_code depth hb hne hne', ih unquoted]

/-- A text with and without white space at its end. -/
def Padding (s t : Bytes) : Prop :=
  ∃ padding, (∀ b ∈ padding, isSpacing b = true) ∧ s = t ++ padding

/-- After a part of the text both go on with the rest of it. -/
theorem resumes_of_le {n : Nat} (hpadding : ∀ b ∈ padding, isSpacing b = true) (hn : n ≤ s.length) :
    Resumes Padding (s ++ padding) s n n := by
  refine .on ⟨padding, hpadding, ?_⟩ ?_
  · exact List.drop_append_of_le_length hn
  · rw [List.take_append_of_le_length hn]

/-- White space after the template makes no difference to what a brace starts. -/
theorem mark_append_spacing (hpadding : ∀ b ∈ padding, isSpacing b = true) (s : Bytes) :
    SameMark Padding (s ++ padding) s (mark (s ++ padding)) (mark s) := by
  have hstars : nextIs star (s ++ padding) = nextIs star s := by
    rw [nextIs_eq_nextIn, nextIs_eq_nextIn]
    exact nextIn_append_spacing
      (fun b hb => beq_false_of_ne (ne_of_isSpacing hb (by decide))) hpadding s
  rw [mark, mark, hstars, opensTag, opensTag,
    nextIn_append_spacing (fun _ => opensTag_of_isSpacing) hpadding]
  split_ifs with hstar hopens
  -- a comment; all ends that are found lie in the template, since none of them has white space in
  -- it
  · obtain ⟨s', rfl⟩ : ∃ s', s = star :: s' := by
      rw [nextIs, beq_iff_eq] at hstar
      exact List.head?_eq_some_iff.mp hstar
    simp only [List.cons_append, List.drop_succ_cons, List.drop_zero,
      indexOf?_append_spacing isWord_endComment hpadding]
    cases hn : indexOf? [star, closeBrace] s' with
    | none => exact .openComment
    | some n =>
      have hle := (indexOf?_stripLines isWord_endComment s').add_length_le isWord_endComment hn
      exact .skipped (resumes_of_le (s := star :: s') hpadding (Nat.succ_le_succ hle))
  · exact .text
  · rw [tagEnd?_append_spacing 0 unquoted hpadding]
    cases hn : tagEnd? 0 none s with
    | none => exact .openTag
    | some n =>
      have hle : n + 1 ≤ s.length :=
        (tagEnd?_stripLines 0 unquoted s).add_length_le isWord_closeBrace hn
      simp only [List.take_append_of_le_length (Nat.le_of_succ_le hle),
        List.drop_append_of_le_length hle, indexOf?_append_spacing isWord_endSyntax hpadding]
      split
      · cases hm : indexOf? (ascii "\x7b/syntax\x7d") (s.drop (n + 1)) with
        -- tags are switched off for all that is left
        | none => exact .skipped (.ended (by simp) (by simp))
        | some m =>
          have hle' := (indexOf?_stripLines isWord_endSyntax (s.drop (n + 1))).add_length_le
            isWord_endSyntax hm
          have hall : n + 1 + (m + 9) ≤ s.length := by
            rw [List.length_drop] at hle'
            exact Nat.add_le_of_le_sub' hle hle'
          exact .skipped (resumes_of_le hpadding hall)
      · exact .tag ⟨rfl, rfl, rfl, .refl _⟩ (resumes_of_le hpadding hle)

/-- A text with and without white space at its end. -/
theorem readsAlike_padding : ReadsAlike Padding where
  starts := by
    rintro _ t ⟨padding, hpadding, rfl⟩
    cases t with
    | nil => exact .ended hpadding
    | cons b t => exact .both b ⟨padding, hpadding, rfl⟩
  mark := by
    rintro _ t ⟨padding, hpadding, rfl⟩
    exact mark_append_spacing hpadding t

end

/-! ## The check -/

section

variable {R : Bytes → Bytes → Prop} {s t : Bytes}

/-- The arguments of tags play no part when they are nested. -/
theorem foldlM_accept_eq {tags tags' : List Placed}
    (h : List.Forall₂ (fun t t' => t.tag.Alike t'.tag ∧ t.line = t'.line) tags tags')
    (stack : List OpenTag) : tags.foldlM accept stack = tags'.foldlM accept stack := by
  induction h generalizing stack with
  | nil => rfl
  | @cons t t' tags tags' htag _ ih =>
    obtain ⟨halike, hline⟩ := htag
    have haccept : accept stack t = accept stack t' := by
      rw [show t' = ⟨t'.tag, t.line⟩ by rw [hline]]
      exact halike.accept_eq stack t.line
    rw [List.foldlM_cons, List.foldlM_cons, haccept]
    simp only [ih]

theorem ReadsAlike.check_eq (h : ReadsAlike R) (hst : R s t) : check s = check t := by
  obtain ⟨htags, hending⟩ := h.scanFrom 1 hst
  simp only [check, scan]
  rw [foldlM_accept_eq htags, hending]

/-- White space at the end of a template is not seen by the check. -/
theorem check_append_spacing {padding : Bytes} (hpadding : ∀ b ∈ padding, isSpacing b = true)
    (s : Bytes) : check (s ++ padding) = check s :=
  readsAlike_padding.check_eq ⟨padding, hpadding, rfl⟩

/-- A template without control characters is judged alike before and after its white space is
tidied. -/
theorem check_tidyWhitespace (native : LineEnding) (hclean : ∀ b ∈ s, Rule.isControl b = false) :
    check (tidyWhitespace native s) = check s := by
  obtain ⟨text, padding, eol, -, hparts, hpadding, htidy⟩ :=
    tidyWhitespace_parts native fun b hb => isSpacing_of_not_isControl (hclean b hb)
  have hbefore : check s = check text := by
    rw [readsAlike_stripping.check_eq (t := stripLines s) rfl, hparts,
      check_append_spacing hpadding]
  rw [htidy, hbefore]
  split
  · next hempty => rw [List.isEmpty_iff.mp hempty]
  · exact check_append_spacing (fun b hb => isSpacing_of_isBreak (isBreak_of_mem_bytes hb)) text

/-- Tidying the white space of a template changes nothing in what the check finds, nor in what is
reported of it. -/
theorem whitespace_keeps_check (native : LineEnding) (file : SourceFile)
    (hclean : ∀ b ∈ s, Rule.isControl b = false) :
    check ((Rule.whitespace native).apply file s) = check s ∧
      (Utf8.valid s = true → Rule.templateSyntax.run file ((Rule.whitespace native).apply file s) =
        Rule.templateSyntax.run file s) := by
  rw [(Rule.rewrites_whitespace native).apply_eq]
  have hcheck := check_tidyWhitespace native hclean
  refine ⟨hcheck, fun hvalid => ?_⟩
  have htidy : IsText (tidyWhitespace native s) := isText_tidyWhitespace ⟨hvalid, hclean⟩
  simp only [Rule.templateSyntax, hvalid, htidy.valid, hcheck]

/-- A template with blanks before line breaks in a tag, after a backslash in a string and in a
comment. -/
def untidyTemplate : Bytes :=
  ascii "\x7bif $a \n\x7d\x7b= '\\ \n\x7d'\x7d\x7b* \n*\x7d\x7b/block\x7d \n\n"

/-- The wrong closing tag is on the fourth line, before and after. -/
theorem whitespace_keeps_check_untidyTemplate :
    (Rule.whitespace .crlf).apply (.ofPath "a.latte") untidyTemplate =
      ascii "\x7bif $a\n\x7d\x7b= '\\\n\x7d'\x7d\x7b*\n*\x7d\x7b/block\x7d\n" ∧
    check ((Rule.whitespace .crlf).apply (.ofPath "a.latte") untidyTemplate) =
      .error (.malformed (.crossedClosing "block" "if") 4) ∧
    Rule.templateSyntax.run (.ofPath "a.latte")
        ((Rule.whitespace .crlf).apply (.ofPath "a.latte") untidyTemplate) =
      Rule.templateSyntax.run (.ofPath "a.latte") untidyTemplate := by
  have hclean : ∀ b ∈ untidyTemplate, Rule.isControl b = false := none_of_any (by decide)
  have hvalid : Utf8.valid untidyTemplate = true := by decide
  have hcheck : check untidyTemplate = .error (.malformed (.crossedClosing "block" "if") 4) := by
    decide +kernel
  obtain ⟨hsame, hrun⟩ := whitespace_keeps_check .crlf (.ofPath "a.latte") hclean
  refine ⟨?_, hsame.trans hcheck, hrun hvalid⟩
  rw [(Rule.rewrites_whitespace .crlf).apply_eq]
  decide +kernel

end

end SourceTidy.Template
