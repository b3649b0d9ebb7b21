import SourceTidy.Proofs.Pipeline
import SourceTidy.Proofs.TextLines
import SourceTidy.Rule.Standard

/-! # What the standard rules do to a file

Seven of the standard rules only report. The other four rewrite the content, one after the other: a
byte order mark goes, line breaks are made uniform, a closing tag goes, and white space is tidied.

* `Rule.IsStandard`: the lists of rules that this is about;
* `reportsChanges_of_isStandard`: each of the rules reports what it changes;
* `applyAll_of_isStandard`, `settled_iff_of_isStandard`: the rules together are the four rewritings;
* `tagless_normalizeLines`: the closing tag is the same whichever line breaks the file has.
-/

namespace SourceTidy

open Ascii Bytes

/-- The rules of a run with these options. What the decoders make of a text is left open, as the
documents they read are not the business of the other rules. -/
def Rule.IsStandard (options : RuleOptions) (rules : List Rule) : Prop :=
  ∃ decoders : List (String × Decoder), rules = Rule.ordered options decoders

/-- The rules of a run are such a list. -/
theorem Rule.isStandard_of_standard {options : RuleOptions} {rules : List Rule}
    (h : Rule.standard options = .ok rules) : Rule.IsStandard options rules := by
  unfold Rule.standard at h
  cases hfound : Rule.findDecoders options.configSyntax with
  | error name =>
    rw [hfound] at h
    cases h
  | ok decoders =>
    rw [hfound] at h
    cases h
    exact ⟨decoders, rfl⟩

/-! ## Rules that only report -/

/-- The rule replaces nothing, and none of its findings is a correction. -/
def Rule.OnlyReports (rule : Rule) : Prop :=
  ∀ file content, ∃ findings, rule.run file content = .found findings ∧
    ∀ d ∈ findings, d.isFix = false

/-- A rule that only reports leaves the content alone. -/
theorem Rule.OnlyReports.apply_eq {rule : Rule} (h : rule.OnlyReports) (file : SourceFile) :
    rule.apply file = id := by
  funext content
  obtain ⟨findings, hrun, -⟩ := h file content
  rw [Rule.apply, hrun]
  rfl

/-- Such a rule has nothing to report as changed. -/
theorem Rule.OnlyReports.reportsChanges {rule : Rule} (h : rule.OnlyReports) :
    rule.ReportsChanges := by
  intro file content
  obtain ⟨findings, hrun, hfindings⟩ := h file content
  have hquiet : (rule.run file content).hasFix = false := by
    rw [hrun]
    exact List.any_eq_false.mpr fun d hd => by simp [hfindings d hd]
  simp [hquiet, h.apply_eq file]

theorem reports_nothing :
    ∃ findings, Outcome.none = .found findings ∧ ∀ d ∈ findings, d.isFix = false :=
  ⟨[], rfl, by simp⟩

theorem reports_error (message : String) (line : Option Nat) :
    ∃ findings, Outcome.found [.error message line] = .found findings ∧
      ∀ d ∈ findings, d.isFix = false :=
  ⟨_, rfl, by simp [Diagnostic.error, Diagnostic.isFix]⟩

namespace Rule

theorem onlyReports_controlCharacters : controlCharacters.OnlyReports := by
  intro file content
  simp only [controlCharacters]
  split
  · exact reports_error _ _
  · exact reports_nothing

/-- A file that the rule does not refuse has no control character. -/
theorem isControl_of_controlCharacters {file : SourceFile} {content : Bytes}
    (h : (controlCharacters.run file content).hasError = false) :
    ∀ b ∈ content, isControl b = false := by
  simp only [controlCharacters] at h
  split at h
  · cases h
  · next hlength =>
    have hall : content.takeWhile (fun b => !isControl b) = content :=
      (List.takeWhile_prefix _).eq_of_length_le (by omega)
    simpa [List.takeWhile_eq_self_iff] using hall

theorem onlyReports_utf8 : utf8.OnlyReports := by
  intro file content
  simp only [utf8]
  split
  · exact reports_nothing
  · exact reports_error _ _

theorem onlyReports_phpdoc : phpdoc.OnlyReports := by
  intro file content
  refine ⟨_, rfl, ?_⟩
  intro d hd
  obtain ⟨t, -, rfl⟩ := List.mem_map.mp hd
  rfl

theorem onlyReports_escapeSequences : escapeSequences.OnlyReports := by
  intro file content
  refine ⟨_, rfl, ?_⟩
  intro d hd
  obtain ⟨t, -, hwarning⟩ := List.mem_filterMap.mp hd
  unfold escapeWarning? at hwarning
  split at hwarning
  · obtain ⟨sequence, -, rfl⟩ := Option.map_eq_some_iff.mp hwarning
    rfl
  · cases hwarning

theorem onlyReports_templateSyntax : templateSyntax.OnlyReports := by
  intro file content
  simp only [templateSyntax]
  split
  · split
    · exact reports_error _ _
    · exact reports_nothing
    · exact reports_nothing
  · exact reports_nothing

theorem onlyReports_configSyntax (decoders : List (String × Decoder)) :
    (configSyntax decoders).OnlyReports := by
  intro file content
  simp only [configSyntax]
  split
  · exact reports_nothing
  · split
    · split
      · exact reports_nothing
      · exact reports_error _ _
    · exact reports_nothing

/-- An error about the first line of a class is no correction. -/
theorem isFix_firstLineError {p : Bytes → Bool} {message : String} {content : Bytes}
    {d : Diagnostic} (h : d ∈ firstLineError p message content) : d.isFix = false := by
  unfold firstLineError at h
  split at h
  · rw [List.mem_singleton] at h
    rw [h]
    rfl
  · cases h

theorem onlyReports_indentation (extensions : List String) :
    (indentation extensions).OnlyReports := by
  intro file content
  simp only [indentation]
  split
  · refine ⟨_, rfl, ?_⟩
    intro d hd
    rcases List.mem_append.mp hd with hd | hd
    · exact isFix_firstLineError hd
    · exact isFix_firstLineError hd
  · exact reports_nothing

end Rule

/-! ## Four ways to rewrite a content -/

/-- The content without one byte order mark at its start. -/
def withoutMark (c : Bytes) : Bytes := if Rule.byteOrderMark <+: c then c.drop 3 else c

/-- The content up to a closing tag that only padding follows. -/
def withoutClosingTag (c : Bytes) : Bytes :=
  if [question, greater] <:+ trimEnd c then (trimEnd c).take ((trimEnd c).length - 2) else c

/-- Are the line breaks of the file made uniform? -/
def RuleOptions.unifies (options : RuleOptions) (file : SourceFile) : Bool :=
  options.eol && !file.hasExtension ["sh"]

/-- The content with `eol` for its line breaks, if these are made uniform. -/
def RuleOptions.unify (options : RuleOptions) (file : SourceFile) (eol : LineEnding) (c : Bytes) :
    Bytes :=
  if options.unifies file then normalizeLines eol.bytes c else c

/-- The content without its closing tag, if the file is a PHP file. -/
def tagless (file : SourceFile) (c : Bytes) : Bytes :=
  if file.hasExtension Rule.phpExtensions then withoutClosingTag c else c

/-- What is left after a text that comes first. -/
theorem isPrefixOf?_eq (p s : Bytes) :
    p.isPrefixOf? s = if p <+: s then some (s.drop p.length) else none := by
  induction p generalizing s with
  | nil => simp [List.isPrefixOf?]
  | cons a p ih =>
    cases s with
    | nil => simp [List.isPrefixOf?]
    | cons b s =>
      rw [List.isPrefixOf?, ih s]
      by_cases hab : a = b <;> simp [hab]

/-- A mark that is removed is text. -/
theorem textSize_withoutMark_lt {c : Bytes} (h : Rule.byteOrderMark <+: c) :
    textSize (withoutMark c) < textSize c := by
  obtain ⟨rest, rfl⟩ := h
  have hrest : withoutMark (Rule.byteOrderMark ++ rest) = rest := by
    rw [withoutMark, if_pos (List.prefix_append _ _)]
    rfl
  have hmark : textSize Rule.byteOrderMark = 3 := by decide
  rw [hrest, textSize_append, hmark]
  omega

/-- Either there is no mark, or text goes with it. -/
theorem withoutMark_eq_or_lt (c : Bytes) :
    withoutMark c = c ∨ textSize (withoutMark c) < textSize c := by
  by_cases h : Rule.byteOrderMark <+: c
  · exact Or.inr (textSize_withoutMark_lt h)
  · left
    rw [withoutMark, if_neg h]

theorem withoutMark_sublist (c : Bytes) : (withoutMark c).Sublist c := by
  unfold withoutMark
  split
  · exact List.drop_sublist 3 c
  · exact List.Sublist.refl c

/-- Without a closing tag nothing changes; otherwise the tag goes, with the padding after it. -/
theorem withoutClosingTag_cases (c : Bytes) :
    (¬ [question, greater] <:+ trimEnd c ∧ withoutClosingTag c = c) ∨
      ∃ front padding, c = front ++ [question, greater] ++ padding ∧
        (∀ b ∈ padding, isPadding b = true) ∧ withoutClosingTag c = front := by
  by_cases h : [question, greater] <:+ trimEnd c
  · right
    obtain ⟨padding, hc, hpadding⟩ := exists_trimEnd_append c
    obtain ⟨front, hfront⟩ := h
    refine ⟨front, padding, ?_, hpadding, ?_⟩
    · rw [hfront, hc]
    · rw [withoutClosingTag, if_pos ⟨front, hfront⟩, ← hfront]
      simp
  · left
    exact ⟨h, by rw [withoutClosingTag, if_neg h]⟩

/-- The closing tag that is removed is the last one. -/
theorem withoutClosingTag_append (front : Bytes) {padding : Bytes}
    (h : ∀ b ∈ padding, isPadding b = true) :
    withoutClosingTag (front ++ [question, greater] ++ padding) = front := by
  have hends : EndsInText (front ++ [question, greater]) := by
    intro b hb
    have hlast : greater = b := by simpa using hb
    rw [← hlast]
    decide
  rw [withoutClosingTag, trimEnd_append hends h, if_pos (List.suffix_append _ _)]
  simp

/-- A closing tag that is removed is text. -/
theorem textSize_withoutClosingTag_lt {c : Bytes} (h : [question, greater] <:+ trimEnd c) :
    textSize (withoutClosingTag c) < textSize c := by
  rcases withoutClosingTag_cases c with ⟨hno, -⟩ | ⟨front, padding, hc, -, hfront⟩
  · exact absurd h hno
  · have htag : textSize [question, greater] = 2 := by decide
    rw [hfront, hc, textSize_append, textSize_append, htag]
    omega

/-- Either there is no closing tag, or text goes with it. -/
theorem tagless_eq_or_lt (file : SourceFile) (c : Bytes) :
    tagless file c = c ∨ textSize (tagless file c) < textSize c := by
  unfold tagless
  split
  · by_cases h : [question, greater] <:+ trimEnd c
    · exact Or.inr (textSize_withoutClosingTag_lt h)
    · left
      rw [withoutClosingTag, if_neg h]
  · exact Or.inl rfl

theorem tagless_sublist (file : SourceFile) (c : Bytes) : (tagless file c).Sublist c := by
  unfold tagless
  split
  · rcases withoutClosingTag_cases c with ⟨-, h⟩ | ⟨front, padding, hc, -, h⟩
    · rw [h]
    · rw [h, hc, List.append_assoc]
      exact List.sublist_append_left front _
  · exact List.Sublist.refl c

/-- No line break is cut in two where a closing tag is removed. -/
theorem uniform_tagless {eol : LineEnding} {c : Bytes} (file : SourceFile) (h : Uniform eol c) :
    Uniform eol (tagless file c) := by
  unfold tagless
  split
  · rcases withoutClosingTag_cases c with ⟨-, htag⟩ | ⟨front, padding, hc, -, htag⟩
    · rw [htag]
      exact h
    · rw [htag]
      rw [hc, List.append_assoc] at h
      refine h.of_append (Or.inr ?_)
      rw [List.cons_append, List.head?_cons]
      decide
  · exact h

/-- A text that does not end in white space does not do so with other line breaks. -/
theorem endsInText_normalizeLines {eol : LineEnding} {s : Bytes} (h : EndsInText s) :
    EndsInText (normalizeLines eol.bytes s) := by
  rcases List.eq_nil_or_concat s with rfl | ⟨s', b, rfl⟩
  · exact h
  · rw [List.concat_eq_append] at h ⊢
    have hcr := h.getLast?_ne (b := cr) (by decide)
    have hlf := h.getLast?_ne (b := lf) (by decide)
    rw [normalizeLines_concat _ _ (by simpa using hcr) (by simpa using hlf)]
    intro c hc
    exact h c (by simpa using hc)

theorem isPadding_normalizeLines {eol : LineEnding} {padding : Bytes}
    (h : ∀ b ∈ padding, isPadding b = true) :
    ∀ b ∈ normalizeLines eol.bytes padding, isPadding b = true := by
  intro b hb
  rcases mem_normalizeLines hb with hb | hb
  · exact h b hb
  · exact isPadding_of_isBreak hb

/-- White space at the end can be trimmed before or after. -/
theorem trimEnd_normalizeLines (eol : LineEnding) (s : Bytes) :
    trimEnd (normalizeLines eol.bytes s) = normalizeLines eol.bytes (trimEnd s) := by
  obtain ⟨padding, hs, hpadding⟩ := exists_trimEnd_append s
  have hends := endsInText_trimEnd s
  -- a carriage return would be padding, so no line break lies across the cut
  have hcut : CleanCut (trimEnd s) padding := Or.inl (hends.getLast?_ne (by decide))
  conv => lhs; rw [← hs, normalizeLines_append _ hcut]
  exact trimEnd_append (endsInText_normalizeLines hends) (isPadding_normalizeLines hpadding)

/-- The closing tag is the same whichever line breaks the file has. -/
theorem withoutClosingTag_normalizeLines (eol : LineEnding) (c : Bytes) :
    withoutClosingTag (normalizeLines eol.bytes c) =
      normalizeLines eol.bytes (withoutClosingTag c) := by
  rcases withoutClosingTag_cases c with ⟨hno, h⟩ | ⟨front, padding, hc, hpadding, h⟩
  · have hno' : ¬ [question, greater] <:+ trimEnd (normalizeLines eol.bytes c) := by
      rw [trimEnd_normalizeLines]
      rintro ⟨front, hfront⟩
      -- the two octets of the tag were the last ones before, too
      have hlast : normalizeLines eol.bytes (trimEnd c) = front ++ [question] ++ [greater] := by
        rw [← hfront, List.append_assoc]
        rfl
      obtain ⟨s, hs, hfirst⟩ := exists_concat_of_normalizeLines (by decide) hlast
      obtain ⟨s', hs', -⟩ := exists_concat_of_normalizeLines (by decide) hfirst
      exact hno ⟨s', by rw [hs, hs', List.append_assoc]; rfl⟩
    rw [h, withoutClosingTag, if_neg hno']
  · have htag : normalizeLines eol.bytes (front ++ [question] ++ [greater]) =
        normalizeLines eol.bytes front ++ [question] ++ [greater] := by
      rw [normalizeLines_concat _ _ (by decide) (by decide),
        normalizeLines_concat _ _ (by decide) (by decide)]
    have hcut : CleanCut (front ++ [question] ++ [greater]) padding := by
      left
      rw [List.getLast?_concat]
      decide
    have hfront : ∀ s : Bytes, s ++ [question, greater] = s ++ [question] ++ [greater] := by simp
    rw [h, hc, hfront, normalizeLines_append _ hcut, htag, ← hfront]
    exact withoutClosingTag_append _ (isPadding_normalizeLines hpadding)

/-- The closing tag is the same whichever line breaks the file has. -/
theorem tagless_normalizeLines (file : SourceFile) (eol : LineEnding) (c : Bytes) :
    tagless file (normalizeLines eol.bytes c) = normalizeLines eol.bytes (tagless file c) := by
  unfold tagless
  split
  · exact withoutClosingTag_normalizeLines eol c
  · rfl

/-! ## Rules that rewrite -/

/-- The rule puts what `f` makes of the content in its place, and says so if that changes it. -/
def Rule.Rewrites (rule : Rule) (f : SourceFile → Bytes → Bytes) : Prop :=
  ∀ file content, (rule.run file content = .none ∧ f file content = content) ∨
    ∃ message, rule.run file content = .fixed (f file content) message ∧ f file content ≠ content

/-- What such a rule leaves is what it puts in place of the content. -/
theorem Rule.Rewrites.apply_eq {rule : Rule} {f : SourceFile → Bytes → Bytes} (h : rule.Rewrites f)
    (file : SourceFile) : rule.apply file = f file := by
  funext content
  rcases h file content with ⟨hrun, hsame⟩ | ⟨message, hrun, -⟩
  · rw [Rule.apply, hrun, hsame]
    rfl
  · rw [Rule.apply, hrun]
    rfl

/-- It reports exactly what it changes. -/
theorem Rule.Rewrites.reportsChanges {rule : Rule} {f : SourceFile → Bytes → Bytes}
    (h : rule.Rewrites f) : rule.ReportsChanges := by
  intro file content
  rw [h.apply_eq]
  rcases h file content with ⟨hrun, hsame⟩ | ⟨message, hrun, hchange⟩
  · simp [hrun, hsame, Outcome.none, Outcome.hasFix]
  · simp [hrun, hchange, Outcome.fixed, Outcome.hasFix, Diagnostic.fix, Diagnostic.isFix]

namespace Rule

theorem rewrites_bom : bom.Rewrites fun _ c => withoutMark c := by
  intro file c
  by_cases hmark : byteOrderMark <+: c
  · right
    refine ⟨"contains BOM", ?_, ?_⟩
    · simp only [bom, isPrefixOf?_eq, withoutMark, if_pos hmark]
      rfl
    · exact ne_of_apply_ne textSize (textSize_withoutMark_lt hmark).ne
  · left
    simp only [bom, isPrefixOf?_eq, withoutMark, if_neg hmark, and_self]

theorem rewrites_lineEndings (eol : LineEnding) :
    (lineEndings eol).Rewrites fun file c =>
      if file.hasExtension ["sh"] then c else normalizeLines eol.bytes c := by
  intro file c
  simp only [lineEndings]
  split
  · exact Or.inl ⟨rfl, rfl⟩
  · split
    · next h => exact Or.inl ⟨rfl, h⟩
    · next h => exact Or.inr ⟨_, rfl, h⟩

theorem rewrites_closingTag : closingTag.Rewrites tagless := by
  intro file c
  simp only [closingTag, tagless, beforeClosingTag?, List.isSuffixOf_iff_suffix]
  split
  · by_cases htag : [question, greater] <:+ trimEnd c
    · right
      refine ⟨"contains closing PHP tag ?>", ?_, ?_⟩
      · simp only [withoutClosingTag, if_pos htag]
      · exact ne_of_apply_ne textSize (textSize_withoutClosingTag_lt htag).ne
    · left
      simp only [withoutClosingTag, if_neg htag, and_self]
  · exact Or.inl ⟨rfl, rfl⟩

theorem rewrites_whitespace (native : LineEnding) :
    (whitespace native).Rewrites fun _ c => tidyWhitespace native c := by
  intro file c
  simp only [whitespace]
  split
  · next h => exact Or.inl ⟨rfl, h⟩
  · next h => exact Or.inr ⟨_, rfl, h⟩

end Rule

/-! ## All rules together -/

section

variable {options : RuleOptions} {rules : List Rule}

/-- Each of the standard rules reports exactly what it changes. -/
theorem reportsChanges_of_isStandard (h : Rule.IsStandard options rules) :
    ∀ rule ∈ rules, rule.ReportsChanges := by
  obtain ⟨decoders, rfl⟩ := h
  intro rule hrule
  simp only [Rule.ordered, List.mem_append, List.mem_cons, List.not_mem_nil, or_false] at hrule
  -- rule by rule, in their order; the rule on line breaks is there only if it is asked for
  rcases hrule with ((rfl | rfl | rfl | rfl | rfl) | hrule) | rfl | rfl | rfl | rfl | rfl
  · exact Rule.onlyReports_controlCharacters.reportsChanges
  · exact Rule.rewrites_bom.reportsChanges
  · exact Rule.onlyReports_utf8.reportsChanges
  · exact Rule.onlyReports_phpdoc.reportsChanges
  · exact Rule.onlyReports_escapeSequences.reportsChanges
  · split at hrule
    · rw [List.mem_singleton] at hrule
      rw [hrule]
      exact (Rule.rewrites_lineEndings _).reportsChanges
    · cases hrule
  · exact Rule.rewrites_closingTag.reportsChanges
  · exact Rule.onlyReports_templateSyntax.reportsChanges
  · exact (Rule.onlyReports_configSyntax _).reportsChanges
  · exact (Rule.rewrites_whitespace _).reportsChanges
  · exact (Rule.onlyReports_indentation _).reportsChanges

/-- What each of the rules makes of a content. -/
theorem map_apply_ordered (options : RuleOptions) (decoders : List (String × Decoder))
    (file : SourceFile) :
    (Rule.ordered options decoders).map (fun rule => rule.apply file) =
      [id, withoutMark, id, id, id] ++
      (if options.eol then
        [fun c => if file.hasExtension ["sh"] then c else normalizeLines options.nativeEol.bytes c]
       else []) ++
      [tagless file, id, id, tidyWhitespace options.nativeEol, id] := by
  cases heol : options.eol <;>
    simp [Rule.ordered, heol, Rule.onlyReports_controlCharacters.apply_eq,
      Rule.rewrites_bom.apply_eq, Rule.onlyReports_utf8.apply_eq, Rule.onlyReports_phpdoc.apply_eq,
      Rule.onlyReports_escapeSequences.apply_eq, (Rule.rewrites_lineEndings _).apply_eq,
      Rule.rewrites_closingTag.apply_eq, Rule.onlyReports_templateSyntax.apply_eq,
      (Rule.onlyReports_configSyntax _).apply_eq, (Rule.rewrites_whitespace _).apply_eq,
      (Rule.onlyReports_indentation _).apply_eq]

/-- The rules leave what the four rewritings leave. -/
theorem applyAll_of_isStandard (h : Rule.IsStandard options rules) (file : SourceFile) (c : Bytes) :
    Rule.applyAll file rules c =
      tidyWhitespace options.nativeEol
        (tagless file (options.unify file options.nativeEol (withoutMark c))) := by
  obtain ⟨decoders, rfl⟩ := h
  have hfold : Rule.applyAll file (Rule.ordered options decoders) c =
      ((Rule.ordered options decoders).map fun rule => rule.apply file).foldl
        (fun c f => f c) c := by
    rw [Rule.applyAll, List.foldl_map]
  rw [hfold, map_apply_ordered]
  cases heol : options.eol <;> cases hsh : file.hasExtension ["sh"] <;>
    simp [RuleOptions.unify, RuleOptions.unifies, heol, hsh]

/-- All rules leave a content alone if the four rewritings do. -/
theorem settled_iff_of_isStandard (h : Rule.IsStandard options rules) (file : SourceFile)
    (c : Bytes) :
    (∀ rule ∈ rules, rule.apply file c = c) ↔
      withoutMark c = c ∧ options.unify file options.nativeEol c = c ∧ tagless file c = c ∧
        tidyWhitespace options.nativeEol c = c := by
  obtain ⟨decoders, rfl⟩ := h
  have hmap : (∀ rule ∈ Rule.ordered options decoders, rule.apply file c = c) ↔
      ∀ f ∈ (Rule.ordered options decoders).map (fun rule => rule.apply file), f c = c := by
    rw [List.forall_mem_map]
  rw [hmap, map_apply_ordered]
  cases heol : options.eol <;> cases hsh : file.hasExtension ["sh"] <;>
    simp [RuleOptions.unify, RuleOptions.unifies, heol, hsh]

end

end SourceTidy
