import SourceTidy.Proofs.StandardRules
import SourceTidy.Run.Basic

/-! # Corrections of a file

What a run over the standard rules may do to a file, for all options, file names and contents.

* `dry_run_predicts_fix`: a run that only reads tells exactly whether a run that corrects would
  write;
* `fixing_keeps_text`: the text on the lines of a file stays, in its order;
* `fixing_again_changes_nothing`: where line breaks are made uniform, one run is enough.

A later rewriting never brings back what an earlier one took away: marks and tags are text, and no
rule adds text (`textSize`); line breaks that were made uniform stay so (`Uniform`).
-/

namespace SourceTidy

open Ascii Bytes

variable {options : RuleOptions} {rules : List Rule} {mode : Mode} {file : SourceFile} {c : Bytes}

/-! ## The rewritings one after the other -/

/-- To make line breaks uniform takes no text away. -/
theorem textSize_unify (options : RuleOptions) (file : SourceFile) (eol : LineEnding) (c : Bytes) :
    textSize (options.unify file eol c) = textSize c := by
  unfold RuleOptions.unify
  split
  · exact textSize_normalizeLines eol c
  · rfl

/-- Where line breaks are made uniform, they are uniform afterwards. -/
theorem uniform_unify (h : options.unifies file = true) (eol : LineEnding) (c : Bytes) :
    Uniform eol (options.unify file eol c) := by
  rw [RuleOptions.unify, if_pos h]
  exact uniform_normalizeLines eol c

/-- Line breaks that are uniform already are left alone. -/
theorem unify_of_uniform {eol : LineEnding} (h : options.unifies file = true → Uniform eol c) :
    options.unify file eol c = c := by
  unfold RuleOptions.unify
  split
  · next hunifies => exact normalizeLines_of_uniform (h hunifies)
  · rfl

/-- The rewritings after that of the mark add no text. -/
theorem textSize_rewritten_le (options : RuleOptions) (file : SourceFile) (c : Bytes) :
    textSize (tidyWhitespace options.nativeEol
      (tagless file (options.unify file options.nativeEol c))) ≤ textSize c :=
  calc textSize (tidyWhitespace options.nativeEol
        (tagless file (options.unify file options.nativeEol c)))
      ≤ textSize (tagless file (options.unify file options.nativeEol c)) :=
        textSize_tidyWhitespace_le _ _
    _ ≤ textSize (options.unify file options.nativeEol c) := (tagless_sublist file _).countP_le
    _ = textSize c := textSize_unify options file _ c

/-- The rewritings give a content back only if each of them leaves it alone. -/
theorem settled_of_rewritten_eq (options : RuleOptions) (file : SourceFile) {c : Bytes}
    (h : tidyWhitespace options.nativeEol
      (tagless file (options.unify file options.nativeEol (withoutMark c))) = c) :
    withoutMark c = c ∧ options.unify file options.nativeEol c = c ∧ tagless file c = c ∧
      tidyWhitespace options.nativeEol c = c := by
  -- no step has taken text away
  have hmark : withoutMark c = c := by
    have hle := textSize_rewritten_le options file (withoutMark c)
    rw [h] at hle
    rcases withoutMark_eq_or_lt c with hmark | hmark
    · exact hmark
    · omega
  rw [hmark] at h
  have htag : tagless file (options.unify file options.nativeEol c) =
      options.unify file options.nativeEol c := by
    have hwhite := textSize_tidyWhitespace_le options.nativeEol
      (tagless file (options.unify file options.nativeEol c))
    have hunify := textSize_unify options file options.nativeEol c
    rw [h] at hwhite
    rcases tagless_eq_or_lt file (options.unify file options.nativeEol c) with htag | htag
    · exact htag
    · omega
  rw [htag] at h
  -- and uniform line breaks are kept by the last step, so `c` has them already
  have hlines : options.unify file options.nativeEol c = c := by
    apply unify_of_uniform
    intro hunifies
    have huniform := uniform_tidyWhitespace (uniform_unify hunifies options.nativeEol c)
    rwa [h] at huniform
  rw [hlines] at h htag
  exact ⟨hmark, hlines, htag, h⟩

/-- What a completed check leaves. -/
theorem content_of_completed (h : Rule.IsStandard options rules)
    (hdone : (checkFile mode file rules c).state = .completed) :
    (checkFile mode file rules c).content = tidyWhitespace options.nativeEol
      (tagless file (options.unify file options.nativeEol (withoutMark c))) := by
  rw [checkFile_content_of_completed hdone, applyAll_of_isStandard h]

/-- A check tells of a correction exactly if it leaves another content. -/
theorem hasFix_iff_changed (h : Rule.IsStandard options rules)
    (hdone : (checkFile mode file rules c).state = .completed) :
    (checkFile mode file rules c).hasFix = true ↔ (checkFile mode file rules c).content ≠ c := by
  have hreport := reportsChanges_of_isStandard h
  rw [← not_iff_not, not_not, Bool.not_eq_true, hasFix_eq_false_iff hreport hdone]
  constructor
  · intro hsettled
    exact (checkFile_of_settled hreport hsettled).1
  · intro hsame
    rw [content_of_completed h hdone] at hsame
    exact (settled_iff_of_isStandard h file c).mpr (settled_of_rewritten_eq options file hsame)

theorem hasFix_eq_true_iff (report : FileReport) :
    report.hasFix = true ↔ ∃ d ∈ report.diagnostics, d.severity = .fix := by
  simp [FileReport.hasFix, Diagnostic.isFix]

/-! ## A run that only reads -/

/-- A run that corrects keeps a file, unless its check is completed with another content. -/
theorem judge_keep_iff (root : FilePath) :
    (∃ p, Run.judge ⟨root, rules, .fix⟩ file c = .keep p) ↔
      ¬ ((checkFile .fix file rules c).state = .completed ∧
        (checkFile .fix file rules c).content ≠ c) := by
  simp only [Run.judge, true_and]
  split
  · next hchange => simp [hchange]
  · next hsame => simpa using hsame

/-- A run that only reads finds what a run that corrects finds. A completed run reports a correction
exactly if it changes the content. So a file passes the run that only reads exactly if the run that
corrects completes its check and has nothing to write. -/
theorem dry_run_predicts_fix (h : Rule.IsStandard options rules) (root : FilePath)
    (file : SourceFile) (c : Bytes) :
    let dry := checkFile .readOnly file rules c
    let fixing := checkFile .fix file rules c
    (dry.diagnostics = fixing.diagnostics ∧ dry.state = fixing.state ∧
      dry.content = fixing.content) ∧
    (fixing.state = .completed →
      ((∃ d ∈ fixing.diagnostics, d.severity = .fix) ↔ fixing.content ≠ c)) ∧
    (dry.passed = true ↔
      fixing.state = .completed ∧ ∃ p, Run.judge ⟨root, rules, .fix⟩ file c = .keep p) := by
  intro dry fixing
  have hmode := checkFile_mode .readOnly .fix file rules c
  have hfix : fixing.state = .completed → (fixing.hasFix = true ↔ fixing.content ≠ c) :=
    fun hdone => hasFix_iff_changed h hdone
  refine ⟨hmode, ?_, ?_⟩
  · rw [← hasFix_eq_true_iff]
    exact hfix
  · have hdry : dry.hasFix = fixing.hasFix := by
      rw [FileReport.hasFix, FileReport.hasFix, hmode.1]
    -- a file passes without corrections, and is kept without changes: the same by `hfix`
    rw [checkFile_passed_iff, hmode.2.1, judge_keep_iff]
    constructor
    · rintro ⟨hdone, hquiet⟩
      refine ⟨hdone, ?_⟩
      rintro ⟨-, hchange⟩
      have hreported := (hfix hdone).mpr hchange
      rcases hquiet with hquiet | hquiet
      · cases hquiet
      · rw [← hdry, hquiet] at hreported
        cases hreported
    · rintro ⟨hdone, hkept⟩
      refine ⟨hdone, Or.inr ?_⟩
      rw [hdry, Bool.eq_false_iff]
      intro hreported
      exact hkept ⟨hdone, (hfix hdone).mp hreported⟩

/-- The standard options, with line breaks made uniform. -/
def unifyingOptions : RuleOptions := { RuleOptions.default with eol := true }

theorem standard_unifyingOptions :
    Rule.standard unifyingOptions =
      .ok (Rule.ordered unifyingOptions [("neon", Decoder.neon)]) := rfl

theorem isStandard_unifyingOptions :
    Rule.IsStandard unifyingOptions (Rule.ordered unifyingOptions [("neon", Decoder.neon)]) :=
  Rule.isStandard_of_standard standard_unifyingOptions

/-- A PHP file in which all four rewritings find something to do. -/
def untidyPhp : Bytes := Rule.byteOrderMark ++ ascii "<?php\r\necho 1; \n?>\r"

/-- The check of `untidyPhp` is completed, and tells that there is something to correct. -/
theorem dry_run_predicts_fix_untidyPhp :
    ∃ rules, Rule.standard unifyingOptions = .ok rules ∧
      (checkFile .fix (.ofPath "a.php") rules untidyPhp).state = .completed ∧
      ∃ d ∈ (checkFile .fix (.ofPath "a.php") rules untidyPhp).diagnostics, d.severity = .fix := by
  have hpredicts := dry_run_predicts_fix isStandard_unifyingOptions ⟨false, []⟩ (.ofPath "a.php")
    untidyPhp
  exact ⟨_, standard_unifyingOptions, by decide, (hpredicts.2.1 (by decide)).mpr (by decide)⟩

/-! ## The text on the lines -/

/-- A completed check has seen no control character. -/
theorem isControl_of_completed (h : Rule.IsStandard options rules)
    (hdone : (checkFile mode file rules c).state = .completed) :
    ∀ b ∈ c, Rule.isControl b = false := by
  obtain ⟨decoders, rfl⟩ := h
  obtain ⟨hok, -⟩ := completed_cons_iff.mp hdone
  exact Rule.isControl_of_controlCharacters hok

/-- The rewritings bring nothing into a file but line breaks. -/
theorem mem_of_mem_rewritten {eol : LineEnding} {b : UInt8}
    (h : b ∈ tagless file (options.unify file eol (withoutMark c))) : b ∈ c ∨ isBreak b = true := by
  have hunify := (tagless_sublist file _).mem h
  unfold RuleOptions.unify at hunify
  split at hunify
  · rcases mem_normalizeLines hunify with hmem | hbreak
    · exact Or.inl ((withoutMark_sublist c).mem hmem)
    · exact Or.inr hbreak
  · exact Or.inl ((withoutMark_sublist c).mem hunify)

/-- No text is lost and none changes its place. A mark and a closing tag apart, and with line feeds
for line breaks that are made uniform, a file has the same text on its lines before and after a
completed check. -/
theorem fixing_keeps_text (h : Rule.IsStandard options rules) (mode : Mode) (file : SourceFile)
    (c : Bytes) (hdone : (checkFile mode file rules c).state = .completed) :
    textLines (options.unify file .lf (checkFile mode file rules c).content) =
      textLines (tagless file (options.unify file .lf (withoutMark c))) := by
  rw [content_of_completed h hdone]
  generalize hbody : tagless file (options.unify file options.nativeEol (withoutMark c)) = body
  have hclean : ∀ b ∈ body, b ≠ nul ∧ b ≠ vt := by
    intro b hb
    rw [← hbody] at hb
    rcases mem_of_mem_rewritten hb with hmem | hbreak
    · have hcontrol := isControl_of_completed h hdone b hmem
      constructor <;> rintro rfl <;> exact absurd hcontrol (by decide)
    · constructor <;> rintro rfl <;> exact absurd hbreak (by decide)
  have hwhite := textLines_tidyWhitespace options.nativeEol hclean
  cases hunifies : options.unifies file with
  | false =>
    have hsame : ∀ (eol : LineEnding) (s : Bytes), options.unify file eol s = s := by
      intro eol s
      rw [RuleOptions.unify, if_neg (by simp [hunifies])]
    rw [hsame] at hbody
    rw [hsame, hsame, hbody, hwhite]
  | true =>
    have hnormal : ∀ (eol : LineEnding) (s : Bytes),
        options.unify file eol s = normalizeLines eol.bytes s := by
      intro eol s
      rw [RuleOptions.unify, if_pos hunifies]
    have huniform : Uniform options.nativeEol body := by
      rw [← hbody]
      exact uniform_tagless file (uniform_unify hunifies _ _)
    -- with line feeds, the closing tag is found in the same place
    have hlf : normalizeLines LineEnding.lf.bytes body =
        tagless file (normalizeLines LineEnding.lf.bytes (withoutMark c)) := by
      rw [← hbody, hnormal, ← tagless_normalizeLines, normalizeLines_normalizeLines]
    rw [hnormal, hnormal, ← hlf]
    calc textLines (normalizeLines LineEnding.lf.bytes (tidyWhitespace options.nativeEol body))
        = textLines (tidyWhitespace options.nativeEol body) := by
          rw [textLines, trimmedLines_normalizeLines (uniform_tidyWhitespace huniform), textLines]
      _ = textLines body := hwhite
      _ = textLines (normalizeLines LineEnding.lf.bytes body) := by
          rw [textLines, textLines, trimmedLines_normalizeLines huniform]

theorem fixing_keeps_text_untidyPhp :
    ∃ rules, Rule.standard unifyingOptions = .ok rules ∧
      (checkFile .fix (.ofPath "a.php") rules untidyPhp).state = .completed ∧
      textLines (unifyingOptions.unify (.ofPath "a.php") .lf
        (checkFile .fix (.ofPath "a.php") rules untidyPhp).content) =
      [ascii "<?php", ascii "echo 1;"] := by
  have hkept := fixing_keeps_text isStandard_unifyingOptions .fix (.ofPath "a.php") untidyPhp
    (by decide)
  exact ⟨_, standard_unifyingOptions, by decide, hkept.trans (by decide)⟩

/-! ## A second run -/

/-- Where line breaks are made uniform, a completed check leaves nothing for a second one, if there
was not more than one mark at the start or closing tag at the end. -/
theorem fixing_again_changes_nothing (h : Rule.IsStandard options rules) (heol : options.eol = true)
    (mode mode' : Mode) (file : SourceFile) (hsh : file.extension ≠ "sh") (c : Bytes)
    (hdone : (checkFile mode file rules c).state = .completed)
    (hmark : ¬ Rule.byteOrderMark <+: (checkFile mode file rules c).content)
    (htag : file.hasExtension Rule.phpExtensions = true →
      ¬ [question, greater] <:+ trimEnd (checkFile mode file rules c).content) :
    let once := (checkFile mode file rules c).content
    (∀ d ∈ (checkFile mode' file rules once).diagnostics, d.severity ≠ .fix) ∧
      (checkFile mode' file rules once).content = once := by
  intro once
  have hunifies : options.unifies file = true := by
    simp [RuleOptions.unifies, heol, SourceFile.hasExtension, hsh]
  have honce : once = tidyWhitespace options.nativeEol
      (tagless file (options.unify file options.nativeEol (withoutMark c))) :=
    content_of_completed h hdone
  have hbody : Uniform options.nativeEol
      (tagless file (options.unify file options.nativeEol (withoutMark c))) :=
    uniform_tagless file (uniform_unify hunifies _ _)
  have huniform : Uniform options.nativeEol once := by
    rw [honce]
    exact uniform_tidyWhitespace hbody
  -- each of the four rewritings is asked in turn: two have nothing to take away by hypothesis, and
  -- the other two leave alone what they have made
  have hsettled : ∀ rule ∈ rules, rule.apply file once = once := by
    rw [settled_iff_of_isStandard h]
    refine ⟨?_, ?_, ?_, ?_⟩
    · rw [withoutMark, if_neg hmark]
    · rw [RuleOptions.unify, if_pos hunifies]
      exact normalizeLines_of_uniform huniform
    · unfold tagless
      split
      · next hphp => rw [withoutClosingTag, if_neg (htag hphp)]
      · rfl
    · rw [honce]
      exact tidyWhitespace_tidyWhitespace hbody
  have hagain : (checkFile mode' file rules once).content = once ∧
      (checkFile mode' file rules once).hasFix = false :=
    checkFile_of_settled (reportsChanges_of_isStandard h) hsettled
  refine ⟨?_, hagain.1⟩
  intro d hd hseverity
  have hreported := (hasFix_eq_true_iff _).mpr ⟨d, hd, hseverity⟩
  rw [hagain.2] at hreported
  cases hreported

theorem fixing_again_changes_nothing_untidyPhp :
    ∃ rules, Rule.standard unifyingOptions = .ok rules ∧
      (checkFile .fix (.ofPath "a.php") rules untidyPhp).content = ascii "<?php\necho 1;\n" ∧
      ∀ d ∈ (checkFile .fix (.ofPath "a.php") rules (ascii "<?php\necho 1;\n")).diagnostics,
        d.severity ≠ .fix := by
  have hagain := fixing_again_changes_nothing isStandard_unifyingOptions rfl .fix .fix
    (.ofPath "a.php") (by decide) untidyPhp (by decide) (by decide) (by decide)
  exact ⟨_, standard_unifyingOptions, by decide, hagain.1⟩

end SourceTidy
