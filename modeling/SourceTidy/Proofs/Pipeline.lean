import Mathlib.Tactic.Common
import SourceTidy.Check

/-! # What the check of a file comes to

Facts about `checkFile` for any list of rules. The mode only decides what passes; the findings, the
end and the content are those of the rules, run one after the other until one of them fails.

* `checkFile_mode`: a check that only reads finds what a check that writes finds;
* `checkFile_passed_iff`: a check passes if it is completed and, where nothing is written, nothing
  was corrected;
* `checkFile_content_of_completed`: a completed check leaves what the rules leave one by one;
* `hasFix_eq_false_iff`, `checkFile_of_settled`: for rules that report what they change, a check
  without corrections is one in which every rule leaves the content alone.
-/

namespace SourceTidy

/-- What the rule leaves of a content. -/
def Rule.apply (rule : Rule) (file : SourceFile) (content : Bytes) : Bytes :=
  (rule.run file content).content content

/-- What the rules leave of a content, one after the other. -/
def Rule.applyAll (file : SourceFile) (rules : List Rule) (content : Bytes) : Bytes :=
  rules.foldl (fun c rule => rule.apply file c) content

/-- Was something corrected? -/
def FileReport.hasFix (report : FileReport) : Bool := report.diagnostics.any Diagnostic.isFix

/-- The rule reports a correction exactly if it changes the content. -/
def Rule.ReportsChanges (rule : Rule) : Prop :=
  ∀ file content, (rule.run file content).hasFix = true ↔ rule.apply file content ≠ content

variable {mode : Mode} {file : SourceFile} {rule : Rule} {rules : List Rule} {content : Bytes}

/-! ## One rule -/

/-- A rule that fails ends the check, and what it did to the content is dropped. -/
theorem checkFile_cons_of_error (h : (rule.run file content).hasError = true) :
    checkFile mode file (rule :: rules) content =
      ⟨(rule.run file content).diagnostics, .failed rule.name, content, false⟩ := by
  simp [checkFile, h]

/-- A rule that does not fail hands its content on to the next one. -/
theorem checkFile_cons_of_ok (h : (rule.run file content).hasError = false) :
    checkFile mode file (rule :: rules) content =
      (checkFile mode file rules (rule.apply file content)).after mode
        (rule.run file content).diagnostics := by
  simp [checkFile, h, Rule.apply]

/-- A correction is told by the first rule or by the others. -/
theorem hasFix_after (mode : Mode) (first : List Diagnostic) (rest : FileReport) :
    (rest.after mode first).hasFix = (first.any Diagnostic.isFix || rest.hasFix) := by
  simp [FileReport.hasFix, FileReport.after]

/-- In a completed check no rule fails. -/
theorem completed_cons_iff :
    (checkFile mode file (rule :: rules) content).state = .completed ↔
      (rule.run file content).hasError = false ∧
        (checkFile mode file rules (rule.apply file content)).state = .completed := by
  cases herror : (rule.run file content).hasError with
  | true => simp [checkFile_cons_of_error herror]
  | false => simp [checkFile_cons_of_ok herror, FileReport.after]

/-! ## All rules -/

/-- The mode has no say in what is found, where the check ends and what it leaves. -/
theorem checkFile_mode (mode mode' : Mode) (file : SourceFile) (rules : List Rule)
    (content : Bytes) :
    let report := checkFile mode file rules content
    let report' := checkFile mode' file rules content
    report.diagnostics = report'.diagnostics ∧ report.state = report'.state ∧
      report.content = report'.content := by
  induction rules generalizing content with
  | nil => exact ⟨rfl, rfl, rfl⟩
  | cons rule rules ih =>
    cases herror : (rule.run file content).hasError with
    | true =>
      rw [checkFile_cons_of_error herror, checkFile_cons_of_error herror]
      exact ⟨rfl, rfl, rfl⟩
    | false =>
      obtain ⟨hdiagnostics, hstate, hcontent⟩ := ih (rule.apply file content)
      rw [checkFile_cons_of_ok herror, checkFile_cons_of_ok herror]
      refine ⟨?_, hstate, hcontent⟩
      simp only [FileReport.after]
      rw [hdiagnostics]

/-- A check passes if it is completed and corrections, if any, are written. -/
theorem checkFile_passed_iff :
    (checkFile mode file rules content).passed = true ↔
      (checkFile mode file rules content).state = .completed ∧
        (mode = .fix ∨ (checkFile mode file rules content).hasFix = false) := by
  induction rules generalizing content with
  | nil => simp [checkFile, FileReport.hasFix]
  | cons rule rules ih =>
    -- the first rule fails, or the others decide together with its findings
    cases herror : (rule.run file content).hasError with
    | true => simp [checkFile_cons_of_error herror]
    | false =>
      rw [checkFile_cons_of_ok herror, hasFix_after]
      simp only [FileReport.after, Bool.and_eq_true, Bool.or_eq_true, beq_iff_eq, Bool.not_eq_true',
        Bool.or_eq_false_iff, ih]
      constructor
      · rintro ⟨hfirst, hstate, hrest⟩
        refine ⟨hstate, ?_⟩
        rcases hfirst with hmode | hfirst
        · exact Or.inl hmode
        · rcases hrest with hmode | hrest
          · exact Or.inl hmode
          · exact Or.inr ⟨hfirst, hrest⟩
      · rintro ⟨hstate, hmode | ⟨hfirst, hrest⟩⟩
        · exact ⟨Or.inl hmode, hstate, Or.inl hmode⟩
        · exact ⟨Or.inr hfirst, hstate, Or.inr hrest⟩

/-- A completed check leaves what the rules leave one by one. -/
theorem checkFile_content_of_completed
    (h : (checkFile mode file rules content).state = .completed) :
    (checkFile mode file rules content).content = Rule.applyAll file rules content := by
  induction rules generalizing content with
  | nil => rfl
  | cons rule rules ih =>
    obtain ⟨hok, hrest⟩ := completed_cons_iff.mp h
    rw [checkFile_cons_of_ok hok]
    exact ih hrest

/-! ## Corrections -/

/-- Where every rule leaves the content alone, the check does so too and corrects nothing, even if
one of the rules fails. -/
theorem checkFile_of_settled (hreport : ∀ rule ∈ rules, rule.ReportsChanges)
    (hsettled : ∀ rule ∈ rules, rule.apply file content = content) :
    (checkFile mode file rules content).content = content ∧
      (checkFile mode file rules content).hasFix = false := by
  induction rules with
  | nil => exact ⟨rfl, rfl⟩
  | cons rule rules ih =>
    have hsame : rule.apply file content = content := hsettled rule List.mem_cons_self
    have hquiet : (rule.run file content).hasFix = false := by
      rw [Bool.eq_false_iff]
      intro hfix
      exact (hreport rule List.mem_cons_self file content).mp hfix hsame
    cases herror : (rule.run file content).hasError with
    | true =>
      -- what the failing rule reports is all there is
      rw [checkFile_cons_of_error herror]
      exact ⟨rfl, hquiet⟩
    | false =>
      obtain ⟨hcontent, hfix⟩ := ih (fun r hr => hreport r (List.mem_cons_of_mem rule hr))
        (fun r hr => hsettled r (List.mem_cons_of_mem rule hr))
      rw [checkFile_cons_of_ok herror, hasFix_after, hsame, hfix]
      refine ⟨hcontent, ?_⟩
      rw [Bool.or_false]
      exact hquiet

/-- A completed check corrects nothing exactly if every rule leaves the content alone. -/
theorem hasFix_eq_false_iff (hreport : ∀ rule ∈ rules, rule.ReportsChanges)
    (h : (checkFile mode file rules content).state = .completed) :
    (checkFile mode file rules content).hasFix = false ↔
      ∀ rule ∈ rules, rule.apply file content = content := by
  constructor
  · intro hfix
    induction rules with
    | nil => simp
    | cons rule rules ih =>
      obtain ⟨hok, hrest⟩ := completed_cons_iff.mp h
      rw [checkFile_cons_of_ok hok, hasFix_after, Bool.or_eq_false_iff] at hfix
      -- the first rule reports nothing, so it has changed nothing, and the others are given the
      -- same content
      have hsame : rule.apply file content = content := by
        by_contra hchange
        have hfirst := (hreport rule List.mem_cons_self file content).mpr hchange
        exact Bool.eq_false_iff.mp hfix.1 hfirst
      rw [hsame] at hrest hfix
      have hreport' : ∀ r ∈ rules, r.ReportsChanges :=
        fun r hr => hreport r (List.mem_cons_of_mem rule hr)
      intro r hr
      rcases List.mem_cons.mp hr with rfl | hr
      · exact hsame
      · exact ih hreport' hrest hfix.2 r hr
  · intro hsettled
    exact (checkFile_of_settled hreport hsettled).2

end SourceTidy
