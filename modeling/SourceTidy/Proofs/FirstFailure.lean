import SourceTidy.Proofs.Pipeline
import SourceTidy.Rule.Encoding
import SourceTidy.Rule.Whitespace

/-! # The first failure

What a check comes to, said without going through it: each rule has an outcome on the content that
the rules before it leave, and the first outcome with an error ends the check. This is for any
rules.

* `Rule.outcomes`: the outcomes of all rules, as if none of them ended the check;
* `checkFile_of_first_failure`: the findings end with those of the failing rule, and the content is
  the one that it was given;
* `checkFile_of_no_failure`: without a failure, all outcomes count;
* `checkFile_append`: a check by more rules goes on where the check by the first ones has ended.
-/

namespace SourceTidy

/-- What each of the rules makes of the content that the rules before it leave. -/
def Rule.outcomes (file : SourceFile) (rules : List Rule) (content : Bytes) : List Outcome :=
  rules.mapIdx fun k rule => rule.run file (Rule.applyAll file (rules.take k) content)

/-- Do the findings let a file pass, apart from errors? -/
def Mode.passes (mode : Mode) (findings : List Diagnostic) : Bool :=
  decide ¬ (mode = .readOnly ∧ ∃ d ∈ findings, d.severity = .fix)

/-- The report of a check that goes on with `next` after it has been completed. -/
def FileReport.andThen (first : FileReport) (next : Bytes → FileReport) : FileReport :=
  match first.state with
  | .failed _ => first
  | .completed =>
    let rest := next first.content
    { rest with
      diagnostics := first.diagnostics ++ rest.diagnostics
      passed := first.passed && rest.passed }

variable {mode : Mode} {file : SourceFile} {rules : List Rule} {content : Bytes}

/-- The first rule is given the content itself, and the others what it makes of it. -/
theorem outcomes_cons (file : SourceFile) (rule : Rule) (rules : List Rule) (content : Bytes) :
    Rule.outcomes file (rule :: rules) content =
      rule.run file content :: Rule.outcomes file rules (rule.apply file content) := by
  simp only [Rule.outcomes, List.mapIdx_cons, List.take_succ_cons]
  rfl

/-! ## Where the check ends -/

/-- The first rule that fails ends the check. Its findings are the last ones, and its replacement is
dropped. -/
theorem checkFile_of_first_failure {k : Nat}
    (h : (Rule.outcomes file rules content).findIdx? Outcome.hasError = some k) :
    ∃ rule, rules[k]? = some rule ∧
      checkFile mode file rules content =
        ⟨((Rule.outcomes file rules content).take (k + 1)).flatMap Outcome.diagnostics,
          .failed rule.name, Rule.applyAll file (rules.take k) content, false⟩ := by
  induction rules generalizing content k with
  | nil => cases h
  | cons rule rules ih =>
    rw [outcomes_cons, List.findIdx?_cons] at h
    rw [outcomes_cons]
    cases herror : (rule.run file content).hasError with
    | true =>
      obtain rfl : 0 = k := by simpa [herror] using h
      refine ⟨rule, rfl, ?_⟩
      rw [checkFile_cons_of_error herror]
      simp [Rule.applyAll]
    | false =>
      -- the failing rule is one of the others, which start from what this one leaves
      obtain ⟨j, hj, rfl⟩ : ∃ j, (Rule.outcomes file rules (rule.apply file content)).findIdx?
          Outcome.hasError = some j ∧ j + 1 = k := by
        simpa [herror] using h
      obtain ⟨failing, hfailing, hcheck⟩ := ih hj
      refine ⟨failing, hfailing, ?_⟩
      rw [checkFile_cons_of_ok herror, hcheck]
      simp [FileReport.after, Rule.applyAll]

/-- Corrections count wherever they are told. -/
theorem passes_append (mode : Mode) (first rest : List Diagnostic) :
    mode.passes (first ++ rest) =
      ((mode == .fix || !first.any Diagnostic.isFix) && mode.passes rest) := by
  rw [Bool.eq_iff_iff]
  cases mode <;> simp [Mode.passes, Diagnostic.isFix, or_imp, forall_and]

/-- Without a failure the check is completed, and a file passes unless something was corrected that
is not to be written. -/
theorem checkFile_of_no_failure
    (h : (Rule.outcomes file rules content).findIdx? Outcome.hasError = none) :
    checkFile mode file rules content =
      ⟨(Rule.outcomes file rules content).flatMap Outcome.diagnostics, .completed,
        Rule.applyAll file rules content,
        mode.passes ((Rule.outcomes file rules content).flatMap Outcome.diagnostics)⟩ := by
  induction rules generalizing content with
  | nil => simp [checkFile, Rule.outcomes, Rule.applyAll, Mode.passes]
  | cons rule rules ih =>
    rw [outcomes_cons, List.findIdx?_cons] at h
    cases herror : (rule.run file content).hasError with
    | true => simp [herror] at h
    | false =>
      have hrest : (Rule.outcomes file rules (rule.apply file content)).findIdx?
          Outcome.hasError = none := by
        simpa only [herror, Bool.false_eq_true, if_false, Option.map_eq_none_iff] using h
      rw [checkFile_cons_of_ok herror, ih hrest, outcomes_cons, List.flatMap_cons, passes_append]
      rfl

/-! ## More rules -/

/-- What was told before the first check is told before all that comes after it. -/
theorem andThen_after (mode : Mode) (first : List Diagnostic) (report : FileReport)
    (next : Bytes → FileReport) :
    (report.after mode first).andThen next = (report.andThen next).after mode first := by
  cases hstate : report.state with
  | failed name => simp only [FileReport.andThen, FileReport.after, hstate]
  | completed =>
    simp only [FileReport.andThen, FileReport.after, hstate, List.append_assoc, Bool.and_assoc]

/-- A check by more rules goes on where the check by the first ones has ended, unless one of them
has failed. -/
theorem checkFile_append (mode : Mode) (file : SourceFile) (rules later : List Rule)
    (content : Bytes) :
    checkFile mode file (rules ++ later) content =
      (checkFile mode file rules content).andThen (checkFile mode file later) := by
  induction rules generalizing content with
  | nil => rfl
  | cons rule rules ih =>
    rw [List.cons_append]
    cases herror : (rule.run file content).hasError with
    | true =>
      rw [checkFile_cons_of_error herror, checkFile_cons_of_error herror]
      rfl
    | false => rw [checkFile_cons_of_ok herror, checkFile_cons_of_ok herror, ih, andThen_after]

/-! ## Main result -/

/-- For any rules, file, content and mode: the first outcome with an error, if there is one, decides
where the check ends and what it leaves; and a check by more rules continues a check that was
completed. -/
theorem check_ends_at_first_failure (mode : Mode) (file : SourceFile) (rules : List Rule)
    (content : Bytes) :
    let outcomes := Rule.outcomes file rules content
    let report := checkFile mode file rules content
    (∀ k, outcomes.findIdx? Outcome.hasError = some k → ∃ rule, rules[k]? = some rule ∧
      report = ⟨(outcomes.take (k + 1)).flatMap Outcome.diagnostics, .failed rule.name,
        Rule.applyAll file (rules.take k) content, false⟩) ∧
    (outcomes.findIdx? Outcome.hasError = none →
      report = ⟨outcomes.flatMap Outcome.diagnostics, .completed, Rule.applyAll file rules content,
        mode.passes (outcomes.flatMap Outcome.diagnostics)⟩) ∧
    ∀ later, checkFile mode file (rules ++ later) content =
      report.andThen (checkFile mode file later) := by
  intro outcomes report
  refine ⟨?_, ?_, ?_⟩
  · intro k hk
    exact checkFile_of_first_failure hk
  · exact checkFile_of_no_failure
  · intro later
    exact checkFile_append mode file rules later content

/-- White space is tidied before the encoding is found to be wrong. The mark is not looked for any
more. -/
theorem check_ends_at_first_failure_invalidText :
    let rules := [Rule.whitespace .lf, Rule.utf8, Rule.bom]
    (Rule.outcomes (.ofPath "a.txt") rules [0xFF, 0x20, 0x0A]).findIdx? Outcome.hasError = some 1 ∧
      checkFile .fix (.ofPath "a.txt") rules [0xFF, 0x20, 0x0A] =
        ⟨[.fix "1 bytes of whitespaces", .error "is not valid UTF-8 file"], .failed "utf8",
          [0xFF, 0x0A], false⟩ := by
  intro rules
  obtain ⟨hfails, -, -⟩ :=
    check_ends_at_first_failure .fix (.ofPath "a.txt") rules [0xFF, 0x20, 0x0A]
  have hfirst : (Rule.outcomes (.ofPath "a.txt") rules [0xFF, 0x20, 0x0A]).findIdx?
      Outcome.hasError = some 1 := by decide
  obtain ⟨rule, hrule, hreport⟩ := hfails 1 hfirst
  obtain rfl : Rule.utf8 = rule := Option.some.inj hrule
  exact ⟨hfirst, hreport.trans (by decide)⟩

end SourceTidy
