import Mathlib.Logic.Function.Iterate
import SourceTidy.Proofs.Fixing

/-! # Repeated corrections

One run over the standard rules may leave something for the next one: of several marks at the start
of a file, and of several closing tags at its end, each run takes one, and blanks may stand before a
carriage return that only becomes part of a line break when the blanks after it are gone. The size
of a file is no measure of what is left to do, as a run may add a line break at its end. The size of
its text is one.

* `Run.leave`: what a run leaves of a content;
* `leave_of_isFixed`: what a completed check has left, the next run leaves alone or takes text from;
* `exists_settled_of_isFixed`: so the corrections come to an end;
* `repeated_fixing_converges`: they do so from any content, and never go round in a circle.
-/

namespace SourceTidy

open Bytes

/-- What a run leaves of a content. -/
def Run.leave (r : Run) (file : SourceFile) (c : Bytes) : Bytes :=
  match r.judge file c with
  | .keep _ => c
  | .change content _ => content

/-- The content is what a completed check has left. -/
def IsFixed (rules : List Rule) (file : SourceFile) (c : Bytes) : Prop :=
  ∃ before, (checkFile .fix file rules before).state = .completed ∧
    (checkFile .fix file rules before).content = c

variable {options : RuleOptions} {rules : List Rule} {file : SourceFile} {c : Bytes}

/-! ## One run -/

/-- A run that corrects leaves what a completed check leaves, and a file whose check was ended by a
rule as it is. -/
theorem leave_eq (root : FilePath) (rules : List Rule) (file : SourceFile) (c : Bytes) :
    Run.leave ⟨root, rules, .fix⟩ file c =
      if (checkFile .fix file rules c).state = .completed then (checkFile .fix file rules c).content
      else c := by
  simp only [Run.leave, Run.judge, true_and]
  by_cases hdone : (checkFile .fix file rules c).state = .completed
  · by_cases hsame : (checkFile .fix file rules c).content = c <;> simp [hdone, hsame]
  · simp [hdone]

/-- A run leaves a content as it is, or as a completed check has made it. -/
theorem leave_eq_or_isFixed (root : FilePath) (rules : List Rule) (file : SourceFile) (c : Bytes) :
    Run.leave ⟨root, rules, .fix⟩ file c = c ∨
      IsFixed rules file (Run.leave ⟨root, rules, .fix⟩ file c) := by
  rw [leave_eq]
  split
  · next hdone => exact Or.inr ⟨c, hdone, rfl⟩
  · exact Or.inl rfl

/-- No run adds text. -/
theorem textSize_leave_le (h : Rule.IsStandard options rules) (root : FilePath) (file : SourceFile)
    (c : Bytes) : textSize (Run.leave ⟨root, rules, .fix⟩ file c) ≤ textSize c := by
  rw [leave_eq]
  split
  · next hdone =>
    have hmark : textSize (withoutMark c) ≤ textSize c := (withoutMark_sublist c).countP_le
    rw [content_of_completed h hdone]
    exact (textSize_rewritten_le options file (withoutMark c)).trans hmark
  · exact Nat.le_refl _

/-- The rewritings leave alone what they have made of a content, or take text away. -/
theorem rewritten_again (options : RuleOptions) (file : SourceFile) {before c : Bytes}
    (h : tidyWhitespace options.nativeEol
      (tagless file (options.unify file options.nativeEol (withoutMark before))) = c) :
    tidyWhitespace options.nativeEol
        (tagless file (options.unify file options.nativeEol (withoutMark c))) = c ∨
      textSize (tidyWhitespace options.nativeEol
        (tagless file (options.unify file options.nativeEol (withoutMark c)))) < textSize c := by
  have hlines : options.unify file options.nativeEol c = c := by
    apply unify_of_uniform
    intro hunifies
    rw [← h]
    exact uniform_tidyWhitespace (uniform_tagless file (uniform_unify hunifies _ _))
  -- if there still is a mark, text goes with it; if not, the same question is asked of the tags
  rcases withoutMark_eq_or_lt c with hmark | hmark
  · rw [hmark, hlines]
    rcases tagless_eq_or_lt file c with htag | htag
    · -- neither a mark nor a tag is left, so all depends on the rule on white space
      rw [htag, ← h]
      exact tidyWhitespace_again _ _
    · right
      exact (textSize_tidyWhitespace_le _ _).trans_lt htag
  · right
    exact (textSize_rewritten_le options file (withoutMark c)).trans_lt hmark

/-- What a completed check has left, the next run leaves alone or takes text from. -/
theorem leave_of_isFixed (h : Rule.IsStandard options rules) (root : FilePath)
    (hc : IsFixed rules file c) :
    Run.leave ⟨root, rules, .fix⟩ file c = c ∨
      textSize (Run.leave ⟨root, rules, .fix⟩ file c) < textSize c := by
  obtain ⟨before, hdone, hcontent⟩ := hc
  rw [leave_eq]
  split
  · next hagain =>
    rw [content_of_completed h hagain]
    rw [content_of_completed h hdone] at hcontent
    exact rewritten_again options file hcontent
  · exact Or.inl rfl

/-! ## Run after run -/

/-- From what a completed check has left, there are no more runs that change something than octets
of text. -/
theorem exists_settled_of_isFixed (h : Rule.IsStandard options rules) (root : FilePath)
    (hc : IsFixed rules file c) :
    let f := Run.leave ⟨root, rules, .fix⟩ file
    ∃ n ≤ textSize c, f (f^[n] c) = f^[n] c := by
  intro f
  induction hsize : textSize c using Nat.strong_induction_on generalizing c with
  | _ size ih =>
    rcases leave_of_isFixed h root hc with hsame | hless
    · exact ⟨0, Nat.zero_le _, hsame⟩
    · rcases leave_eq_or_isFixed root rules file c with hsame | hfixed
      · exact ⟨0, Nat.zero_le _, hsame⟩
      · -- the next run has taken text away, and what it has left is fixed again
        obtain ⟨n, hn, hsettled⟩ := ih _ (hsize ▸ hless) hfixed rfl
        exact ⟨n + 1, by omega, hsettled⟩

/-- From any content on, there are not more runs than octets before all is settled. -/
theorem exists_settled (h : Rule.IsStandard options rules) (root : FilePath) (file : SourceFile)
    (c : Bytes) :
    let f := Run.leave ⟨root, rules, .fix⟩ file
    ∃ n ≤ c.length + 1, f (f^[n] c) = f^[n] c := by
  intro f
  rcases leave_eq_or_isFixed root rules file c with hsame | hfixed
  · exact ⟨0, Nat.zero_le _, hsame⟩
  · obtain ⟨n, hn, hsettled⟩ := exists_settled_of_isFixed h root hfixed
    have hrun := textSize_leave_le h root file c
    have hlength : textSize c ≤ c.length := List.countP_le_length
    exact ⟨n + 1, by omega, hsettled⟩

/-- A content to which the runs come back is one that they do not change. -/
theorem settled_of_recurring (h : Rule.IsStandard options rules) (root : FilePath) {k : Nat}
    (hback : (Run.leave ⟨root, rules, .fix⟩ file)^[k + 1] c = c) :
    Run.leave ⟨root, rules, .fix⟩ file c = c := by
  generalize hf : Run.leave ⟨root, rules, .fix⟩ file = f at hback ⊢
  obtain ⟨n, -, hsettled⟩ := exists_settled h root file c
  rw [hf] at hsettled
  -- after `n` times round the runs have settled, so they have settled at `c`
  have hround : f^[(k + 1) * n] c = c := by
    rw [Function.iterate_mul]
    exact Function.iterate_fixed hback n
  have hlate : f^[(k + 1) * n] c = f^[n] c := by
    rw [Nat.succ_mul, Function.iterate_add_apply]
    exact Function.iterate_fixed hsettled (k * n)
  rw [← hlate, hround] at hsettled
  exact hsettled

/-- Repeated runs come to an end, for all options, file names and contents. What a completed check
has left, a run leaves alone or takes text from; so no content needs many more runs than it has
octets, and no two contents take turns. -/
theorem repeated_fixing_converges (h : Rule.IsStandard options rules) (root : FilePath)
    (file : SourceFile) :
    let f := Run.leave ⟨root, rules, .fix⟩ file
    (∀ c, f c = if (checkFile .fix file rules c).state = .completed
      then (checkFile .fix file rules c).content else c) ∧
    (∀ before c, (checkFile .fix file rules before).state = .completed →
      (checkFile .fix file rules before).content = c → f c = c ∨ textSize (f c) < textSize c) ∧
    (∀ c, ∃ n ≤ c.length + 1, f (f^[n] c) = f^[n] c) ∧
    ∀ c d, f c = d → f d = c → c = d := by
  intro f
  refine ⟨leave_eq root rules file, ?_, exists_settled h root file, ?_⟩
  · intro before c hdone hcontent
    exact leave_of_isFixed h root ⟨before, hdone, hcontent⟩
  · intro c d hcd hdc
    -- two contents that take turns come back after two runs
    have hback : f^[1 + 1] c = c := by
      rw [Function.iterate_succ_apply, hcd]
      exact hdc
    exact (settled_of_recurring h root hback).symm.trans hcd

theorem standard_default :
    Rule.standard RuleOptions.default =
      .ok (Rule.ordered RuleOptions.default [("neon", Decoder.neon)]) := rfl

/-- A blank before a carriage return, and one after it. -/
def hiddenBlank : Bytes := ascii "a \r \nb\n"

/-- The first run takes the blank before the line feed. Only the second one finds that before the
carriage return, though the first one has added an octet at the end of the file. -/
theorem repeated_fixing_converges_hiddenBlank :
    ∃ rules, Rule.standard RuleOptions.default = .ok rules ∧
      let f := Run.leave ⟨⟨true, []⟩, rules, .fix⟩ (.ofPath "a.txt")
      f hiddenBlank = ascii "a \r\nb\r\n" ∧ f (f hiddenBlank) = ascii "a\r\nb\r\n" ∧
        textSize (f (f hiddenBlank)) < textSize (f hiddenBlank) := by
  refine ⟨_, standard_default, ?_⟩
  have hconverges := repeated_fixing_converges (Rule.isStandard_of_standard standard_default)
    ⟨true, []⟩ (.ofPath "a.txt")
  refine ⟨by decide, by decide, ?_⟩
  exact (hconverges.2.1 hiddenBlank _ (by decide) (by decide)).resolve_left (by decide)

end SourceTidy
