import SourceTidy.Proofs.FirstFailure
import SourceTidy.Proofs.Fixing

/-! # Rules that see text

The rules after those on the encoding look at a content only if it is UTF-8. In a check by the
standard rules it always is: a content that is not UTF-8 ends the check, and the rules that rewrite
it afterwards cut and join it at ASCII octets only, which never stand inside of a character.

* `Utf8.run_append_ascii`: at an ASCII octet the reader stands between two characters;
* `Utf8.run_stripLines`, `Utf8.run_normalizeLines`, `Utf8.valid_trimEnd`: rewriting leaves whole
  characters;
* `Rule.calls`: the rules that a check calls, with the contents that they are given;
* `rules_after_utf8_see_text`: each call after that of `utf8` is on text, so nothing is left unread.
-/

namespace SourceTidy

open Ascii Bytes

/-! ## Whole characters -/

namespace Utf8

variable {q r : State} {s t : Bytes} {b : UInt8}

theorem within_ascii {lo hi : UInt8} (hlo : 0x80 ≤ lo) (hb : b < 0x80) :
    within lo hi b = false := by
  have hlt : b < lo := UInt8.lt_of_lt_of_le hb hlo
  simp [within, UInt8.not_le.mpr hlt]

/-- An ASCII octet is a character by itself, and no part of another one. -/
theorem step_ascii (q : State) (hb : b < 0x80) :
    q.step b = if q = .ground then some .ground else none := by
  cases q with
  | ground => simp [State.step, hb]
  | _ =>
    rw [State.step, within_ascii (by decide) hb]
    rfl

/-- An ASCII octet is a character. What it cuts short is replaced. -/
theorem decodeFrom_ascii (q : State) (n : Nat) (hb : b < 0x80) (s : Bytes) :
    decodeFrom q n (b :: s) =
      (if q = .ground then [] else [replacement]) ++ Char.ofNat b.toNat :: decodeFrom
        .ground 0 s := by
  by_cases hground : q = .ground
  · simp [decodeFrom, step_ascii .ground hb, hground, leadBits, hb]
  · simp [decodeFrom, step_ascii q hb, step_ascii .ground hb, hground]

/-- The characters of an ASCII text are its octets. -/
theorem decode_ascii (hs : ∀ b ∈ s, b < 0x80) : decode s = s.map fun b => Char.ofNat b.toNat := by
  rw [decode]
  induction s with
  | nil => rfl
  | cons b s ih =>
    rw [List.forall_mem_cons] at hs
    rw [decodeFrom_ascii .ground 0 hs.1, if_pos rfl, ih hs.2]
    rfl

theorem run_cons (q : State) (b : UInt8) (s : Bytes) :
    q.run (b :: s) = (q.step b).bind (·.run s) := rfl

theorem run_append (q : State) (s t : Bytes) : q.run (s ++ t) = (q.run s).bind (·.run t) :=
  List.foldlM_append

/-- An ASCII octet is read between characters only. -/
theorem run_ascii (q : State) (hb : b < 0x80) (s : Bytes) :
    q.run (b :: s) = if q = .ground then State.ground.run s else none := by
  rw [run_cons, step_ascii q hb]
  split <;> rfl

/-- An ASCII octet is read between two characters. -/
theorem ground_of_run_ascii (hb : b < 0x80) (h : q.run (b :: s) = some r) :
    q = .ground ∧ State.ground.run s = some r := by
  rw [run_ascii q hb] at h
  split at h
  · next hground => exact ⟨hground, h⟩
  · cases h

/-- Before an ASCII octet, and after it, the reader stands between two characters. -/
theorem run_append_ascii (hb : b < 0x80) (h : q.run (s ++ b :: t) = some r) :
    q.run s = some .ground ∧ State.ground.run t = some r := by
  rw [run_append] at h
  obtain ⟨p, hp, hrest⟩ := Option.bind_eq_some_iff.mp h
  obtain ⟨rfl, hafter⟩ := ground_of_run_ascii hb hrest
  exact ⟨hp, hafter⟩

/-- ASCII octets change nothing between two characters. -/
theorem run_ascii_append (hs : ∀ b ∈ s, b < 0x80) (t : Bytes) :
    State.ground.run (s ++ t) = State.ground.run t := by
  induction s with
  | nil => rfl
  | cons b s ih =>
    rw [List.forall_mem_cons] at hs
    rw [List.cons_append, run_ascii _ hs.1, if_pos rfl, ih hs.2]

theorem valid_iff : valid s = true ↔ State.ground.run s = some .ground := by
  simp [valid]

/-- ASCII octets can be added to whole characters. -/
theorem valid_append_ascii (hs : valid s = true) (ht : ∀ b ∈ t, b < 0x80) :
    valid (s ++ t) = true := by
  rw [valid_iff] at hs ⊢
  have hend := run_ascii_append ht []
  rw [List.append_nil] at hend
  rw [run_append, hs, Option.bind_some, hend]
  rfl

/-- A text that an ASCII octet ends, or nothing, is a text by itself. -/
theorem valid_of_append (ht : ∀ b ∈ t, b < 0x80) (h : valid (s ++ t) = true) : valid s = true := by
  cases t with
  | nil => rwa [List.append_nil] at h
  | cons b t =>
    rw [valid_iff] at h ⊢
    exact (run_append_ascii (ht b List.mem_cons_self) h).1

/-! ## Rewriting between characters -/

theorem ascii_of_isSpacing (h : isSpacing b = true) : b < 0x80 := by
  simp only [isSpacing, isBlank, Bool.or_eq_true, beq_iff_eq] at h
  rcases h with ((rfl | rfl) | rfl) | rfl <;> decide

theorem ascii_of_isPadding (h : isPadding b = true) : b < 0x80 := by
  simp only [isPadding, Bool.or_eq_true, beq_iff_eq] at h
  rcases h with (h | rfl) | rfl
  · exact ascii_of_isSpacing h
  · decide
  · decide

theorem ascii_of_mem_bytes {eol : LineEnding} (h : b ∈ eol.bytes) : b < 0x80 :=
  ascii_of_isSpacing (isSpacing_of_isBreak (isBreak_of_mem_bytes h))

/-- The blanks that are stripped are characters by themselves. -/
theorem run_stripLines (h : q.run s = some r) : q.run (stripLines s) = some r := by
  induction s generalizing q with
  | nil => exact h
  | cons b s ih =>
    have hkeep : q.run (b :: stripLines s) = some r := by
      rw [run_cons] at h ⊢
      obtain ⟨p, hp, hrest⟩ := Option.bind_eq_some_iff.mp h
      rw [hp]
      exact ih hrest
    cases hb : isBlank b with
    | false => rwa [stripLines_not_blank s hb]
    | true =>
      rw [stripLines_blank s hb]
      split
      · obtain ⟨rfl, hrest⟩ := ground_of_run_ascii (ascii_of_isSpacing (isSpacing_of_isBlank hb)) h
        exact ih hrest
      · exact hkeep

/-- With other line breaks, the reader ends in the same state. -/
theorem run_normalizeLines {eol : LineEnding} (h : q.run s = some r) :
    q.run (normalizeLines eol.bytes s) = some r := by
  fun_induction normalizeLines eol.bytes s generalizing q with
  | case1 => exact h
  -- a line break is ASCII, so the reader stands between characters there, and other ASCII octets in
  -- its place change nothing
  | case2 rest ih =>
    obtain ⟨rfl, hrest⟩ := ground_of_run_ascii (by decide) h
    have hascii : ∀ b ∈ (if nextIs lf rest then [] else eol.bytes), b < 0x80 := by
      intro b hb
      split at hb
      · cases hb
      · exact ascii_of_mem_bytes hb
    rw [run_ascii_append hascii]
    exact ih hrest
  | case3 rest _ ih =>
    obtain ⟨rfl, hrest⟩ := ground_of_run_ascii (by decide) h
    rw [run_ascii_append fun _ hb => ascii_of_mem_bytes hb]
    exact ih hrest
  | case4 b rest _ _ ih =>
    rw [run_cons] at h ⊢
    obtain ⟨p, hp, hrest⟩ := Option.bind_eq_some_iff.mp h
    rw [hp]
    exact ih hrest

theorem valid_trimEnd (h : valid s = true) : valid (trimEnd s) = true := by
  obtain ⟨padding, hs, hpadding⟩ := exists_trimEnd_append s
  rw [← hs] at h
  exact valid_of_append (fun b hb => ascii_of_isPadding (hpadding b hb)) h

end Utf8

/-! ## Text -/

/-- The content is UTF-8 and has no control characters other than the tab and line breaks. -/
structure IsText (c : Bytes) : Prop where
  valid : Utf8.valid c = true
  clean : ∀ b ∈ c, Rule.isControl b = false

section

variable {c : Bytes} {eol : LineEnding}

theorem isControl_iff {b : UInt8} :
    Rule.isControl b = true ↔ b ≤ 0x08 ∨ b = 0x0B ∨ b = 0x0C ∨ 0x0E ≤ b ∧ b ≤ 0x1F := by
  have hlow : b < 0x09 ↔ b ≤ 0x08 := by
    rw [UInt8.lt_iff_toNat_lt, UInt8.le_iff_toNat_le]
    exact Nat.lt_succ_iff
  have hhigh : b < 0x20 ↔ b ≤ 0x1F := by
    rw [UInt8.lt_iff_toNat_lt, UInt8.le_iff_toNat_le]
    exact Nat.lt_succ_iff
  simp [Rule.isControl, hlow, hhigh, or_assoc]

theorem isControl_of_isBreak {b : UInt8} (h : isBreak b = true) : Rule.isControl b = false := by
  rcases isBreak_iff.mp h with rfl | rfl <;> decide

theorem isSpacing_of_not_isControl {b : UInt8} (hb : Rule.isControl b = false)
    (h : isPadding b = true) :
    isSpacing b = true := by
  simp only [isPadding, Bool.or_eq_true, beq_iff_eq] at h
  rcases h with (h | rfl) | rfl
  · exact h
  · cases hb
  · cases hb

theorem isText_normalizeLines (h : IsText c) : IsText (normalizeLines eol.bytes c) := by
  refine ⟨Utf8.valid_iff.mpr (Utf8.run_normalizeLines (Utf8.valid_iff.mp h.valid)), ?_⟩
  intro b hb
  rcases mem_normalizeLines hb with hb | hb
  · exact h.clean b hb
  · exact isControl_of_isBreak hb

theorem isText_tagless (file : SourceFile) (h : IsText c) : IsText (tagless file c) := by
  refine ⟨?_, fun b hb => h.clean b ((tagless_sublist file c).mem hb)⟩
  unfold tagless
  split
  · rcases withoutClosingTag_cases c with ⟨-, htag⟩ | ⟨front, padding, hc, -, htag⟩
    · rw [htag]
      exact h.valid
    · -- the cut is before the question mark of the tag
      have hvalid := h.valid
      rw [hc, List.append_assoc, Utf8.valid_iff] at hvalid
      rw [htag, Utf8.valid_iff]
      exact (Utf8.run_append_ascii (by decide) hvalid).1
  · exact h.valid

/-- White space is cut off text, and text is left. -/
theorem isText_tidyWhitespace (h : IsText c) : IsText (tidyWhitespace eol c) := by
  have htrimmed : Utf8.valid (trimEnd (stripLines c)) = true :=
    Utf8.valid_trimEnd (Utf8.valid_iff.mpr (Utf8.run_stripLines (Utf8.valid_iff.mp h.valid)))
  have hclean : ∀ b ∈ trimEnd (stripLines c), Rule.isControl b = false := by
    intro b hb
    refine h.clean b ((stripLines_sublist c).mem ?_)
    exact (List.rdropWhile_prefix isPadding (stripLines c)).subset hb
  simp only [tidyWhitespace]
  split
  · exact ⟨rfl, by simp⟩
  · refine ⟨Utf8.valid_append_ascii htrimmed fun b hb => Utf8.ascii_of_mem_bytes hb, ?_⟩
    intro b hb
    rcases List.mem_append.mp hb with hb | hb
    · exact hclean b hb
    · exact isControl_of_isBreak (isBreak_of_mem_bytes hb)

end

/-! ## The calls of a check -/

/-- The rule makes text of text. -/
def Rule.KeepsText (rule : Rule) : Prop := ∀ file c, IsText c → IsText (rule.apply file c)

theorem Rule.OnlyReports.keepsText {rule : Rule} (h : rule.OnlyReports) : rule.KeepsText := by
  intro file c hc
  rw [h.apply_eq]
  exact hc

theorem Rule.Rewrites.keepsText {rule : Rule} {f : SourceFile → Bytes → Bytes} (h : rule.Rewrites f)
    (hf : ∀ file c, IsText c → IsText (f file c)) : rule.KeepsText := by
  intro file c hc
  rw [h.apply_eq]
  exact hf file c hc

/-- A rule and the content that it is given. -/
structure Rule.Call where
  rule : Rule
  content : Bytes

/-- The calls of a check in their order. The first rule that fails is the last one to be called. -/
def Rule.calls (file : SourceFile) : List Rule → Bytes → List Rule.Call
  | [], _ => []
  | rule :: rules, content =>
    ⟨rule, content⟩ ::
      if (rule.run file content).hasError then [] else calls file rules (rule.apply file content)

section

variable {mode : Mode} {file : SourceFile} {rules : List Rule} {content : Bytes}

/-- What a check finds is what the rules find in its calls. -/
theorem diagnostics_eq_calls (mode : Mode) (file : SourceFile) (rules : List Rule)
    (content : Bytes) :
    (checkFile mode file rules content).diagnostics =
      (Rule.calls file rules content).flatMap fun call =>
        (call.rule.run file call.content).diagnostics := by
  induction rules generalizing content with
  | nil => rfl
  | cons rule rules ih =>
    rw [Rule.calls, List.flatMap_cons]
    cases herror : (rule.run file content).hasError with
    | true =>
      rw [checkFile_cons_of_error herror]
      simp
    | false =>
      rw [checkFile_cons_of_ok herror]
      simp [FileReport.after, ih]

/-- The calls of more rules come after those of the first ones, unless one of these has failed. -/
theorem calls_append (mode : Mode) (file : SourceFile) (rules later : List Rule) (content : Bytes) :
    Rule.calls file (rules ++ later) content =
      Rule.calls file rules content ++
        if (checkFile mode file rules content).state = .completed then
          Rule.calls file later (checkFile mode file rules content).content
        else [] := by
  induction rules generalizing content with
  | nil => rfl
  | cons rule rules ih =>
    rw [List.cons_append, Rule.calls, Rule.calls]
    cases herror : (rule.run file content).hasError with
    | true =>
      rw [checkFile_cons_of_error herror]
      simp
    | false =>
      rw [checkFile_cons_of_ok herror, ih]
      simp only [Bool.false_eq_true, if_false, List.cons_append]
      rfl

/-- The rules are called in their order, without a gap. -/
theorem rules_of_calls (file : SourceFile) (rules : List Rule) (content : Bytes) :
    (Rule.calls file rules content).map Rule.Call.rule <+: rules := by
  induction rules generalizing content with
  | nil => exact List.prefix_rfl
  | cons rule rules ih =>
    rw [Rule.calls, List.map_cons, List.cons_prefix_cons]
    refine ⟨rfl, ?_⟩
    split
    · exact List.nil_prefix
    · exact ih _

/-- If the rules keep text, each of them is given text. -/
theorem isText_of_mem_calls (hrules : ∀ rule ∈ rules, rule.KeepsText) (hc : IsText content) :
    ∀ call ∈ Rule.calls file rules content, IsText call.content := by
  induction rules generalizing content with
  | nil => simp [Rule.calls]
  | cons rule rules ih =>
    rw [List.forall_mem_cons] at hrules
    rw [Rule.calls, List.forall_mem_cons]
    refine ⟨hc, ?_⟩
    split
    · simp
    · exact ih hrules.2 (hrules.1 file content hc)

end

/-! ## The standard rules -/

namespace Rule

/-- The rules on the encoding. -/
def encodingRules : List Rule := [controlCharacters, bom, utf8]

/-- The rules after those on the encoding. -/
def textRules (options : RuleOptions) (decoders : List (String × Decoder)) : List Rule :=
  [phpdoc, escapeSequences] ++ (if options.eol then [lineEndings options.nativeEol] else []) ++
  [closingTag, templateSyntax, configSyntax decoders, whitespace options.nativeEol,
   indentation options.indentation]

/-- The rules on the encoding come first. -/
theorem ordered_eq (options : RuleOptions) (decoders : List (String × Decoder)) :
    ordered options decoders = encodingRules ++ textRules options decoders := by
  simp [ordered, encodingRules, textRules]

/-- None of the rules after them makes something else of text. -/
theorem keepsText_textRules (options : RuleOptions) (decoders : List (String × Decoder)) :
    ∀ rule ∈ textRules options decoders, rule.KeepsText := by
  intro rule hrule
  simp only [textRules, List.mem_append, List.mem_cons, List.not_mem_nil, or_false] at hrule
  -- rule by rule, in their order; three of them rewrite
  rcases hrule with ((rfl | rfl) | hrule) | rfl | rfl | rfl | rfl | rfl
  · exact onlyReports_phpdoc.keepsText
  · exact onlyReports_escapeSequences.keepsText
  · split at hrule
    · rw [List.mem_singleton] at hrule
      subst hrule
      refine (rewrites_lineEndings _).keepsText ?_
      intro file c hc
      split
      · exact hc
      · exact isText_normalizeLines hc
    · cases hrule
  · exact rewrites_closingTag.keepsText fun file c hc => isText_tagless file hc
  · exact onlyReports_templateSyntax.keepsText
  · exact (onlyReports_configSyntax _).keepsText
  · exact (rewrites_whitespace _).keepsText fun file c hc => isText_tidyWhitespace hc
  · exact (onlyReports_indentation _).keepsText

end Rule

/-- What the rules on the encoding leave, if none of them fails, is text. -/
theorem isText_of_encodingRules {mode : Mode} {file : SourceFile} {c : Bytes}
    (h : (checkFile mode file Rule.encodingRules c).state = .completed) :
    IsText (checkFile mode file Rule.encodingRules c).content := by
  rw [checkFile_content_of_completed h]
  obtain ⟨hcontrol, h⟩ := completed_cons_iff.mp h
  obtain ⟨-, h⟩ := completed_cons_iff.mp h
  obtain ⟨hutf8, -⟩ := completed_cons_iff.mp h
  rw [Rule.onlyReports_controlCharacters.apply_eq, Rule.rewrites_bom.apply_eq] at hutf8
  have hcontent : Rule.applyAll file Rule.encodingRules c = withoutMark c := by
    simp [Rule.applyAll, Rule.encodingRules, Rule.onlyReports_controlCharacters.apply_eq,
      Rule.rewrites_bom.apply_eq, Rule.onlyReports_utf8.apply_eq]
  rw [hcontent]
  constructor
  · simp only [Rule.utf8, id] at hutf8
    split at hutf8
    · next hvalid => exact hvalid
    · cases hutf8
  · intro b hb
    exact Rule.isControl_of_controlCharacters hcontrol b ((withoutMark_sublist c).mem hb)

/-- The call of `utf8` is the last one of the rules on the encoding. -/
theorem mem_later_of_after_utf8 {file : SourceFile} {c : Bytes}
    {earlier later more : List Rule.Call} {call utf8 : Rule.Call} (hutf8 : utf8 ∈ earlier)
    (hname : utf8.rule.name = "utf8")
    (h : earlier ++ call :: later = Rule.calls file Rule.encodingRules c ++ more) :
    call ∈ more := by
  rcases List.append_eq_append_iff.mp h with ⟨between, hcalls, hmore⟩ | ⟨between, -, hmore⟩
  · cases between with
    | nil =>
      obtain rfl : call :: later = more := hmore
      exact List.mem_cons_self
    | cons first between =>
      -- the rules on the encoding would go on after `utf8`
      have hnames := (rules_of_calls file Rule.encodingRules c).map Rule.name
      rw [hcalls, List.map_map, List.map_append] at hnames
      have hmem : "utf8" ∈ earlier.map (Rule.name ∘ Rule.Call.rule) :=
        List.mem_map.mpr ⟨utf8, hutf8, hname⟩
      generalize earlier.map (Rule.name ∘ Rule.Call.rule) = names at hnames hmem
      obtain ⟨rest, hrest⟩ := hnames
      rcases names with _ | ⟨control, _ | ⟨bom, _ | ⟨utf8, names⟩⟩⟩ <;>
        simp_all [Rule.encodingRules, Rule.controlCharacters, Rule.bom]
  · simp [hmore]

/-- No rule leaves the content unread: a PHP file is cut into tokens, for its comments, its escape
sequences and its indentation, and what is wrong with a template or a document is reported. -/
structure IsRead (file : SourceFile) (content : Bytes) : Prop where
  tokens : file.hasExtension Rule.phpExtensions = true →
    Rule.phpTokens file content = Php.tokenize content
  literals : file.hasExtension Rule.phpExtensions = true →
    Rule.indentationText file content = (Php.tokenize content).flatMap Rule.withoutLiteralBlanks
  template : file.hasExtension ["latte"] = true → ∀ problem line,
    Template.check content = .error (.malformed problem line) →
      Rule.templateSyntax.run file content = .found [.error problem.message (some line)]
  document : ∀ decoders name decoder failure,
    decoders.find? (fun d => d.1 == file.extension) = some (name, decoder) →
    decoder content = .error failure →
      (Rule.configSyntax decoders).run file content = .found [.error failure.message failure.line]

/-- Text is read by all of the rules that ask for it. -/
theorem IsText.isRead {content : Bytes} (h : IsText content) (file : SourceFile) :
    IsRead file content where
  tokens hphp := by simp [Rule.phpTokens, hphp, h.valid]
  literals hphp := by simp [Rule.indentationText, hphp, h.valid]
  template hlatte problem line hcheck := by simp [Rule.templateSyntax, hlatte, h.valid, hcheck]
  document decoders name decoder failure hfind hdecoder := by
    simp [Rule.configSyntax, hfind, h.valid, hdecoder]

/-- In a check by the standard rules, each rule that is called after `utf8` is given text. So none
of them leaves a content unread for its encoding. -/
theorem rules_after_utf8_see_text {options : RuleOptions} {rules : List Rule}
    (h : Rule.IsStandard options rules) (mode : Mode) (file : SourceFile) (content : Bytes) :
    let calls := Rule.calls file rules content
    (checkFile mode file rules content).diagnostics =
      calls.flatMap (fun call => (call.rule.run file call.content).diagnostics) ∧
    ∀ earlier call later, calls = earlier ++ call :: later →
      (∃ utf8 ∈ earlier, utf8.rule.name = "utf8") →
      Utf8.valid call.content = true ∧
        (∀ b ∈ call.content, ¬ (b ≤ 0x08 ∨ b = 0x0B ∨ b = 0x0C ∨ 0x0E ≤ b ∧ b ≤ 0x1F)) ∧
        IsRead file call.content := by
  intro calls
  refine ⟨diagnostics_eq_calls mode file rules content, ?_⟩
  rintro earlier call later hsplit ⟨utf8, hutf8, hname⟩
  obtain ⟨decoders, rfl⟩ := h
  have htext : IsText call.content := by
    have hcalls :=
      calls_append mode file Rule.encodingRules (Rule.textRules options decoders) content
    rw [← Rule.ordered_eq] at hcalls
    -- the rule has one place in the order, so what comes after it is called only after all three
    -- have passed
    have hlater := mem_later_of_after_utf8 hutf8 hname (hsplit.symm.trans hcalls)
    split at hlater
    · next hdone =>
      exact isText_of_mem_calls (Rule.keepsText_textRules options decoders)
        (isText_of_encodingRules hdone) call hlater
    · cases hlater
  refine ⟨htext.valid, ?_, htext.isRead file⟩
  intro b hb
  rw [← isControl_iff, htext.clean b hb]
  exact Bool.false_ne_true

/-- A PHP file with a character of two octets, in which three rules after `utf8` find something to
rewrite. -/
def accentedPhp : Bytes := ascii "<?php\r\necho '" ++ [0xC3, 0xA9] ++ ascii "'; \n?>\r"

/-- The last rule is given what the three have left. -/
theorem rules_after_utf8_see_text_accentedPhp :
    ∃ rules earlier call, Rule.standard unifyingOptions = .ok rules ∧
      Rule.calls (.ofPath "a.php") rules accentedPhp = earlier ++ call :: [] ∧
      (∃ utf8 ∈ earlier, utf8.rule.name = "utf8") ∧ call.rule.name = "indentation" ∧
      call.content = ascii "<?php\necho '" ++ [0xC3, 0xA9] ++ ascii "';\n" ∧
      Utf8.valid call.content = true ∧ IsRead (.ofPath "a.php") call.content := by
  have hseen := (rules_after_utf8_see_text isStandard_unifyingOptions .fix (.ofPath "a.php")
    accentedPhp).2
  have hcalls : Rule.calls (.ofPath "a.php") (Rule.ordered unifyingOptions [("neon", Decoder.neon)])
      accentedPhp = (Rule.calls (.ofPath "a.php")
        (Rule.ordered unifyingOptions [("neon", Decoder.neon)]) accentedPhp).take 10 ++
      [⟨Rule.indentation unifyingOptions.indentation,
        ascii "<?php\necho '" ++ [0xC3, 0xA9] ++ ascii "';\n"⟩] := by rfl
  have hutf8 : ∃ utf8 ∈ (Rule.calls (.ofPath "a.php")
      (Rule.ordered unifyingOptions [("neon", Decoder.neon)]) accentedPhp).take 10,
      utf8.rule.name = "utf8" := ⟨⟨Rule.utf8, accentedPhp⟩, List.mem_of_getElem? (i := 2) rfl, rfl⟩
  obtain ⟨hvalid, -, hread⟩ := hseen _ _ _ hcalls hutf8
  exact ⟨_, _, _, standard_unifyingOptions, hcalls, hutf8, rfl, rfl, hvalid, hread⟩

end SourceTidy
