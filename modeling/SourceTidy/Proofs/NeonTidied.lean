import SourceTidy.Proofs.NeonBlanks
import SourceTidy.Proofs.NeonRenaming
import SourceTidy.Proofs.TextEncoding

/-! # NEON documents with tidy white space

Blanks before line breaks stand in strings, whose texts change with them, or between tokens. There
the lexer passes over them, but for the start of a line on which nothing else stands. A document has
such lines in brackets only, and it stays a document without them.

* `outcome_void`: the start of a line without symbols;
* `Voided.outcome`: all of them;
* `whitespace_keeps_documents`: so a document stays one, unless keys become one;
* `whitespace_breaks_mergingDocument`: a document with such keys.
-/

namespace SourceTidy.Neon

open Ascii Bytes

/-! ## Lines without symbols -/

/-- What the machine comes to after the tokens, the last one on the given line. -/
def Machine.outcome (m : Machine) (line : Nat) (tokens : List Token) : Except Fault Unit := do
  let m' ← m.run tokens
  m'.finish line

/-- A document, or one but for a key that is there twice. -/
def UpToKeys (x : Except Fault Unit) : Prop := x = .ok () ∨ Duplicated x

/-- The group after the end of a line in it. -/
def Group.lineEnded (g : Group) : Group :=
  if g.progress.isVacant then g else { g with slot := .resumed, progress := .vacant }

section

variable {m m₁ : Machine} {t : Token} {tokens tokens' : List Token} {line : Nat}

/-- One token, and what the others come to. -/
theorem outcome_cons (m : Machine) (line : Nat) (t : Token) (tokens : List Token) :
    m.outcome line (t :: tokens) = m.step t >>= (Machine.outcome · line tokens) := by
  cases h : m.step t with
  | error fault =>
    rw [Machine.outcome, Machine.run, List.foldlM_cons, h]
    rfl
  | ok m₁ =>
    rw [Machine.outcome, run_cons h]
    rfl

theorem not_upToKeys_of_error {fault : Fault} (h : ∀ key, fault.problem ≠ .duplicatedKey key) :
    ¬ UpToKeys (.error fault) := by
  rintro (hok | ⟨key, line, herror⟩)
  · cases hok
  · cases herror
    exact h key rfl

/-- A token that starts a line has the indentation of that line. -/
theorem exists_of_startsLine (h : t.startsLine = true) : ∃ indent, t.symbol = .newline indent := by
  unfold Token.startsLine at h
  split at h
  · next indent ht => exact ⟨indent, ht⟩
  · cases h

/-- Outside of brackets no line is without symbols. -/
theorem not_upToKeys_of_vacantLine {b : Block} {outer : List Block} (hgroups : m.groups = [])
    (hblocks : m.blocks = b :: outer) (hslot : b.slot = .entry) (hvacant : b.progress = .vacant)
    (hnext : StartsLine tokens) : ¬ UpToKeys (m.outcome line tokens) := by
  obtain ⟨blocks, groups⟩ := m
  obtain ⟨indent, keys, counted, slot, progress⟩ := b
  cases hgroups
  cases hblocks
  cases hslot
  cases hvacant
  -- the document ends on the line, or another one starts; both are refused while an entry is waited
  -- for
  cases tokens with
  | nil =>
    show ¬ UpToKeys (Machine.finish _ line)
    rw [Machine.finish]
    split
    · exact not_upToKeys_of_error (by rintro _ ⟨⟩)
    · exact not_upToKeys_of_error (by rintro _ ⟨⟩)
  | cons t tokens =>
    obtain ⟨indent', ht⟩ := exists_of_startsLine (hnext t rfl)
    rw [outcome_cons, Machine.step]
    split
    · exact not_upToKeys_of_error (by rintro _ ⟨⟩)
    · obtain ⟨symbol, line'⟩ := t
      cases ht
      exact not_upToKeys_of_error (by rintro _ ⟨⟩)

/-- In brackets the end of a line ends a value, if there is one, and does nothing else. -/
theorem step_lineEnd {blocks : List Block} {g : Group} {outer : List Group}
    (ht : t.startsLine = true) (hlimit : (⟨blocks, g :: outer⟩ : Machine).depth ≤ maxDepth) :
    (⟨blocks, g :: outer⟩ : Machine).step t = .ok ⟨blocks, g.lineEnded :: outer⟩ := by
  obtain ⟨indent, ht⟩ := exists_of_startsLine ht
  obtain ⟨symbol, line⟩ := t
  cases ht
  rw [Machine.step, if_neg (by omega)]
  have hread : g.progress.read? ⟨.newline indent, line⟩ = none := by
    cases g.progress with
    | scalar text line called => cases called <;> rfl
    | _ => rfl
  simp only [Group.step, hread, Group.lineEnded]
  split <;> rfl

/-- Two ends of lines are as good as one. -/
theorem lineEnded_lineEnded (g : Group) : g.lineEnded.lineEnded = g.lineEnded := by
  unfold Group.lineEnded
  split_ifs <;> simp_all [Progress.isVacant]

/-- An open bracket at the end is more than a matter of keys. -/
theorem not_upToKeys_finish_group {blocks : List Block} {g : Group} {outer : List Group} :
    ¬ UpToKeys (Machine.finish ⟨blocks, g :: outer⟩ line) := by
  rw [Machine.finish]
  split
  · exact not_upToKeys_of_error (by rintro _ ⟨⟩)
  · dsimp only
    split
    · exact not_upToKeys_of_error (by rintro _ ⟨⟩)
    · exact not_upToKeys_of_error (by rintro _ ⟨⟩)

/-- In brackets the end of a line is as good as two of them; outside of brackets no document has
two. -/
theorem outcome_void (ht : t.startsLine = true) (hnext : StartsLine tokens)
    (h : UpToKeys (m.outcome line (t :: tokens))) :
    m.outcome line (t :: tokens) = m.outcome line tokens := by
  rw [outcome_cons] at h ⊢
  obtain ⟨indent, htoken⟩ := exists_of_startsLine ht
  cases hstep : m.step t with
  | error fault =>
    rw [hstep] at h
    rcases h with h | ⟨key, line, h⟩
    · cases h
    · cases h
      have hassigns := (step_eq_duplicated hstep).1
      rw [htoken] at hassigns
      cases hassigns
  | ok m₁ =>
    rw [hstep] at h
    replace h : UpToKeys (m₁.outcome line tokens) := h
    obtain ⟨hlimit, hmachine⟩ := step_eq_ok hstep
    cases hmachine with
    | @inGroup g outer groups hgroups _ =>
      obtain ⟨blocks, _⟩ := m
      cases hgroups
      rw [step_lineEnd ht hlimit] at hstep
      cases hstep
      cases tokens with
      | nil => exact absurd h not_upToKeys_finish_group
      | cons next tokens =>
        -- the end of the next line does what this one does
        show Machine.outcome ⟨blocks, g.lineEnded :: outer⟩ line (next :: tokens) = _
        rw [outcome_cons, outcome_cons, step_lineEnd (hnext next rfl) hlimit,
          step_lineEnd (g := g.lineEnded) (hnext next rfl) hlimit, lineEnded_lineEnded]
    -- outside of brackets nothing is on the line when the next one starts
    | firstLine hgroups hblocks _ =>
      exact absurd h (not_upToKeys_of_vacantLine hgroups rfl rfl rfl hnext)
    | lineStart hgroups hblocks _ hstart =>
      obtain ⟨b, outer, rfl, hslot, hvacant⟩ := (hstart.arrives newLine_arrives).vacant
      exact absurd h (not_upToKeys_of_vacantLine hgroups rfl hslot hvacant hnext)
    | inLine _ _ hnot _ => exact absurd htoken (hnot indent)

/-- Whether a document may end does not depend on the line. -/
theorem finish_eq_ok (h : m.finish line = .ok ()) (line' : Nat) : m.finish line' = .ok () := by
  obtain ⟨blocks, groups⟩ := m
  cases groups with
  | cons g outer => exact absurd (Or.inl h) not_upToKeys_finish_group
  | nil =>
    rw [Machine.finish] at h ⊢
    split_ifs at h ⊢ with hlimit
    cases blocks with
    | nil => rfl
    | cons b outer =>
      dsimp only at h ⊢
      split_ifs at h ⊢
      rfl

/-- Without the starts of lines that have no symbols the machine comes to the same. -/
theorem Voided.outcome (h : Voided tokens tokens') (m : Machine) (line line' : Nat)
    (hupTo : UpToKeys (m.outcome line tokens)) :
    m.outcome line' tokens' = m.outcome line tokens := by
  induction h generalizing m with
  | nil =>
    rcases hupTo with hok | ⟨key, keyLine, hduplicated⟩
    · exact (finish_eq_ok hok line').trans hok.symm
    · exact absurd hduplicated finish_ne_duplicated
  -- a token that stays is refused or not as before, and the machine goes on the same
  | keep t _ ih =>
    rw [outcome_cons] at hupTo ⊢
    rw [outcome_cons]
    cases hstep : m.step t with
    | error fault => rfl
    | ok m₁ =>
      rw [hstep] at hupTo
      exact ih m₁ hupTo
  | void ht hnext _ ih =>
    have hsame := outcome_void ht hnext hupTo
    rw [hsame] at hupTo ⊢
    exact ih m hupTo

end

/-! ## Tidy documents -/

/-- A text starts with two colons or not, whatever blanks are stripped later on. -/
theorem keepsChains_stripLines : KeepsChains stripLines := by
  intro text
  rw [Bool.eq_iff_iff, List.isPrefixOf_iff_prefix, List.isPrefixOf_iff_prefix]
  exact prefix_stripLines_iff (none_of_any (by decide))

/-- A document parses alike without the starts of lines that have no symbols. -/
theorem Voided.parse {tokens tokens' : List Token} (h : Voided tokens tokens')
    (hupTo : UpToKeys (parse tokens)) : Neon.parse tokens' = Neon.parse tokens :=
  h.outcome Machine.start _ _ hupTo

variable {s : Bytes}

/-- A tidy document is one, unless keys become one; then it is refused for that. -/
theorem decode_tidyWhitespace (native : LineEnding) {tokens : List Token}
    (hs : ∀ b ∈ s, isPadding b = true → isSpacing b = true) (hlex : lex s = .ok tokens)
    (hparse : parse tokens = .ok ()) :
    decode (tidyWhitespace native s) = .ok () ∧ ¬ KeysMerge stripLines tokens ∨
      Duplicated (decode (tidyWhitespace native s)) ∧ KeysMerge stripLines tokens := by
  obtain ⟨between, tokens', hlex', hvoid, hvoid'⟩ := lex_tidyWhitespace native hs hlex
  have hrenamed := parse_rename keepsChains_stripLines hparse
  have hupTo : UpToKeys (parse (tokens.map (Token.rename stripLines))) := by
    rcases hrenamed with ⟨hok, -⟩ | ⟨hduplicated, -⟩
    · exact Or.inl hok
    · exact Or.inr hduplicated
  have hsame : decode (tidyWhitespace native s) = parse (tokens.map (Token.rename stripLines)) := by
    have hbetween := hvoid.parse hupTo
    rw [← hbetween] at hupTo
    rw [decode, hlex', ← hbetween, ← hvoid'.parse hupTo]
    rfl
  rwa [hsame]

/-- A document whose keys stay different is a document with tidy white space too. If keys become
one, because they differ only by blanks before line breaks, then one of them is refused as a
duplicated key; nothing else is refused. -/
theorem whitespace_keeps_documents (native : LineEnding) (file : SourceFile)
    (hclean : ∀ b ∈ s, Rule.isControl b = false) (h : decode s = .ok ()) :
    ∃ tokens, lex s = .ok tokens ∧
      (decode ((Rule.whitespace native).apply file s) = .ok () ↔ ¬ KeysMerge stripLines tokens) ∧
      (KeysMerge stripLines tokens → ∃ key line,
        decode ((Rule.whitespace native).apply file s) = .error ⟨.duplicatedKey key, line⟩) := by
  obtain ⟨tokens, hlex, hparse⟩ := bind_eq_ok h
  have hs : ∀ b ∈ s, isPadding b = true → isSpacing b = true := by
    intro b hb hpadding
    exact isSpacing_of_not_isControl (hclean b hb) hpadding
  refine ⟨tokens, hlex, ?_⟩
  rw [(Rule.rewrites_whitespace native).apply_eq]
  rcases decode_tidyWhitespace native hs hlex hparse with ⟨hok, hnot⟩ | ⟨hduplicated, hmerge⟩
  · exact ⟨iff_of_true hok hnot, fun hmerge => absurd hmerge hnot⟩
  · refine ⟨iff_of_false (hduplicated.ne_ok ()) (fun hnot => hnot hmerge), fun _ => hduplicated⟩

/-- A document with blanks before line breaks, in a string and on a line that goes with them too. -/
def untidyDocument : Bytes := ascii "a: [1, \n \r \n2 ] \nb: '''x \n\t\ny''' # \n\r\n \n"

/-- A document with two keys that differ by a blank before a line break. -/
def mergingDocument : Bytes := ascii "'''a \nb''': 1\n'''a\nb''': 2\n"

theorem whitespace_keeps_documents_untidyDocument :
    (decode untidyDocument = .ok () ∧
      (Rule.whitespace .lf).apply (.ofPath "a.neon") untidyDocument =
        ascii "a: [1,\n \r\n2 ]\nb: '''x\n\ny''' #\n" ∧
      decode ((Rule.whitespace .lf).apply (.ofPath "a.neon") untidyDocument) = .ok () ∧
      ∃ tokens, lex untidyDocument = .ok tokens ∧ ¬ KeysMerge stripLines tokens) ∧
    decode mergingDocument = .ok () ∧
      ∃ tokens, lex mergingDocument = .ok tokens ∧ KeysMerge stripLines tokens := by
  have huntidy : decode untidyDocument = .ok () := by decide +kernel
  have hmerging : decode mergingDocument = .ok () := by decide +kernel
  have htidied : (Rule.whitespace .lf).apply (.ofPath "a.neon") untidyDocument =
      ascii "a: [1,\n \r\n2 ]\nb: '''x\n\ny''' #\n" := by
    rw [(Rule.rewrites_whitespace .lf).apply_eq]
    decide +kernel
  obtain ⟨tokens, hlex, hkept, -⟩ :=
    whitespace_keeps_documents .lf (.ofPath "a.neon") (s := untidyDocument)
      (none_of_any (by decide)) huntidy
  obtain ⟨tokens', hlex', hbroken, -⟩ :=
    whitespace_keeps_documents .lf (.ofPath "a.neon") (s := mergingDocument)
      (none_of_any (by decide)) hmerging
  have hok : decode ((Rule.whitespace .lf).apply (.ofPath "a.neon") untidyDocument) = .ok () := by
    rw [htidied]
    decide +kernel
  have hnot : decode ((Rule.whitespace .lf).apply (.ofPath "a.neon") mergingDocument) ≠ .ok () := by
    rw [(Rule.rewrites_whitespace .lf).apply_eq]
    decide +kernel
  refine ⟨⟨huntidy, htidied, hok, tokens, hlex, hkept.mp hok⟩, hmerging, tokens', hlex', ?_⟩
  by_contra hmerge
  exact hnot (hbroken.mpr hmerge)

/-- The keys of the document are different, and have become one in the document with tidy white
space. -/
theorem whitespace_breaks_mergingDocument :
    Utf8.valid mergingDocument = true ∧ (∀ b ∈ mergingDocument, Rule.isControl b = false) ∧
      decode mergingDocument = .ok () ∧
      decode ((Rule.whitespace .lf).apply (.ofPath "a.neon") mergingDocument) =
        .error ⟨.duplicatedKey (ascii "a\nb"), 3⟩ := by
  rw [(Rule.rewrites_whitespace .lf).apply_eq]
  exact ⟨by decide, none_of_any (by decide), by decide +kernel, by decide +kernel⟩

end SourceTidy.Neon
