import Mathlib.Data.List.Forall2
import SourceTidy.Proofs.IndentedLines

/-! # Blanks in string literals and the rule on indentation

Two PHP files that differ only in the blanks of their string literals have the same copy without
those blanks, and the rule on indentation finds the same in it. But the rule looks at a file only if
it has a tab somewhere, be it in a literal. So a tab in a literal can make the rule tell of lines
that are indented by spaces, which it would not tell of without that tab.

* `kept_eq_of_alike`: the copies are the same;
* `tabErrors_of_no_tab`, `TellsFirst.eq_nil_iff`: what can be told of a copy without tabs;
* `literal_blanks_keep_findings_iff`: when the findings are the same;
* `tab_in_literal_changes_findings`: a tab in a literal, and a line that is told because of it.
-/

namespace SourceTidy.Rule

open Ascii Bytes

/-! ## Files that differ in the blanks of literals -/

/-- Tokens of the same kind, and with the same text but for the blanks of a string literal. -/
structure AlikeTokens (t u : Php.Token) : Prop where
  kind_eq : t.kind = u.kind
  text_eq : withoutLiteralBlanks t = withoutLiteralBlanks u

instance (t u : Php.Token) : Decidable (AlikeTokens t u) :=
  decidable_of_iff (t.kind = u.kind ∧ withoutLiteralBlanks t = withoutLiteralBlanks u)
    ⟨fun h => ⟨h.1, h.2⟩, fun h => ⟨h.kind_eq, h.text_eq⟩⟩

/-- The sources have the same tokens but for the blanks of string literals. -/
def AlikeSources (content content' : Bytes) : Prop :=
  List.Forall₂ AlikeTokens (Php.tokenize content) (Php.tokenize content')

instance (content content' : Bytes) : Decidable (AlikeSources content content') :=
  inferInstanceAs
    (Decidable (List.Forall₂ AlikeTokens (Php.tokenize content) (Php.tokenize content')))

/-- A PHP file with text in it. -/
structure IsPhpText (file : SourceFile) (content : Bytes) : Prop where
  extension : file.hasExtension phpExtensions = true
  valid : Utf8.valid content = true

/-- The copy is made token by token. -/
theorem kept_of_isPhpText {file : SourceFile} {content : Bytes} (h : IsPhpText file content) :
    kept (placed file content) = (Php.tokenize content).flatMap withoutLiteralBlanks := by
  rw [kept_placed, indentationText, h.extension, h.valid]
  rfl

theorem AlikeSources.symm {content content' : Bytes} (h : AlikeSources content content') :
    AlikeSources content' content := by
  refine (List.Forall₂.flip h).imp ?_
  rintro t u ⟨hkind, htext⟩
  exact ⟨hkind.symm, htext.symm⟩

/-- Tokens that are alike have the same copy. -/
theorem flatMap_eq_of_alike {tokens tokens' : List Php.Token}
    (h : List.Forall₂ AlikeTokens tokens tokens') :
    tokens.flatMap withoutLiteralBlanks = tokens'.flatMap withoutLiteralBlanks := by
  induction h with
  | nil => rfl
  | cons htoken _ ih => rw [List.flatMap_cons, List.flatMap_cons, htoken.text_eq, ih]

/-- Without the blanks in string literals the files are the same. -/
theorem kept_eq_of_alike {file file' : SourceFile} {content content' : Bytes}
    (h : IsPhpText file content) (h' : IsPhpText file' content')
    (halike : AlikeSources content content') :
    kept (placed file content) = kept (placed file' content') := by
  rw [kept_of_isPhpText h, kept_of_isPhpText h']
  exact flatMap_eq_of_alike halike

/-! ## Files without tabs -/

/-- Nothing is told if no line is of the class. -/
theorem TellsFirst.eq_nil_iff {P : Bytes → Prop} {message : String} {lines : List Bytes}
    {found : List Diagnostic} (h : TellsFirst P message lines found) :
    found = [] ↔ ∀ line ∈ lines, ¬ P line := by
  rcases h with ⟨before, line, after, rfl, hline, -, rfl⟩ | ⟨hnone, rfl⟩
  · simp only [List.cons_ne_nil, false_iff]
    exact fun hall => hall line (by simp) hline
  · exact iff_of_true rfl hnone

/-- What is on a line is in the text. -/
theorem mem_of_mem_lines {s line : Bytes} {b : UInt8} (hline : line ∈ lines s)
    (hb : b ∈ line) : b ∈ s := by
  obtain ⟨before, after, hlines⟩ := List.append_of_mem hline
  obtain ⟨front, back, rfl, -⟩ := exists_place_of_lines hlines
  exact List.mem_append_right _ (List.mem_append_left _ hb)

/-- In a text without tabs, no line has one inside. -/
theorem tabErrors_of_no_tab {text : Bytes} (h : tab ∉ text) : tabErrors text = [] := by
  rw [(tellsFirst_tabErrors text).eq_nil_iff]
  rintro _ hline ⟨before, _, rfl, b, _, rfl, -, spaces, rest, rfl, -⟩
  exact h (mem_of_mem_lines hline (by simp))

/-- What is not in the file is not in the copy either. -/
theorem not_mem_kept {file : SourceFile} {content : Bytes} {b : UInt8} (h : b ∉ content) :
    b ∉ kept (placed file content) := by
  intro hmem
  obtain ⟨x, hx, rfl⟩ := List.mem_map.mp hmem
  refine h ?_
  rw [← octets_placed file content]
  exact List.mem_map_of_mem (List.mem_of_mem_filter hx)

/-! ## When the findings are the same -/

section

variable {extensions : List String} {file file' : SourceFile} {content content' : Bytes}

/-- If only one of two such files has a tab, it has it in its literals. The other file is not looked
at, and of the one with the tab only the indentation can be told. -/
theorem findings_of_one_tab (h : IsPhpText file content) (h' : IsPhpText file' content')
    (hfile : file.hasExtension extensions = true) (halike : AlikeSources content content')
    (htab : tab ∈ content) (htab' : tab ∉ content') :
    tab ∉ kept (placed file content) ∧
      ((indentation extensions).run file content).diagnostics =
        mixedErrors (kept (placed file content)) ∧
      ((indentation extensions).run file' content').diagnostics = [] := by
  have hcopy : tab ∉ kept (placed file content) := by
    rw [kept_eq_of_alike h h' halike]
    exact not_mem_kept htab'
  rw [indentation_run_of_tab hfile htab, indentation_run_of_no_tab extensions file' htab',
    tabErrors_of_no_tab hcopy, List.append_nil]
  exact ⟨hcopy, rfl, rfl⟩

/-- Files that differ in the blanks of their string literals have the same findings, unless only one
of them has a tab, in its literals, and a line is indented by a space. Then the one with the tab has
the first such line for its only finding, and the other has none. -/
theorem literal_blanks_keep_findings_iff (h : IsPhpText file content)
    (h' : IsPhpText file' content') (hfile : file.hasExtension extensions = true)
    (hfile' : file'.hasExtension extensions = true) (halike : AlikeSources content content') :
    (((indentation extensions).run file content).diagnostics =
          ((indentation extensions).run file' content').diagnostics ↔
        (tab ∈ content ↔ tab ∈ content') ∨
          ∀ line ∈ lines (kept (placed file content)), ¬ StartsMixed line) ∧
      (tab ∈ content → tab ∉ content' →
        tab ∉ kept (placed file content) ∧
        TellsFirst StartsMixed "mixed tabs and spaces indentation"
          (lines (kept (placed file content)))
          ((indentation extensions).run file content).diagnostics ∧
        ((indentation extensions).run file' content').diagnostics = []) := by
  have hcopies := kept_eq_of_alike h h' halike
  have hmixed := tellsFirst_mixedErrors (kept (placed file content))
  constructor
  · -- the copies are the same, so all depends on which of the files are looked at
    by_cases htab : tab ∈ content
    · by_cases htab' : tab ∈ content'
      · rw [indentation_run_of_tab hfile htab, indentation_run_of_tab hfile' htab', hcopies]
        exact iff_of_true rfl (Or.inl (iff_of_true htab htab'))
      -- only one is looked at, and the copy has no tab, so a badly indented line is all that can
      -- differ
      · obtain ⟨-, hfound, hnone⟩ := findings_of_one_tab h h' hfile halike htab htab'
        rw [hfound, hnone, hmixed.eq_nil_iff]
        simp [htab, htab']
    · by_cases htab' : tab ∈ content'
      · obtain ⟨-, hfound, hnone⟩ := findings_of_one_tab h' h hfile' halike.symm htab' htab
        rw [hfound, hnone, ← hcopies, eq_comm, hmixed.eq_nil_iff]
        simp [htab, htab']
      · rw [indentation_run_of_no_tab extensions file htab,
          indentation_run_of_no_tab extensions file' htab']
        exact iff_of_true rfl (Or.inl (iff_of_false htab htab'))
  · intro htab htab'
    obtain ⟨hcopy, hfound, hnone⟩ := findings_of_one_tab h h' hfile halike htab htab'
    rw [hfound]
    exact ⟨hcopy, hmixed, hnone⟩

end

/-- A script with one statement, a literal. -/
def literalPhp (indent literal : Bytes) : Bytes :=
  ascii "<?php\n" ++ indent ++ ascii "'" ++ literal ++ ascii "';\n"

theorem isPhpText_of_valid {content : Bytes} (h : Utf8.valid content = true) :
    IsPhpText (.ofPath "a.php") content :=
  ⟨by decide +kernel, h⟩

/-- With a tab and a space before it, the literal may have a tab or not. -/
theorem literal_blanks_keep_findings_iff_literalPhp :
    AlikeSources (literalPhp [tab, space] (ascii "a\tb")) (literalPhp [tab, space] (ascii "ab")) ∧
      ((indentation ["php"]).run (.ofPath "a.php")
        (literalPhp [tab, space] (ascii "a\tb"))).diagnostics =
        ((indentation ["php"]).run (.ofPath "a.php")
          (literalPhp [tab, space] (ascii "ab"))).diagnostics := by
  have halike : AlikeSources (literalPhp [tab, space] (ascii "a\tb"))
      (literalPhp [tab, space] (ascii "ab")) := by
    decide +kernel
  refine ⟨halike, ?_⟩
  exact ((literal_blanks_keep_findings_iff (isPhpText_of_valid (by decide +kernel))
    (isPhpText_of_valid (by decide +kernel)) (by decide +kernel) (by decide +kernel) halike).1).mpr
      (Or.inl (iff_of_true (by decide +kernel) (by decide +kernel)))

/-- With two spaces before it, the line is told if there is a tab in the literal, and only then. -/
theorem tab_in_literal_changes_findings :
    Utf8.valid (literalPhp [space, space] (ascii "a\tb")) = true ∧
      Utf8.valid (literalPhp [space, space] (ascii "ab")) = true ∧
      AlikeSources (literalPhp [space, space] (ascii "a\tb"))
        (literalPhp [space, space] (ascii "ab")) ∧
      ((indentation ["php"]).run (.ofPath "a.php")
        (literalPhp [space, space] (ascii "a\tb"))).diagnostics =
        [.error "mixed tabs and spaces indentation" (some 2)] ∧
      ((indentation ["php"]).run (.ofPath "a.php")
        (literalPhp [space, space] (ascii "ab"))).diagnostics = [] := by
  decide +kernel

end SourceTidy.Rule
