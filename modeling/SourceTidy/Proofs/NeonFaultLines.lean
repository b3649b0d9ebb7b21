import SourceTidy.Proofs.NeonPlaces

/-! # The lines of NEON faults

What is wrong with a document is told with a line: that of the indentation or the string that the
lexer cannot read, that of the token that cannot come where it stands, that of a bracket that is not
closed, or of a key that is there twice. At the end of the document there is no token, and the last
one takes its place.

* `Refused`, `step_eq_error`: why a token is refused, and the line that is told;
* `Machine.openers`, `OpenedAt`: the brackets that are open, and where they stand among the tokens;
* `openedAt_run`: the machine knows the lines of the brackets that it holds open;
* `Blames`: the token whose line a fault has;
* `faults_tell_exact_lines`: the lines of all tokens, and of all faults.
-/

namespace SourceTidy.Neon

open Ascii Bytes

/-! ## Tokens that are refused -/

/-- Why a token is refused. All but a duplicated key is told on the line of the token. -/
inductive Refused (t : Token) : Fault → Prop where
  | unexpected : Refused t ⟨.unexpected t.symbol, t.line⟩
  | badIndentation {indent : Bytes} (ht : t.symbol = .newline indent) :
      Refused t ⟨.badIndentation, t.line⟩
  | tooDeep : Refused t ⟨.tooDeep, t.line⟩
  | duplicatedKey {key : Bytes} {line : Nat} : Refused t ⟨.duplicatedKey key, line⟩

section

variable {t : Token} {fault : Fault}

/-- A text that cannot be a key is unexpected, or has been a key before. -/
theorem newKey_eq_error {p : Progress} {keys : List Bytes} (h : newKey p keys t = .error fault) :
    Refused t fault := by
  unfold newKey at h
  split at h
  · cases h
    exact .unexpected
  · split at h
    · cases h
      exact .duplicatedKey
    · cases h

/-- A token in brackets is refused for one of the reasons. -/
theorem group_step_eq_error {g : Group} {outer : List Group} (h : g.step outer t = .error fault) :
    Refused t fault := by
  unfold Group.step at h
  split at h
  case h_1 => cases h
  case h_2 =>
    split at h
    case h_1 => split_ifs at h
    case h_2 =>
      split_ifs at h
      cases h
      exact .unexpected
    case h_3 =>
      split_ifs at h
      cases h
      exact .unexpected
    case h_6 =>
      cases h
      exact .unexpected
    -- a colon or an equals sign makes a key of the text before it
    all_goals
      split_ifs at h
      · cases h
        exact .unexpected
      · rcases bind_eq_error h with h | ⟨key, -, h⟩
        · exact newKey_eq_error h
        · cases h

/-- A token on a line is refused for one of the reasons. -/
theorem block_step_eq_error {b : Block} (h : b.step t = .error fault) : Refused t fault := by
  unfold Block.step at h
  split at h
  case h_1 => cases h
  case h_2 =>
    split at h
    case h_1 => cases h
    case h_6 =>
      cases h
      exact .unexpected
    -- a colon or an equals sign makes a key of the text before it, in an entry or in an item
    all_goals
      rcases bind_eq_error h with h | ⟨key, -, h⟩
      · exact newKey_eq_error h
      · cases h

/-- A line that cannot start is unexpected, has a bad indentation or goes too deep. -/
theorem newLine_eq_error {depth : Nat} {indent : Bytes} {blocks : List Block}
    (ht : t.symbol = .newline indent) (h : newLine depth t.line indent blocks = .error fault) :
    Refused t fault := by
  -- a line that is not indented as far ends the innermost block, and is then a matter of the next
  -- one
  induction blocks with
  | nil =>
    cases h
    exact .badIndentation ht
  | cons b outer ih =>
    rw [newLine] at h
    split at h
    case h_1 =>
      cases h
      rw [← ht]
      exact .unexpected
    case h_2 =>
      split_ifs at h
      · exact ih h
      · cases h
        exact .badIndentation ht
    case h_3 =>
      split_ifs at h
      · cases h
        exact .badIndentation ht
      · cases h
        exact .tooDeep
      · exact ih h
      · cases h
        exact .badIndentation ht
    case h_4 =>
      split_ifs at h
      · exact ih h
      · cases h
        exact .badIndentation ht

/-- Every token that the machine refuses is refused for one of these reasons. -/
theorem step_eq_error {m : Machine} (h : m.step t = .error fault) : Refused t fault := by
  unfold Machine.step at h
  rw [ite_eq_iff] at h
  rcases h with ⟨-, h⟩ | ⟨-, h⟩
  · cases h
    exact .tooDeep
  -- the brackets take what they are open for; otherwise it is for the line, or starts a new one
  split at h
  case h_1 => exact group_step_eq_error (map_eq_error h)
  case h_2 => cases h
  case h_3 =>
    cases h
    exact .unexpected
  case h_4 ht => exact newLine_eq_error ht (map_eq_error h)
  case h_5 => exact block_step_eq_error (map_eq_error h)

/-- What is told at the end of a document, where `line` is that of the last token. -/
theorem finish_eq_error {m : Machine} {line : Nat} (h : m.finish line = .error fault) :
    fault = ⟨.unexpectedEnd, line⟩ ∨ fault = ⟨.tooDeep, line⟩ ∨
      ∃ g outer, m.groups = g :: outer ∧ fault = ⟨.missingBracket g.bracket, g.line⟩ := by
  unfold Machine.finish at h
  split_ifs at h
  -- the document ends too deep, in brackets, or on a line that waits for more
  · cases h
    exact Or.inr (Or.inl rfl)
  · split at h
    case h_1 g outer hgroups =>
      split_ifs at h
      · cases h
        exact Or.inl rfl
      · cases h
        exact Or.inr (Or.inr ⟨g, outer, hgroups, rfl⟩)
    case h_2 =>
      split_ifs at h
      cases h
      exact Or.inl rfl
    case h_3 => cases h

end

/-! ## Brackets that are open -/

/-- The token that has opened a group. -/
def Group.opener (g : Group) : Token := ⟨.opening g.bracket, g.line⟩

/-- The tokens that have opened the groups, innermost first. -/
def Machine.openers (m : Machine) : List Token := m.groups.map Group.opener

/-- What a token does to the open brackets. -/
inductive OpenerStep (t : Token) (m m' : Machine) : Prop where
  | opens {bracket : Bracket} (ht : t.symbol = .opening bracket) (h : m'.openers = t :: m.openers)
  | closes {opener : Token} {bracket : Bracket} (ht : t.symbol = .closing bracket)
      (hopener : opener.symbol = .opening bracket) (h : m.openers = opener :: m'.openers)
  | keeps (ht : t.symbol.isBracket = false) (h : m'.openers = m.openers)

/-- The brackets that are open after some tokens, innermost first, are tokens after which all
brackets match. -/
inductive OpenedAt : List Token → List Token → Prop where
  | closed {read : List Token} (h : Matched ((read.map Token.symbol).filter Symbol.isBracket)) :
      OpenedAt [] read
  | opened {opener : Token} {outer before inside : List Token} (houter : OpenedAt outer before)
      (h : Matched ((inside.map Token.symbol).filter Symbol.isBracket)) :
      OpenedAt (opener :: outer) (before ++ opener :: inside)

section

variable {t : Token} {m m' : Machine}

/-- Of the tokens that belong to a value, only brackets open a group. -/
theorem openers_read {p p' : Progress} {opened : List Group} (h : ReadStep t p p' opened) :
    (t.symbol.isBracket = false ∧ opened = []) ∨
      ∃ bracket, t.symbol = .opening bracket ∧ opened.map Group.opener = [t] := by
  obtain ⟨symbol, line⟩ := t
  cases h with
  | scalar ht =>
    cases ht
    exact Or.inl ⟨rfl, rfl⟩
  | list ht _ =>
    cases ht
    exact Or.inr ⟨_, rfl, rfl⟩
  | call ht =>
    cases ht
    exact Or.inr ⟨_, rfl, rfl⟩
  | chain ht =>
    cases ht
    exact Or.inl ⟨rfl, rfl⟩

/-- What a token in brackets does to the brackets that are open. -/
theorem openerStep_group {g : Group} {outer groups : List Group} (hgroups : m.groups = g :: outer)
    (h : GroupStep g outer t groups) : OpenerStep t m { m with groups } := by
  obtain ⟨blocks, _⟩ := m
  subst hgroups
  cases h with
  | read hread =>
    rcases openers_read (read?_cases hread) with ⟨ht, rfl⟩ | ⟨bracket, ht, hopened⟩
    · exact .keeps ht rfl
    · refine .opens ht ?_
      rw [Machine.openers, List.map_append, hopened]
      rfl
  | vacantLine ht _ => exact .keeps (by simp [ht, Symbol.isBracket]) rfl
  | lineEnd ht _ => exact .keeps (by simp [ht, Symbol.isBracket]) rfl
  | close ht => exact .closes ht rfl rfl
  | comma ht => exact .keeps (by simp [ht, Symbol.isBracket]) rfl
  | key ht _ =>
    refine .keeps ?_ rfl
    rcases ht with ht | ht <;> simp [ht, Symbol.isBracket]

/-- What a token on a line does to the brackets, of which none is open. -/
theorem openerStep_line {b b' : Block} {outer : List Block} {opened : List Group}
    (hgroups : m.groups = []) (h : LineStep b t b' opened) :
    OpenerStep t m { blocks := b' :: outer, groups := opened } := by
  have hopeners : m.openers = [] := by rw [Machine.openers, hgroups, List.map_nil]
  cases h with
  | read hread =>
    rcases openers_read (read?_cases hread) with ⟨ht, rfl⟩ | ⟨bracket, ht, hopened⟩
    · exact .keeps ht hopeners.symm
    · refine .opens ht ?_
      rw [hopeners]
      exact hopened
  | dash _ _ ht => exact .keeps (by simp [ht, Symbol.isBracket]) hopeners.symm
  | key _ ht _ =>
    refine .keeps ?_ hopeners.symm
    rcases ht with ht | ht <;> simp [ht, Symbol.isBracket]
  | itemKey _ ht _ =>
    refine .keeps ?_ hopeners.symm
    rcases ht with ht | ht <;> simp [ht, Symbol.isBracket]

/-- A token opens a bracket, closes the innermost one or leaves all as they are. -/
theorem openerStep (h : m.step t = .ok m') : OpenerStep t m m' := by
  cases (step_eq_ok h).2 with
  | inGroup hgroups hstep => exact openerStep_group hgroups hstep
  | firstLine _ _ ht => exact .keeps (by simp [ht, Symbol.isBracket]) rfl
  | lineStart _ _ ht _ => exact .keeps (by simp [ht, Symbol.isBracket]) rfl
  | inLine hgroups _ _ hline => exact openerStep_line hgroups hline

end

namespace OpenedAt

variable {openers outer read inside : List Token} {opener t : Token} {bracket : Bracket}

/-- Brackets stay open while all that is opened after them is closed. -/
theorem append (h : OpenedAt openers read)
    (hinside : Matched ((inside.map Token.symbol).filter Symbol.isBracket)) :
    OpenedAt openers (read ++ inside) := by
  cases h with
  | closed h =>
    refine .closed ?_
    rw [List.map_append, List.filter_append]
    exact h.append hinside
  | @opened opener outer before between houter h =>
    rw [List.append_assoc, List.cons_append]
    refine .opened houter ?_
    rw [List.map_append, List.filter_append]
    exact h.append hinside

/-- If the innermost bracket is closed, the others are still open. -/
theorem closeOne (h : OpenedAt (opener :: outer) read) (hopener : opener.symbol = .opening bracket)
    (ht : t.symbol = .closing bracket) : OpenedAt outer (read ++ [t]) := by
  cases h with
  | @opened _ _ before inside houter h =>
    rw [List.append_assoc, List.cons_append]
    refine houter.append ?_
    have hpair : Matched (.opening bracket :: _) := .pair h .nil
    simpa [hopener, ht, Symbol.isBracket, List.filter_cons] using hpair

end OpenedAt

/-- The tokens that the machine has as openers are those of the open brackets. -/
theorem openedAt_step {read : List Token} {m m' : Machine} {t : Token} (h : OpenedAt m.openers read)
    (hstep : m.step t = .ok m') : OpenedAt m'.openers (read ++ [t]) := by
  cases openerStep hstep with
  | opens ht hopeners =>
    rw [hopeners]
    exact .opened h .nil
  | closes ht hopener hopeners =>
    -- the bracket and all that is in it become part of what is matched
    rw [hopeners] at h
    exact h.closeOne hopener ht
  | keeps ht hopeners =>
    rw [hopeners]
    refine h.append ?_
    rw [List.map_singleton, List.filter_singleton, ht]
    exact .nil

/-- The machine holds open the brackets that the tokens leave open, with their lines. -/
theorem openedAt_run {read : List Token} {m : Machine} (h : Machine.start.run read = .ok m) :
    OpenedAt m.openers read := by
  refine run_induction (motive := fun read m => OpenedAt m.openers read) ?_ ?_ h
  · exact .closed .nil
  · intro read m t m' _ hread hstep
    exact openedAt_step hread hstep

/-! ## Whose line is told -/

/-- The token whose line a fault has. -/
inductive Blames (tokens : List Token) : Fault → Prop where
  /-- A token that cannot come after those before it. -/
  | refused {read after : List Token} {t : Token} {m : Machine} {problem : Problem}
      (htokens : tokens = read ++ t :: after) (hread : Machine.start.run read = .ok m)
      (hstep : m.step t = .error ⟨problem, t.line⟩)
      (hproblem : problem = .unexpected t.symbol ∨ problem = .badIndentation ∨ problem = .tooDeep) :
      Blames tokens ⟨problem, t.line⟩
  /-- A key, where its mapping has it already. -/
  | key {before after : List Token} {t : Token} {m : Machine} {key : Bytes} {line : Nat}
      (htokens : tokens = before ++ ⟨.scalar key, line⟩ :: t :: after)
      (hread : Machine.start.run (before ++ [⟨.scalar key, line⟩]) = .ok m)
      (hstep : m.step t = .error ⟨.duplicatedKey key, line⟩) (ht : t.symbol.assigns = true)
      (hhas : HasAlready (before ++ [⟨.scalar key, line⟩]) key) :
      Blames tokens ⟨.duplicatedKey key, line⟩
  /-- The innermost bracket that is not closed. -/
  | opener {before inside : List Token} {m : Machine} {bracket : Bracket} {line : Nat}
      (htokens : tokens = before ++ ⟨.opening bracket, line⟩ :: inside)
      (hread : Machine.start.run tokens = .ok m)
      (hinside : Matched ((inside.map Token.symbol).filter Symbol.isBracket)) :
      Blames tokens ⟨.missingBracket bracket, line⟩
  /-- The last token, for the end of the document. -/
  | last {before : List Token} {t : Token} {m : Machine} {problem : Problem}
      (htokens : tokens = before ++ [t])
      (hread : Machine.start.run tokens = .ok m)
      (hproblem : problem = .unexpectedEnd ∨ problem = .tooDeep) :
      Blames tokens ⟨problem, t.line⟩

/-- A refused token is blamed itself, or the key before it. -/
theorem blames_of_step {read after : List Token} {t : Token} {m : Machine} {fault : Fault}
    (hread : Machine.start.run read = .ok m) (hstep : m.step t = .error fault) :
    Blames (read ++ t :: after) fault := by
  cases step_eq_error hstep with
  | unexpected => exact .refused rfl hread hstep (Or.inl rfl)
  | badIndentation _ => exact .refused rfl hread hstep (Or.inr (Or.inl rfl))
  | tooDeep => exact .refused rfl hread hstep (Or.inr (Or.inr rfl))
  | duplicatedKey =>
    obtain ⟨hlast, hhas⟩ := hasAlready_of_duplicated hread hstep
    obtain ⟨before, rfl⟩ := List.getLast?_eq_some_iff.mp hlast
    exact .key (List.append_assoc _ _ _) hread hstep (step_eq_duplicated hstep).1 hhas

/-- At the end of the document an open bracket is blamed, or else the last token. -/
theorem blames_of_finish {tokens : List Token} {m : Machine} {fault : Fault}
    (hrun : Machine.start.run tokens = .ok m)
    (h : m.finish ((tokens.getLast?.map Token.line).getD 1) = .error fault) :
    Blames tokens fault := by
  rcases List.eq_nil_or_concat tokens with rfl | ⟨before, last, rfl⟩
  · -- without tokens nothing is open, and nothing is wrong
    cases hrun
    cases h
  · rw [List.concat_eq_append] at hrun h ⊢
    rw [List.getLast?_concat, Option.map_some, Option.getD_some] at h
    rcases finish_eq_error h with rfl | rfl | ⟨g, outer, hgroups, rfl⟩
    · exact .last rfl hrun (Or.inl rfl)
    · exact .last rfl hrun (Or.inr rfl)
    -- the machine knows the line of the opener, and by `OpenedAt` it stands among the tokens with
    -- that line
    · have hopened := openedAt_run hrun
      rw [Machine.openers, hgroups, List.map_cons] at hopened
      generalize hread : before ++ [last] = read at hopened hrun
      cases hopened with
      | opened _ hinside => exact .opener rfl hrun hinside

/-- Whatever is wrong with the tokens of a document, one of them is blamed. -/
theorem blames_of_parse {tokens : List Token} {fault : Fault} (h : parse tokens = .error fault) :
    Blames tokens fault := by
  rcases bind_eq_error h with hrun | ⟨m, hrun, hfinish⟩
  · obtain ⟨read, t, after, m, rfl, hread, hstep⟩ := run_eq_error hrun
    exact blames_of_step hread hstep
  · exact blames_of_finish hrun hfinish

/-- Every token has the number of the line that its first octet is on, one more than the line breaks
before it. What the lexer cannot read is told with the line that it starts on. All other faults have
the line of a token: the one that is refused, the key that is there twice, the innermost bracket
that is not closed, or at the end of the document the last one. -/
theorem faults_tell_exact_lines (source : Bytes) :
    (∀ earlier t later, lex source = .ok (earlier ++ t :: later) →
      ∃ front p read q, LexedTo source front earlier p ∧ Turn p read (some t) q ∧
        StandsAt source front t ∧
        t.line = 1 + lineBreaks front) ∧
    (∀ fault, lex source = .error fault →
      ∃ front tokens p, LexedTo source front tokens p ∧ p.Fails fault ∧ source = front ++ p.rest ∧
        fault.line = 1 + lineBreaks front) ∧
    ∀ fault, decode source = .error fault →
      lex source = .error fault ∨ ∃ tokens, lex source = .ok tokens ∧ Blames tokens fault := by
  refine ⟨?_, ?_, ?_⟩
  -- a token stands where the lexer was when it took it
  · intro earlier t later hlex
    obtain ⟨front, p, read, q, hp, hturn⟩ := exists_place_of_token hlex
    exact ⟨front, p, read, q, hp, hturn, hp.standsAt hturn, hturn.token_cases.1.trans hp.line_eq⟩
  -- the lexer fails at the place where it is then
  · intro fault hlex
    obtain ⟨front, tokens, p, hp, hfails⟩ := exists_fails_of_lex hlex
    exact ⟨front, tokens, p, hp, hfails, hp.source_eq, hfails.line_eq.trans hp.line_eq⟩
  · intro fault h
    rcases bind_eq_error h with hlex | ⟨tokens, hlex, hparse⟩
    · exact Or.inl hlex
    · exact Or.inr ⟨tokens, hlex, blames_of_parse hparse⟩

/-- A bracket that is not closed, after a string of several lines. -/
def unclosedDocument : Bytes := ascii "a: '''\nx\n'''\nb: [1,\n\t\x7b2\x7d"

/-- A string that is not closed, after another one. -/
def cutDocument : Bytes := ascii "a: '''\nx\n'''\nb: 'y\n"

theorem faults_tell_exact_lines_unclosedDocument :
    (∃ earlier later, lex unclosedDocument = .ok (earlier ++ ⟨.scalar (ascii "b"), 4⟩ :: later) ∧
      ∃ front, StandsAt unclosedDocument front ⟨.scalar (ascii "b"), 4⟩ ∧
        4 = 1 + lineBreaks front) ∧
    (lex cutDocument = .error ⟨.unterminatedString, 4⟩ ∧
      ∃ front, ∃ p : Place, p.Fails ⟨.unterminatedString, 4⟩ ∧ cutDocument = front ++ p.rest ∧
        4 = 1 + lineBreaks front) ∧
    decode unclosedDocument = .error ⟨.missingBracket .square, 4⟩ ∧
      ∃ tokens, lex unclosedDocument = .ok tokens ∧ Blames tokens ⟨.missingBracket .square, 4⟩ := by
  have hlex :
      ∃ earlier later, lex unclosedDocument = .ok (earlier ++ ⟨.scalar (ascii "b"), 4⟩ :: later) :=
    ⟨[⟨.newline [], 1⟩, ⟨.scalar (ascii "a"), 1⟩, ⟨.colon, 1⟩, ⟨.scalar (ascii "\nx\n"), 1⟩,
      ⟨.newline [], 4⟩],
      [⟨.colon, 4⟩, ⟨.opening .square, 4⟩, ⟨.scalar (ascii "1"), 4⟩, ⟨.comma, 4⟩,
        ⟨.newline [tab], 5⟩, ⟨.opening .curly, 5⟩, ⟨.scalar (ascii "2"), 5⟩, ⟨.closing .curly, 5⟩],
      by decide +kernel⟩
  have hcut : lex cutDocument = .error ⟨.unterminatedString, 4⟩ := by decide +kernel
  have hdecode : decode unclosedDocument = .error ⟨.missingBracket .square, 4⟩ := by decide +kernel
  obtain ⟨earlier, later, htokens⟩ := hlex
  obtain ⟨front, -, -, -, -, -, hstands, hline⟩ :=
    (faults_tell_exact_lines unclosedDocument).1 _ _ _ htokens
  obtain ⟨front', -, p, -, hfails, hsource, hline'⟩ :=
    (faults_tell_exact_lines cutDocument).2.1 _ hcut
  refine ⟨⟨earlier, later, htokens, front, hstands, hline⟩,
    ⟨hcut, front', p, hfails, hsource, hline'⟩, hdecode, ?_⟩
  rcases (faults_tell_exact_lines unclosedDocument).2.2 _ hdecode with herror | hblames
  · rw [htokens] at herror
    cases herror
  · exact hblames

end SourceTidy.Neon
