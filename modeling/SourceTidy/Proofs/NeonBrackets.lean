import SourceTidy.Proofs.NeonOutline

/-! # Brackets in NEON documents

In a document each bracket is closed by its own kind, a round one opens only after what it can be
the arguments of, and no dash stands between brackets.

* `Machine.values`, `value_step`: the values that the machine is in the middle of, and what a token
  does to them;
* `Unclosed`: which brackets of a word wait for their closing ones;
* `bracketed_run`: the groups of the machine are the unclosed brackets, and the value it reads ends
  with the last token;
* `decode_matches_brackets`: what holds of every document.
-/

namespace SourceTidy.Neon

/-! ## The values that are being read -/

/-- How much has been read of each value that is not over, innermost first: one for each open group,
and one for the line around them. -/
def Machine.values (m : Machine) : List Progress :=
  m.groups.map Group.progress ++ (m.blocks.head?.map Block.progress).toList

/-- The open brackets, innermost first. -/
def Machine.brackets (m : Machine) : List Bracket := m.groups.map Group.bracket

def Symbol.isBracket : Symbol → Bool
  | .opening _ | .closing _ => true
  | _ => false

/-- What a token can do to the values. -/
inductive ValueStep (t : Token) (m m' : Machine) : Prop where
  /-- It goes on with the innermost one. -/
  | read {p p' rest opened} (hread : ReadStep t p p' opened) (hvalues : m.values = p :: rest)
      (hvalues' : m'.values = opened.map Group.progress ++ p' :: rest)
      (hbrackets : m'.brackets = opened.map Group.bracket ++ m.brackets)
  /-- It ends a group. -/
  | close {p rest bracket} (ht : t.symbol = .closing bracket) (hvalues : m.values = p :: rest)
      (hvalues' : m'.values = rest) (hbrackets : m.brackets = bracket :: m'.brackets)
  /-- The innermost value is over, and another one may start. -/
  | pass (ht : t.symbol.isBracket = false) (hdash : t.symbol = .dash → m.brackets = [])
      (hvalues' : m'.values = .vacant :: m.values.tail) (hbrackets : m'.brackets = m.brackets)

/-- In brackets a token takes one of the steps that values can take. -/
theorem value_step_group {m : Machine} {t : Token} {g : Group} {outer groups : List Group}
    (hgroups : m.groups = g :: outer) (h : GroupStep g outer t groups) :
    ValueStep t m { m with groups } := by
  obtain ⟨blocks, _⟩ := m
  subst hgroups
  cases h with
  | read hread =>
    refine .read (read?_cases hread) rfl ?_ ?_
    · simp [Machine.values]
    · simp [Machine.brackets]
  | vacantLine ht hvacant =>
    refine .pass (by simp [ht, Symbol.isBracket]) (by simp [ht]) ?_ rfl
    simp [Machine.values, eq_vacant hvacant]
  | lineEnd ht _ => exact .pass (by simp [ht, Symbol.isBracket]) (by simp [ht]) rfl rfl
  | close ht => exact .close ht rfl rfl rfl
  | comma ht => exact .pass (by simp [ht, Symbol.isBracket]) (by simp [ht]) rfl rfl
  | key ht _ =>
    refine .pass ?_ ?_ rfl rfl
    · rcases ht with ht | ht <;> simp [ht, Symbol.isBracket]
    · rcases ht with ht | ht <;> simp [ht]

/-- What a token on a line does to the values, where no bracket is open. -/
theorem value_step_line {m : Machine} {t : Token} {b b' : Block} {outer : List Block}
    {opened : List Group} (hgroups : m.groups = []) (hblocks : m.blocks = b :: outer)
    (h : LineStep b t b' opened) : ValueStep t m { blocks := b' :: outer, groups := opened } := by
  obtain ⟨_, _⟩ := m
  subst hgroups hblocks
  cases h with
  | read hread =>
    refine .read (read?_cases hread) rfl rfl ?_
    simp [Machine.brackets]
  | dash _ hvacant ht =>
    refine .pass (by simp [ht, Symbol.isBracket]) (fun _ => rfl) ?_ rfl
    simp [Machine.values, eq_vacant hvacant]
  | key _ ht _ =>
    refine .pass ?_ (fun _ => rfl) rfl rfl
    rcases ht with ht | ht <;> simp [ht, Symbol.isBracket]
  | itemKey _ ht _ =>
    refine .pass ?_ (fun _ => rfl) rfl rfl
    rcases ht with ht | ht <;> simp [ht, Symbol.isBracket]

/-- A token is read into a value, closes a bracket or leaves the values over. -/
theorem value_step {m m' : Machine} {t : Token} (h : m.step t = .ok m') : ValueStep t m m' := by
  cases (step_eq_ok h).2 with
  | inGroup hgroups hstep => exact value_step_group hgroups hstep
  | firstLine hgroups hblocks ht =>
    obtain ⟨_, _⟩ := m
    subst hgroups hblocks
    exact .pass (by simp [ht, Symbol.isBracket]) (fun _ => rfl) rfl rfl
  | lineStart hgroups hblocks ht hstart =>
    obtain ⟨_, _⟩ := m
    subst hgroups hblocks
    obtain ⟨b, outer, rfl, -, hvacant⟩ := (hstart.arrives newLine_arrives).vacant
    refine .pass (by simp [ht, Symbol.isBracket]) (fun _ => rfl) ?_ rfl
    simp [Machine.values, hvacant]
  | inLine hgroups hblocks _ hline => exact value_step_line hgroups hblocks hline

/-! ## Words of brackets -/

/-- Every bracket is closed, by its own kind. -/
inductive Matched : List Symbol → Prop where
  | nil : Matched []
  | pair {bracket inside after} (hinside : Matched inside) (hafter : Matched after) :
      Matched (.opening bracket :: (inside ++ .closing bracket :: after))

/-- Matched words one after the other match. -/
theorem Matched.append {u w : List Symbol} (hu : Matched u) (hw : Matched w) :
    Matched (u ++ w) := by
  induction hu with
  | nil => exact hw
  | @pair bracket _ _ hinside _ _ ih =>
    have h : Matched (.opening bracket :: _) := .pair hinside ih
    simpa using h

/-- The brackets that wait for their closing ones, innermost first. Those after each of them
match. -/
inductive Unclosed : List Bracket → List Symbol → Prop where
  | closed {w} (h : Matched w) : Unclosed [] w
  | opened {bracket outer u w} (houter : Unclosed outer u) (h : Matched w) :
      Unclosed (bracket :: outer) (u ++ .opening bracket :: w)

namespace Unclosed

variable {outer : List Bracket} {bracket : Bracket} {u w : List Symbol}

theorem append (hu : Unclosed outer u) (hw : Matched w) : Unclosed outer (u ++ w) := by
  cases hu with
  | closed h => exact .closed (h.append hw)
  | opened houter h => simpa using Unclosed.opened houter (h.append hw)

theorem openOne (hu : Unclosed outer u) (bracket : Bracket) :
    Unclosed (bracket :: outer) (u ++ [.opening bracket]) :=
  .opened hu .nil

theorem closeOne (hu : Unclosed (bracket :: outer) u) :
    Unclosed outer (u ++ [.closing bracket]) := by
  cases hu with
  | opened houter h => simpa using houter.append (.pair h .nil)

end Unclosed

def Symbol.isOpening : Symbol → Bool
  | .opening _ => true
  | _ => false

def Symbol.isClosing : Symbol → Bool
  | .closing _ => true
  | _ => false

/-- As many brackets are opened as are closed. -/
theorem Matched.countP_eq {w : List Symbol} (h : Matched w) :
    w.countP Symbol.isOpening = w.countP Symbol.isClosing := by
  induction h with
  | nil => rfl
  | pair _ _ ihinside ihafter =>
    simp only [List.countP_cons, List.countP_append, ihinside, ihafter]
    simp [Symbol.isOpening, Symbol.isClosing]
    omega

/-- Those that wait are opened and not closed. -/
theorem Unclosed.countP_eq {stack : List Bracket} {w : List Symbol} (h : Unclosed stack w) :
    w.countP Symbol.isOpening = w.countP Symbol.isClosing + stack.length := by
  induction h with
  | closed h => simp [h.countP_eq]
  | opened _ h ih =>
    simp only [List.countP_append, List.countP_cons, ih, h.countP_eq, List.length_cons]
    simp [Symbol.isOpening, Symbol.isClosing]
    omega

/-- No part at the front of a matched word closes more than it opens. -/
theorem Matched.countP_le {w front : List Symbol} (h : Matched w) (hfront : front <+: w) :
    front.countP Symbol.isClosing ≤ front.countP Symbol.isOpening := by
  induction h generalizing front with
  | nil => simp [List.prefix_nil.mp hfront]
  | @pair bracket inside after hinside hafter ihinside ihafter =>
    cases front with
    | nil => simp
    | cons s front =>
      obtain ⟨rfl, back, hback⟩ := List.cons_prefix_cons.mp hfront
      simp only [List.countP_cons, Symbol.isOpening, Symbol.isClosing]
      -- the part ends within the pair, at its closing bracket or behind it
      rcases List.append_eq_append_iff.mp hback with ⟨more, rfl, -⟩ | ⟨more, rfl, hmore⟩
      · have := ihinside (List.prefix_append front more)
        simp
        omega
      · cases more with
        | nil => simp [hinside.countP_eq]
        | cons s more =>
          obtain ⟨rfl, hafter'⟩ := List.cons_eq_cons.mp hmore
          have := ihafter ⟨back, hafter'.symm⟩
          simp [List.countP_append, List.countP_cons, hinside.countP_eq, Symbol.isOpening,
            Symbol.isClosing]
          omega

/-! ## The machine and the brackets -/

/-- The value whose part the bracket opens: round ones hold the arguments of a scalar. -/
def Encloses (p : Progress) (bracket : Bracket) : Prop :=
  match p with
  | .vacant => False
  | .scalar _ _ called => called = true ∧ bracket = .round
  | .composite => bracket ≠ .round

/-- May the symbol stand directly before a list of arguments? -/
def Symbol.takesArguments : Symbol → Bool
  | .scalar _ | .closing .round => true
  | _ => false

/-- A scalar that is being read ends with the last token: with itself, or with a call of it. -/
def EndsWith (read : List Token) : Progress → Prop
  | .scalar text line false => read.getLast? = some ⟨.scalar text, line⟩
  | .scalar _ _ true => ∃ t, read.getLast? = some t ∧ t.symbol.takesArguments = true
  | _ => True

/-- What the tokens so far say about the open brackets and the values around them. -/
structure Bracketed (read : List Token) (m : Machine) : Prop where
  unclosed : Unclosed m.brackets ((read.map Token.symbol).filter Symbol.isBracket)
  encloses : List.Forall₂ Encloses m.values.tail m.brackets
  endsWith : ∀ p ∈ m.values.head?, EndsWith read p

theorem filter_concat (read : List Token) (t : Token) :
    ((read ++ [t]).map Token.symbol).filter Symbol.isBracket =
      (read.map Token.symbol).filter Symbol.isBracket ++ [t.symbol].filter Symbol.isBracket := by
  simp

/-- One more token keeps the brackets and values in step with the tokens. -/
theorem bracketed_step {read : List Token} {m m' : Machine} {t : Token} (h : Bracketed read m)
    (hstep : m.step t = .ok m') : Bracketed (read ++ [t]) m' := by
  obtain ⟨hunclosed, hencloses, hends⟩ := h
  -- by what the token does to the values; in each case first the brackets that wait, then what they
  -- enclose, and last what the tokens end with
  cases value_step hstep with
  | read hread hvalues hvalues' hbrackets =>
    rw [hvalues, List.tail_cons] at hencloses
    cases hread with
    | scalar ht =>
      refine ⟨?_, ?_, ?_⟩
      · rw [hbrackets, filter_concat]
        simpa [ht, Symbol.isBracket] using hunclosed
      · simpa [hvalues', hbrackets] using hencloses
      · obtain ⟨symbol, line⟩ := t
        subst ht
        simp [hvalues', EndsWith]
    -- a list or a mapping: its bracket encloses a value that has just begun, and no scalar ends
    -- here
    | list ht hround =>
      refine ⟨?_, ?_, by simp [hvalues', EndsWith, openGroup]⟩
      · rw [hbrackets, filter_concat]
        simpa [ht, Symbol.isBracket, openGroup, List.filter_cons] using hunclosed.openOne _
      · rw [hvalues', hbrackets]
        exact .cons hround hencloses
    | call ht =>
      refine ⟨?_, ?_, by simp [hvalues', EndsWith, openGroup]⟩
      · rw [hbrackets, filter_concat]
        simpa [ht, Symbol.isBracket, openGroup, List.filter_cons] using hunclosed.openOne _
      · rw [hvalues', hbrackets]
        exact .cons ⟨rfl, rfl⟩ hencloses
    | chain ht =>
      refine ⟨?_, ?_, ?_⟩
      · rw [hbrackets, filter_concat]
        simpa [ht, Symbol.isBracket] using hunclosed
      · simpa [hvalues', hbrackets] using hencloses
      · simp [hvalues', EndsWith, ht, Symbol.takesArguments]
  | close ht hvalues hvalues' hbrackets =>
    rw [hbrackets] at hunclosed hencloses
    rw [hvalues, List.tail_cons] at hencloses
    refine ⟨?_, ?_, ?_⟩
    · rw [filter_concat]
      simpa [ht, Symbol.isBracket, List.filter_cons] using hunclosed.closeOne
    · rw [hvalues']
      cases hencloses with
      | cons _ houter => exact houter
    · -- the group was the argument list of a scalar, or the value itself
      rw [hvalues']
      cases hencloses with
      | @cons p _ _ _ hp _ =>
        intro q hq
        obtain rfl : p = q := by simpa using hq
        cases p with
        | vacant => exact hp.elim
        | scalar text line called =>
          obtain ⟨rfl, rfl⟩ := hp
          simp [EndsWith, ht, Symbol.takesArguments]
        | composite => trivial
  | pass ht _ hvalues' hbrackets =>
    refine ⟨?_, ?_, ?_⟩
    · rw [hbrackets, filter_concat]
      simpa [ht] using hunclosed
    · simpa [hvalues', hbrackets] using hencloses
    · simp [hvalues', EndsWith]

/-- The brackets of the machine are in step with the tokens, whatever tokens it has read. -/
theorem bracketed_run {read : List Token} {m : Machine} (h : Machine.start.run read = .ok m) :
    Bracketed read m := by
  refine run_induction (motive := Bracketed) ?_ ?_ h
  · exact ⟨.closed .nil, .nil, by simp [Machine.values, Machine.start]⟩
  · intro read m t m' _ hread hstep
    exact bracketed_step hread hstep

/-- A round bracket that the machine accepts comes after what takes arguments. -/
theorem takesArguments_of_step {read : List Token} {m m' : Machine} {t : Token}
    (h : Bracketed read m) (hstep : m.step t = .ok m') (ht : t.symbol = .opening .round) :
    ∃ t, read.getLast? = some t ∧ t.symbol.takesArguments = true := by
  cases value_step hstep with
  | read hread hvalues _ _ =>
    have hends := h.endsWith
    rw [hvalues] at hends
    cases hread with
    | scalar ht' => simp [ht] at ht'
    | list ht' hround =>
      obtain rfl : Bracket.round = _ := by simpa [ht] using ht'
      exact absurd rfl hround
    -- the first list of arguments comes after the scalar, a further one after a closing bracket or
    -- a name
    | @call text line called _ =>
      cases called with
      | false => exact ⟨_, hends _ rfl, rfl⟩
      | true => exact hends _ rfl
    | chain ht' => simp [ht] at ht'
  | close ht' _ _ _ => simp [ht] at ht'
  | pass ht' _ _ _ => simp [ht, Symbol.isBracket] at ht'

/-- A dash that the machine accepts is in no brackets. -/
theorem brackets_eq_nil_of_dash {m m' : Machine} {t : Token} (hstep : m.step t = .ok m')
    (ht : t.symbol = .dash) : m.brackets = [] := by
  cases value_step hstep with
  | read hread _ _ _ => cases hread <;> simp_all
  | close ht' _ _ _ => simp [ht] at ht'
  | pass _ hdash _ _ => exact hdash ht

/-- Between brackets that match there is no dash. -/
theorem dash_not_mem_of_run {m : Machine} {before inside after : List Token} {t : Token}
    {bracket : Bracket} (h : Machine.start.run (before ++ t :: (inside ++ after)) = .ok m)
    (ht : t.symbol = .opening bracket)
    (hinside : Matched ((inside.map Token.symbol).filter Symbol.isBracket)) :
    ∀ d ∈ inside, d.symbol ≠ .dash := by
  intro d hd hdash
  obtain ⟨front, back, rfl⟩ := List.append_of_mem hd
  -- at the dash no bracket is open, but the one before `front` has not been closed in `front`
  have hread : Machine.start.run ((before ++ t :: front) ++ d :: (back ++ after)) = .ok m := by
    simpa using h
  obtain ⟨m₁, m₂, hfront, hstep, -⟩ := exists_step_of_run hread
  have hclosed := (bracketed_run hfront).unclosed
  rw [brackets_eq_nil_of_dash hstep hdash] at hclosed
  obtain ⟨m₀, -, hbefore, -, -⟩ := exists_step_of_run h
  have hcount := hclosed.countP_eq
  have hcount₀ := (bracketed_run hbefore).unclosed.countP_eq
  have hextends : (front.map Token.symbol).filter Symbol.isBracket <+:
      ((front ++ d :: back).map Token.symbol).filter Symbol.isBracket := by
    simp
  have hle := hinside.countP_le hextends
  simp only [List.map_append, List.map_cons, List.filter_append, List.filter_cons, ht,
    Symbol.isBracket, List.countP_append, List.countP_cons, if_true, List.length_nil] at hcount
  simp [Symbol.isOpening, Symbol.isClosing] at hcount
  omega

/-- No bracket is open at the end of a document. -/
theorem groups_eq_nil_of_finish {m : Machine} {line : Nat} (h : m.finish line = .ok ()) :
    m.groups = [] := by
  unfold Machine.finish at h
  split_ifs at h
  split at h
  · split_ifs at h
  · assumption
  · assumption

/-- The machine takes every token of a document. Its brackets match, round ones come directly after
a scalar or a closing round one, and no dash is between a bracket and the one that closes it. -/
theorem decode_matches_brackets (source : Bytes) (h : decode source = .ok ()) :
    ∃ tokens m, lex source = .ok tokens ∧ Machine.start.run tokens = .ok m ∧ m.groups = [] ∧
      Matched ((tokens.map Token.symbol).filter Symbol.isBracket) ∧
      (∀ before t after, tokens = before ++ t :: after → t.symbol = .opening .round →
        ∃ last, before.getLast? = some last ∧ last.symbol.takesArguments = true) ∧
      ∀ before t inside u after bracket, tokens = before ++ t :: (inside ++ u :: after) →
        t.symbol = .opening bracket → u.symbol = .closing bracket →
        Matched ((inside.map Token.symbol).filter Symbol.isBracket) →
        ∀ d ∈ inside, d.symbol ≠ .dash := by
  obtain ⟨tokens, hlex, hparse⟩ := bind_eq_ok h
  obtain ⟨m, hrun, hfinish⟩ := bind_eq_ok hparse
  have hgroups := groups_eq_nil_of_finish hfinish
  refine ⟨tokens, m, hlex, hrun, hgroups, ?_, ?_, ?_⟩
  · have hunclosed := (bracketed_run hrun).unclosed
    rw [Machine.brackets, hgroups] at hunclosed
    cases hunclosed with
    | closed hmatched => exact hmatched
  · rintro before t after rfl ht
    obtain ⟨m₁, m₂, hbefore, hstep, -⟩ := exists_step_of_run hrun
    exact takesArguments_of_step (bracketed_run hbefore) hstep ht
  · rintro before t inside u after bracket rfl ht - hinside
    exact dash_not_mem_of_run hrun ht hinside

/-- A list over two lines, calls one after another, and an item. -/
def bracketedDocument : Bytes := Bytes.ascii "a: [1\n\t\x7bb: c(2)::d(3)(4)\x7d]\nl:\n\t- x\n"

theorem decode_matches_brackets_bracketedDocument :
    decode bracketedDocument = .ok () ∧
      ∃ tokens m, lex bracketedDocument = .ok tokens ∧ Machine.start.run tokens = .ok m ∧
        m.groups = [] ∧
        Matched ((tokens.map Token.symbol).filter Symbol.isBracket) ∧
        (∀ before t after, tokens = before ++ t :: after → t.symbol = .opening .round →
          ∃ last, before.getLast? = some last ∧ last.symbol.takesArguments = true) ∧
        ∀ before t inside u after bracket, tokens = before ++ t :: (inside ++ u :: after) →
          t.symbol = .opening bracket → u.symbol = .closing bracket →
          Matched ((inside.map Token.symbol).filter Symbol.isBracket) →
          ∀ d ∈ inside, d.symbol ≠ .dash := by
  have h : decode bracketedDocument = .ok () := by decide
  exact ⟨h, decode_matches_brackets bracketedDocument h⟩

end SourceTidy.Neon
