import Mathlib.Data.List.Forall2
import Mathlib.Data.List.Induction
import Mathlib.Tactic.Common
import SourceTidy.Neon.Document

/-! # The outline of a NEON document

Which brackets and blocks are open at a token can be seen from the symbols before it: brackets by
counting, blocks by comparing the indentation of the lines. `outline` reads that off without
checking anything. On the tokens of a document the machine holds exactly the blocks and groups of
the outline.

* `Outline.step`: one symbol;
* `read?_cases`, `group_step_eq_ok`, `block_step_eq_ok`, `newLine_eq_ok`, `step_eq_ok`: all that an
  accepted token can do to a value, to groups, to a line, to blocks and to the machine;
* `follows_step`, `follows_run`: the machine follows the outline.
-/

namespace SourceTidy.Neon

/-! ## Outlines -/

/-- What opens a block. -/
inductive Opener where
  /-- The first line of the document. -/
  | document
  /-- A bare dash or key, whose value the block is. -/
  | value
  /-- The line of an item that starts with a key: the block goes on with the mapping of the key. -/
  | item
deriving DecidableEq, Repr

/-- A block, as the symbols show it. -/
structure Level where
  indent : Bytes
  opener : Opener
  /-- The symbols of its last line so far, without what is in brackets. -/
  line : List Symbol
deriving DecidableEq, Repr

namespace Level

/-- Does the line start with `- key:`? -/
def keyed (l : Level) : Bool :=
  l.line.head? == some .dash && (l.line.contains .colon || l.line.contains .equals)

/-- Does the line end with a dash or a key that waits for its value? -/
def bare (l : Level) : Bool :=
  match l.line.getLast? with
  | some .dash | some .colon | some .equals => true
  | _ => false

/-- The line with one more symbol. -/
def add (l : Level) (symbol : Symbol) : Level := { l with line := l.line ++ [symbol] }

/-- What a deeper line opens below the line. After `- key:` the value of the key comes first, on the
line or as a block, which is over if a block of the line has `ended`. -/
def opens (l : Level) (ended : Bool) : Opener :=
  if l.keyed && (ended || !l.bare) then .item else .value

end Level

/-- The blocks at the start of a line, innermost first: the deeper ones end, and the line goes on
with the block of its indentation or opens one. -/
def enter (indent : Bytes) (ended : Bool) : List Level → List Level
  | [] => [⟨indent, .document, []⟩]
  | l :: outer =>
    if indent.length < l.indent.length then enter indent true outer
    else if indent.length = l.indent.length then { l with line := [] } :: outer
    else ⟨indent, l.opens ended, []⟩ :: l :: outer

/-- The blocks after a symbol outside of brackets. -/
def extend (levels : List Level) : Symbol → List Level
  | .newline indent => enter indent false levels
  | symbol => levels.modifyHead (Level.add · symbol)

/-- How many brackets are open after a symbol. -/
def openBrackets (n : Nat) : Symbol → Nat
  | .opening _ => n + 1
  | .closing _ => n - 1
  | _ => n

/-- What is open at a token. -/
structure Outline where
  levels : List Level
  brackets : Nat
deriving DecidableEq, Repr

namespace Outline

/-- One symbol. Lines in brackets belong to the line of the opening bracket. -/
def step (o : Outline) (symbol : Symbol) : Outline :=
  { levels := if o.brackets = 0 then extend o.levels symbol else o.levels
    brackets := openBrackets o.brackets symbol }

/-- How many pairs of brackets and how many blocks below the outermost are open. -/
def nesting (o : Outline) : Nat := o.brackets + (o.levels.length - 1)

/-- How many of the open blocks go on with the mapping of an item. -/
def continuations (o : Outline) : Nat := o.levels.countP (·.opener = .item)

end Outline

/-- What is open after the tokens. -/
def outline (tokens : List Token) : Outline :=
  tokens.foldl (fun o t => o.step t.symbol) ⟨[], 0⟩

/-- There is never a second outermost block. -/
theorem countP_document_enter (indent : Bytes) (ended : Bool) (levels : List Level)
    (h : levels.countP (·.opener = .document) ≤ 1) :
    (enter indent ended levels).countP (·.opener = .document) ≤ 1 := by
  fun_induction enter indent ended levels with
  | case1 => simp
  | case2 ended l outer _ ih =>
    rw [List.countP_cons] at h
    exact ih (by omega)
  | case3 ended l outer => simpa [List.countP_cons] using h
  | case4 ended l outer =>
    have hopens : l.opens ended ≠ .document := by unfold Level.opens; split <;> simp
    rw [List.countP_cons]
    simpa [hopens] using h

/-- There is one outermost block. -/
theorem countP_document_extend (levels : List Level) (symbol : Symbol)
    (h : levels.countP (·.opener = .document) ≤ 1) :
    (extend levels symbol).countP (·.opener = .document) ≤ 1 := by
  cases symbol with
  | newline indent => exact countP_document_enter indent false levels h
  | _ =>
    cases levels with
    | nil => exact h
    | cons l outer => simpa [extend, Level.add, List.countP_cons] using h

/-- Blocks are counted by what opened them. -/
theorem length_eq_countP (levels : List Level) :
    levels.length = levels.countP (·.opener = .value) + levels.countP (·.opener = .item) +
      levels.countP (·.opener = .document) := by
  induction levels with
  | nil => rfl
  | cons l outer ih =>
    simp only [List.length_cons, List.countP_cons, ih]
    cases l.opener <;> simp <;> omega

/-! ## What an accepted token can do -/

theorem bind_eq_ok {ε α β : Type} {x : Except ε α} {f : α → Except ε β} {r : β}
    (h : (x >>= f) = .ok r) : ∃ a, x = .ok a ∧ f a = .ok r := by
  cases x with
  | error e => cases h
  | ok a => exact ⟨a, rfl, h⟩

theorem map_eq_ok {ε α β : Type} {x : Except ε α} {f : α → β} {r : β}
    (h : x.map f = .ok r) : ∃ a, x = .ok a ∧ f a = r := by
  cases x with
  | error e => cases h
  | ok a => exact ⟨a, rfl, Except.ok.inj h⟩

theorem eq_vacant {p : Progress} (h : p.isVacant = true) : p = .vacant := by
  simpa [Progress.isVacant] using h

/-- What a token can add to a value. -/
inductive ReadStep (t : Token) : Progress → Progress → List Group → Prop where
  | scalar {text} (ht : t.symbol = .scalar text) : ReadStep t .vacant (.scalar text t.line false) []
  /-- A list in square or curly brackets. -/
  | list {bracket} (ht : t.symbol = .opening bracket) (hround : bracket ≠ .round) :
      ReadStep t .vacant .composite [openGroup bracket t.line]
  /-- The arguments of a call. -/
  | call {text line called} (ht : t.symbol = .opening .round) :
      ReadStep t (.scalar text line called) (.scalar text line true) [openGroup .round t.line]
  /-- A method of what a call gives. -/
  | chain {text line method} (ht : t.symbol = .scalar method) :
      ReadStep t (.scalar text line true) (.scalar text line true) []

/-- A value takes a scalar, a bracket, a call of what it is, or a chain of calls. -/
theorem read?_cases {p p' : Progress} {t : Token} {opened : List Group}
    (h : p.read? t = some (p', opened)) : ReadStep t p p' opened := by
  unfold Progress.read? at h
  split at h
  case h_1 ht =>
    cases h
    exact .scalar ht
  case h_2 ht =>
    cases h
    exact .list ht (by decide)
  case h_3 ht =>
    cases h
    exact .list ht (by decide)
  case h_4 ht =>
    cases h
    exact .call ht
  case h_5 ht =>
    -- a scalar goes on with a call only if it starts with two colons
    split_ifs at h
    cases h
    exact .chain ht
  case h_6 => cases h

/-- A value that goes on with a token is not vacant after it; the token is a scalar, or opens a
group. -/
theorem read?_eq_some {p p' : Progress} {t : Token} {opened : List Group}
    (h : p.read? t = some (p', opened)) :
    p'.isVacant = false ∧
      ((∃ text, t.symbol = .scalar text) ∧ opened = [] ∨
        (∃ bracket, t.symbol = .opening bracket) ∧ opened.length = 1) := by
  cases read?_cases h with
  | scalar ht => exact ⟨rfl, .inl ⟨⟨_, ht⟩, rfl⟩⟩
  | list ht _ => exact ⟨rfl, .inr ⟨⟨_, ht⟩, rfl⟩⟩
  | call ht => exact ⟨rfl, .inr ⟨⟨_, ht⟩, rfl⟩⟩
  | chain ht => exact ⟨rfl, .inl ⟨⟨_, ht⟩, rfl⟩⟩

/-- A key is a scalar by itself that the mapping does not have. -/
theorem newKey_eq_ok {p : Progress} {keys : List Bytes} {t : Token} {key : Bytes}
    (h : newKey p keys t = .ok key) : (∃ line, p = .scalar key line false) ∧ key ∉ keys := by
  unfold newKey at h
  split at h
  case h_1 => cases h
  case h_2 text line hkey =>
    split_ifs at h with hcontains
    cases h
    unfold Progress.key? at hkey
    split at hkey
    case h_1 =>
      cases hkey
      exact ⟨⟨_, rfl⟩, by simpa using hcontains⟩
    case h_2 => cases hkey

/-- What a token in brackets can do to the open groups. -/
inductive GroupStep (g : Group) (outer : List Group) (t : Token) : List Group → Prop where
  /-- It goes on with the value. -/
  | read {progress opened} (h : g.progress.read? t = some (progress, opened)) :
      GroupStep g outer t (opened ++ { g with progress } :: outer)
  /-- A line ends before a value. -/
  | vacantLine {indent} (ht : t.symbol = .newline indent) (hvacant : g.progress.isVacant = true) :
      GroupStep g outer t (g :: outer)
  /-- A line ends after a value. -/
  | lineEnd {indent} (ht : t.symbol = .newline indent) (hvacant : g.progress.isVacant = false) :
      GroupStep g outer t ({ g with slot := .resumed, progress := .vacant } :: outer)
  | close (ht : t.symbol = .closing g.bracket) : GroupStep g outer t outer
  | comma (ht : t.symbol = .comma) :
      GroupStep g outer t ({ g with slot := .item, progress := .vacant } :: outer)
  | key {key} (ht : t.symbol = .colon ∨ t.symbol = .equals)
      (hkey : newKey g.progress g.keys t = .ok key) :
      GroupStep g outer t
        ({ g with keys := key :: g.keys, slot := .value, progress := .vacant } :: outer)

/-- A token in brackets is accepted only if it goes on with the value, makes a key, or ends the item
or the brackets. -/
theorem group_step_eq_ok {g : Group} {outer groups : List Group} {t : Token}
    (h : g.step outer t = .ok groups) : GroupStep g outer t groups := by
  unfold Group.step at h
  split at h
  -- the value goes on, or else the token itself says what it does
  case h_1 progress opened hread =>
    cases h
    exact .read hread
  case h_2 =>
    split at h
    case h_1 ht =>
      split_ifs at h with hvacant
      · cases h
        exact .vacantLine ht hvacant
      · cases h
        exact .lineEnd ht (by simpa using hvacant)
    case h_2 ht =>
      split_ifs at h with hbracket
      · cases h
        subst hbracket
        exact .close ht
      · cases h
    case h_3 ht =>
      split_ifs at h
      · cases h
      · cases h
        exact .comma ht
    case h_4 ht =>
      split_ifs at h
      · cases h
      · obtain ⟨key, hkey, h⟩ := bind_eq_ok h
        cases h
        exact .key (.inl ht) hkey
    case h_5 ht =>
      split_ifs at h
      · cases h
      · obtain ⟨key, hkey, h⟩ := bind_eq_ok h
        cases h
        exact .key (.inr ht) hkey
    case h_6 => cases h

/-- The number of open groups follows the brackets. -/
theorem length_group_step {g : Group} {outer groups : List Group} {t : Token}
    (h : GroupStep g outer t groups) :
    groups.length = openBrackets (outer.length + 1) t.symbol := by
  cases h with
  | read hread =>
    obtain ⟨-, ⟨⟨text, ht⟩, hopened⟩ | ⟨⟨bracket, ht⟩, hopened⟩⟩ := read?_eq_some hread
    · simp [ht, hopened, openBrackets]
    · simp [ht, hopened, openBrackets]
      omega
  | vacantLine ht _ => simp [ht, openBrackets]
  | lineEnd ht _ => simp [ht, openBrackets]
  | close ht => simp [ht, openBrackets]
  | comma ht => simp [ht, openBrackets]
  | key ht _ => rcases ht with ht | ht <;> simp [ht, openBrackets]

/-- What a token outside of brackets can do to a line. -/
inductive LineStep (b : Block) (t : Token) : Block → List Group → Prop where
  /-- It goes on with the value. -/
  | read {progress opened} (h : b.progress.read? t = some (progress, opened)) :
      LineStep b t { b with progress } opened
  | dash (hslot : b.slot = .entry) (hvacant : b.progress.isVacant = true) (ht : t.symbol = .dash) :
      LineStep b t { b with slot := .item } []
  | key {key} (hslot : b.slot = .entry) (ht : t.symbol = .colon ∨ t.symbol = .equals)
      (hkey : newKey b.progress b.keys t = .ok key) :
      LineStep b t { b with keys := key :: b.keys, slot := .value, progress := .vacant } []
  | itemKey {key} (hslot : b.slot = .item) (ht : t.symbol = .colon ∨ t.symbol = .equals)
      (hkey : newKey b.progress [] t = .ok key) :
      LineStep b t { b with slot := .itemValue key, progress := .vacant } []

/-- A token on a line is accepted only if it goes on with the value, or is a dash or makes a key. -/
theorem block_step_eq_ok {b b' : Block} {t : Token} {opened : List Group}
    (h : b.step t = .ok (b', opened)) : LineStep b t b' opened := by
  unfold Block.step at h
  split at h
  case h_1 progress opened' hread =>
    cases h
    exact .read hread
  case h_2 =>
    split at h
    case h_1 hslot hvacant ht =>
      cases h
      exact .dash hslot hvacant ht
    case h_2 hslot _ ht =>
      obtain ⟨key, hkey, h⟩ := bind_eq_ok h
      cases h
      exact .key hslot (.inl ht) hkey
    case h_3 hslot _ ht =>
      obtain ⟨key, hkey, h⟩ := bind_eq_ok h
      cases h
      exact .key hslot (.inr ht) hkey
    case h_4 hslot _ ht =>
      obtain ⟨key, hkey, h⟩ := bind_eq_ok h
      cases h
      exact .itemKey hslot (.inl ht) hkey
    case h_5 hslot _ ht =>
      obtain ⟨key, hkey, h⟩ := bind_eq_ok h
      cases h
      exact .itemKey hslot (.inr ht) hkey
    case h_6 => cases h

/-- What the start of a line can do to the open blocks. -/
inductive LineStart (depth line : Nat) (indent : Bytes) (b : Block) (outer : List Block) :
    List Block → Prop where
  /-- The line goes on with the block. -/
  | resumes (h : indent = b.indent) :
      LineStart depth line indent b outer ({ b with slot := .entry, progress := .vacant } :: outer)
  /-- The block has ended before the line. -/
  | ends {blocks} (h : deepens indent b.indent = true)
      (houter : newLine depth line indent outer = .ok blocks) :
      LineStart depth line indent b outer blocks
  /-- The line goes on with the mapping of an item. -/
  | continues {key} (h : deepens b.indent indent = true) (hslot : b.slot = .itemValue key)
      (hvacant : b.progress.isVacant = false) :
      LineStart depth line indent b outer
        (openBlock indent [key] false :: { b with slot := .value } :: outer)
  /-- The line starts the value of a dash or a key. -/
  | nests (h : deepens b.indent indent = true) (hslot : b.slot ≠ .entry)
      (hvacant : b.progress.isVacant = true) :
      LineStart depth line indent b outer
        (openBlock indent [] true :: { b with progress := .composite } :: outer)

/-- What the accepted start of a line does. -/
theorem newLine_eq_ok {depth line : Nat} {indent : Bytes} {b : Block} {outer blocks : List Block}
    (h : newLine depth line indent (b :: outer) = .ok blocks) :
    LineStart depth line indent b outer blocks := by
  have hresume : (if indent = b.indent then
      (.ok ({ b with slot := .entry, progress := .vacant } :: outer) : Except Fault (List Block))
      else if deepens indent b.indent then newLine depth line indent outer
      else .error ⟨.badIndentation, line⟩) = .ok blocks →
      LineStart depth line indent b outer blocks := by
    intro h
    split_ifs at h with heq hdeep
    · cases h
      exact .resumes heq
    · exact .ends hdeep h
  -- what the block waits for decides whether a deeper line may open one
  rw [newLine] at h
  split at h
  case h_1 => cases h
  case h_2 key hslot hvacant =>
    by_cases hdeep : deepens b.indent indent = true
    · rw [if_pos hdeep] at h
      cases h
      exact .continues hdeep hslot hvacant
    · rw [if_neg hdeep] at h
      exact hresume h
  case h_3 hvacant hentry =>
    by_cases hlonger : b.indent.length < indent.length
    · rw [if_pos hlonger] at h
      split_ifs at h with hprefix
      cases h
      have hdeep : deepens b.indent indent = true := by simp_all [deepens]
      exact .nests hdeep hentry hvacant
    · rw [if_neg hlonger] at h
      exact hresume h
  case h_4 => exact hresume h

/-- The same, with all the blocks that have ended before the line. -/
inductive Arrival (indent : Bytes) (blocks : List Block) : List Block → Prop where
  | resumes {ended b outer} (hblocks : blocks = ended ++ b :: outer)
      (hended : ∀ e ∈ ended, deepens indent e.indent = true) (h : indent = b.indent) :
      Arrival indent blocks ({ b with slot := .entry, progress := .vacant } :: outer)
  | continues {ended b outer key} (hblocks : blocks = ended ++ b :: outer)
      (hended : ∀ e ∈ ended, deepens indent e.indent = true) (h : deepens b.indent indent = true)
      (hslot : b.slot = .itemValue key) (hvacant : b.progress.isVacant = false) :
      Arrival indent blocks (openBlock indent [key] false :: { b with slot := .value } :: outer)
  | nests {ended b outer} (hblocks : blocks = ended ++ b :: outer)
      (hended : ∀ e ∈ ended, deepens indent e.indent = true) (h : deepens b.indent indent = true)
      (hslot : b.slot ≠ .entry) (hvacant : b.progress.isVacant = true) :
      Arrival indent blocks (openBlock indent [] true :: { b with progress := .composite } :: outer)

/-- One more block has ended. -/
theorem Arrival.cons {indent : Bytes} {b : Block} {outer blocks : List Block}
    (hb : deepens indent b.indent = true) (h : Arrival indent outer blocks) :
    Arrival indent (b :: outer) blocks := by
  have hcons {ended : List Block} (hended : ∀ e ∈ ended, deepens indent e.indent = true) :
      ∀ e ∈ b :: ended, deepens indent e.indent = true := by
    intro e he
    rcases List.mem_cons.mp he with rfl | he
    · exact hb
    · exact hended e he
  cases h with
  | resumes hblocks hended h =>
    subst hblocks
    exact .resumes rfl (hcons hended) h
  | continues hblocks hended h hslot hvacant =>
    subst hblocks
    exact .continues rfl (hcons hended) h hslot hvacant
  | nests hblocks hended h hslot hvacant =>
    subst hblocks
    exact .nests rfl (hcons hended) h hslot hvacant

/-- The start of a line at one block; `houter` is the same for the blocks around it. -/
theorem LineStart.arrives {depth line : Nat} {indent : Bytes} {b : Block}
    {outer blocks : List Block} (h : LineStart depth line indent b outer blocks)
    (houter : newLine depth line indent outer = .ok blocks → Arrival indent outer blocks) :
    Arrival indent (b :: outer) blocks := by
  have hblocks : b :: outer = [] ++ b :: outer := rfl
  cases h with
  | resumes h => exact .resumes hblocks (by simp) h
  | ends h hnext => exact .cons h (houter hnext)
  | continues h hslot hvacant => exact .continues hblocks (by simp) h hslot hvacant
  | nests h hslot hvacant => exact .nests hblocks (by simp) h hslot hvacant

/-- The blocks that end before a line are the deeper ones, and all of them. -/
theorem newLine_arrives {depth line : Nat} {indent : Bytes} {before blocks : List Block}
    (h : newLine depth line indent before = .ok blocks) : Arrival indent before blocks := by
  induction before with
  | nil => cases h
  | cons b outer ih => exact (newLine_eq_ok h).arrives ih

/-- A line starts with nothing read of its entry. -/
theorem Arrival.vacant {indent : Bytes} {before blocks : List Block}
    (h : Arrival indent before blocks) :
    ∃ b outer, blocks = b :: outer ∧ b.slot = .entry ∧ b.progress = .vacant := by
  cases h with
  | resumes => exact ⟨_, _, rfl, rfl, rfl⟩
  | continues => exact ⟨_, _, rfl, rfl, rfl⟩
  | nests => exact ⟨_, _, rfl, rfl, rfl⟩

/-- What a token can do to the machine. -/
inductive MachineStep (m : Machine) (t : Token) : Machine → Prop where
  | inGroup {g outer groups} (hgroups : m.groups = g :: outer) (h : GroupStep g outer t groups) :
      MachineStep m t { m with groups }
  | firstLine {indent} (hgroups : m.groups = []) (hblocks : m.blocks = [])
      (ht : t.symbol = .newline indent) :
      MachineStep m t { m with blocks := [openBlock indent [] false] }
  | lineStart {indent b outer blocks} (hgroups : m.groups = []) (hblocks : m.blocks = b :: outer)
      (ht : t.symbol = .newline indent)
      (h : LineStart m.depth t.line indent b outer blocks) :
      MachineStep m t { m with blocks }
  | inLine {b outer b' opened} (hgroups : m.groups = []) (hblocks : m.blocks = b :: outer)
      (ht : ∀ indent, t.symbol ≠ .newline indent) (h : LineStep b t b' opened) :
      MachineStep m t { blocks := b' :: outer, groups := opened }

/-- A token is accepted only within the nesting limit. -/
theorem step_eq_ok {m m' : Machine} {t : Token} (h : m.step t = .ok m') :
    m.depth ≤ maxDepth ∧ MachineStep m t m' := by
  unfold Machine.step at h
  split_ifs at h with hdepth
  refine ⟨by omega, ?_⟩
  -- in brackets, at the start of the first line, of another line, and on a line
  split at h
  case h_1 g outer hgroups =>
    obtain ⟨groups, hstep, rfl⟩ := map_eq_ok h
    exact .inGroup hgroups (group_step_eq_ok hstep)
  case h_2 indent hgroups hblocks ht =>
    cases h
    exact .firstLine hgroups hblocks ht
  case h_3 => cases h
  case h_4 b outer indent hgroups hblocks ht =>
    obtain ⟨blocks, hline, rfl⟩ := map_eq_ok h
    rw [hblocks] at hline
    exact .lineStart hgroups hblocks ht (newLine_eq_ok hline)
  case h_5 b outer hgroups hblocks ht =>
    obtain ⟨⟨b', opened⟩, hstep, rfl⟩ := map_eq_ok h
    exact .inLine hgroups hblocks ht (block_step_eq_ok hstep)

theorem run_append (m : Machine) (before after : List Token) :
    m.run (before ++ after) = m.run before >>= (Machine.run · after) :=
  List.foldlM_append

theorem run_cons {m m₁ : Machine} {t : Token} (h : m.step t = .ok m₁) (tokens : List Token) :
    m.run (t :: tokens) = m₁.run tokens := by
  rw [Machine.run, List.foldlM_cons, h]
  rfl

/-- Each token of an accepted list has been accepted by the machine on those before it. -/
theorem exists_step_of_run {m m' : Machine} {before after : List Token} {t : Token}
    (h : m.run (before ++ t :: after) = .ok m') :
    ∃ m₁ m₂, m.run before = .ok m₁ ∧ m₁.step t = .ok m₂ ∧ m₂.run after = .ok m' := by
  rw [run_append] at h
  obtain ⟨m₁, hbefore, hrest⟩ := bind_eq_ok h
  obtain ⟨m₂, hstep, hafter⟩ := bind_eq_ok hrest
  exact ⟨m₁, m₂, hbefore, hstep, hafter⟩

/-- What holds at the start and is kept by every accepted token holds after all the tokens read. -/
theorem run_induction {motive : List Token → Machine → Prop} (start : motive [] Machine.start)
    (step : ∀ read m t m', Machine.start.run read = .ok m → motive read m → m.step t = .ok m' →
      motive (read ++ [t]) m')
    {read : List Token} {m : Machine} (h : Machine.start.run read = .ok m) : motive read m := by
  induction read using List.reverseRecOn generalizing m with
  | nil =>
    cases h
    exact start
  | append_singleton read t ih =>
    obtain ⟨m₁, m₂, hread, hstep, hlast⟩ := exists_step_of_run h
    cases hlast
    exact step read m₁ t m hread (ih hread) hstep

/-! ## The machine follows the outline -/

/-- A block of the machine and a level of the outline are the same block. -/
structure Shows (l : Level) (b : Block) : Prop where
  indent : b.indent = l.indent
  counted : b.counted = decide (l.opener = .value)
  keyed : ∀ {key}, b.slot = .itemValue key → l.keyed = true

/-- The same block, with a block inside of its last line. -/
structure ShowsOuter (l : Level) (b : Block) : Prop extends Shows l b where
  filled : b.progress.isVacant = false

/-- The same block, which is the innermost. What the line has so far says what the machine waits
for. -/
structure ShowsInner (l : Level) (b : Block) : Prop extends Shows l b where
  entry : b.slot = .entry →
    l.line.head? ≠ some .dash ∧ (b.progress.isVacant = true → l.line = [])
  item : b.slot = .item → l.line.head? = some .dash ∧ l.keyed = false
  value : b.slot = .value → l.line.head? ≠ some .dash
  itemValue : ∀ {key}, b.slot = .itemValue key → l.bare = b.progress.isVacant

/-- The blocks of the machine are those of the outline. -/
inductive ShowsAll : List Level → List Block → Prop where
  | nil : ShowsAll [] []
  | cons {l b levels blocks} (inner : ShowsInner l b)
      (outer : List.Forall₂ ShowsOuter levels blocks) :
      ShowsAll (l :: levels) (b :: blocks)

/-- The machine and the outline hold the same brackets and blocks. -/
structure Follows (m : Machine) (o : Outline) : Prop where
  brackets : o.brackets = m.groups.length
  blocks : ShowsAll o.levels m.blocks
  document : o.levels.countP (·.opener = .document) ≤ 1

/-- What a deeper line opens below a line is what the machine opens there. -/
structure Awaits (ended : Bool) (l : Level) (b : Block) : Prop where
  item : ∀ {key}, b.slot = .itemValue key → b.progress.isVacant = false → l.opens ended = .item
  value : b.slot ≠ .entry → b.progress.isVacant = true → l.opens ended = .value

/-- The line of the innermost block has had no block that has ended. -/
theorem ShowsInner.awaits {l : Level} {b : Block} (h : ShowsInner l b) : Awaits false l b where
  item hslot hvacant := by
    have hbare := h.itemValue hslot
    simp [Level.opens, h.keyed hslot, hbare, hvacant]
  value hslot hvacant := by
    have hkeyed : l.keyed = true → l.bare = true := by
      intro hkeyed
      cases hb : b.slot with
      | entry => exact absurd hb hslot
      | item => simp [(h.item hb).2] at hkeyed
      | value => simp [Level.keyed, h.value hb] at hkeyed
      | itemValue key => rw [h.itemValue hb, hvacant]
    cases hkeyed' : l.keyed <;> simp_all [Level.opens]

/-- A line around another block has had one that has ended. -/
theorem ShowsOuter.awaits {l : Level} {b : Block} (h : ShowsOuter l b) : Awaits true l b where
  item hslot _ := by simp [Level.opens, h.keyed hslot]
  value _ hvacant := by simp [h.filled] at hvacant

/-- A block that has just been opened, or goes on with a new line. -/
theorem showsInner_of_entry {l : Level} {b : Block} (hindent : b.indent = l.indent)
    (hcounted : b.counted = decide (l.opener = .value)) (hslot : b.slot = .entry)
    (hline : l.line = []) :
    ShowsInner l b where
  indent := hindent
  counted := hcounted
  keyed h := by simp [hslot] at h
  entry _ := by simp [hline]
  item h := by simp [hslot] at h
  value h := by simp [hslot] at h
  itemValue h := by simp [hslot] at h

/-- The start of a line at one block; `hends` is the same for the blocks around it. -/
theorem showsAll_enter_cons {depth line : Nat} {indent : Bytes} {ended : Bool}
    {l : Level} {b : Block} {levels : List Level} {outer blocks : List Block}
    (hshows : Shows l b) (hawaits : Awaits ended l b)
    (houter : List.Forall₂ ShowsOuter levels outer)
    (hends : newLine depth line indent outer = .ok blocks →
      ShowsAll (enter indent true levels) blocks)
    (h : LineStart depth line indent b outer blocks) :
    ShowsAll (enter indent ended (l :: levels)) blocks := by
  have hindent := congrArg List.length hshows.indent
  unfold enter
  -- the outline compares lengths of indentations only; that they extend each other is what the
  -- machine has checked
  cases h with
  | resumes h =>
    have hlength := congrArg List.length h
    rw [if_neg (by omega), if_pos (by omega)]
    exact .cons (showsInner_of_entry hshows.indent hshows.counted rfl rfl) houter
  | ends h hnext =>
    simp only [deepens, Bool.and_eq_true, decide_eq_true_eq] at h
    rw [if_pos (by omega)]
    exact hends hnext
  | continues h hslot hvacant =>
    simp only [deepens, Bool.and_eq_true, decide_eq_true_eq] at h
    rw [if_neg (by omega), if_neg (by omega), hawaits.item hslot hvacant]
    refine .cons (showsInner_of_entry rfl rfl rfl rfl) (.cons ?_ houter)
    exact ⟨⟨hshows.indent, hshows.counted, nofun⟩, hvacant⟩
  | nests h hslot hvacant =>
    simp only [deepens, Bool.and_eq_true, decide_eq_true_eq] at h
    rw [if_neg (by omega), if_neg (by omega), hawaits.value hslot hvacant]
    refine .cons (showsInner_of_entry rfl rfl rfl rfl) (.cons ?_ houter)
    exact ⟨⟨hshows.indent, hshows.counted, hshows.keyed⟩, rfl⟩

/-- The blocks that end at the start of a line are those that the outline ends. -/
theorem showsAll_enter {depth line : Nat} {indent : Bytes} {levels : List Level}
    {outer blocks : List Block} (houter : List.Forall₂ ShowsOuter levels outer)
    (h : newLine depth line indent outer = .ok blocks) :
    ShowsAll (enter indent true levels) blocks := by
  induction houter with
  | nil => cases h
  | cons hnear hfar ih =>
    exact showsAll_enter_cons hnear.toShows hnear.awaits hfar ih (newLine_eq_ok h)

/-- The symbol stands between a key and its value. -/
def Symbol.assigns (symbol : Symbol) : Bool := symbol == .colon || symbol == .equals

namespace Level

@[simp] theorem head?_add (l : Level) (symbol : Symbol) :
    (l.add symbol).line.head? = l.line.head?.or (some symbol) := by
  simp [add, List.head?_append]

/-- A line that does not start with a dash does not start with one later. -/
theorem head?_add_ne {l : Level} {symbol : Symbol} (hhead : l.line.head? ≠ some .dash)
    (hsymbol : symbol ≠ .dash) : (l.add symbol).line.head? ≠ some .dash := by
  cases h : l.line.head? <;> simp_all

/-- A line becomes one that starts with `- key:` by the sign after the key. -/
@[simp] theorem keyed_add (l : Level) (symbol : Symbol) :
    (l.add symbol).keyed = (l.keyed || (l.line.head? == some .dash && symbol.assigns)) := by
  unfold keyed
  rw [head?_add]
  cases hhead : l.line.head? with
  | none =>
    have hline : l.line = [] := by simpa using hhead
    cases symbol <;> simp [hline, add]
  | some first =>
    simp only [add, Symbol.assigns, List.contains_append, Option.or]
    grind

@[simp] theorem bare_add (l : Level) (symbol : Symbol) :
    (l.add symbol).bare = (symbol == .dash || symbol.assigns) := by
  cases symbol <;> simp [bare, add, Symbol.assigns]

end Level

/-- A symbol on a line that the machine accepts keeps the innermost block the same. -/
theorem ShowsInner.step {l : Level} {b b' : Block} {t : Token} {opened : List Group}
    (h : ShowsInner l b) (hstep : LineStep b t b' opened) : ShowsInner (l.add t.symbol) b' := by
  -- the five facts about the innermost block are those of its slot, so in each case all but one or
  -- two of them are void
  cases hstep with
  | read hread =>
    obtain ⟨hfilled, hsymbol⟩ := read?_eq_some hread
    have hdash : t.symbol ≠ .dash := by grind
    have hassigns : t.symbol.assigns = false := by grind [Symbol.assigns]
    refine ⟨⟨h.indent, h.counted, ?_⟩, ?_, ?_, ?_, ?_⟩
    · intro key hslot
      simp [h.keyed hslot]
    · intro hslot
      have hhead := (h.entry hslot).1
      exact ⟨Level.head?_add_ne hhead hdash, by simp [hfilled]⟩
    · intro hslot
      obtain ⟨hhead, hkeyed⟩ := h.item hslot
      simp [hhead, hkeyed, hassigns]
    · intro hslot
      exact Level.head?_add_ne (h.value hslot) hdash
    · intro key hslot
      simp [hfilled, hdash, hassigns]
  | dash hslot hvacant ht =>
    have hline := (h.entry hslot).2 hvacant
    refine ⟨⟨h.indent, h.counted, nofun⟩, nofun, ?_, nofun, nofun⟩
    intro _
    simp [ht, hline, Level.keyed, Level.add]
  | key hslot ht _ =>
    have hdash : t.symbol ≠ .dash := by grind
    refine ⟨⟨h.indent, h.counted, nofun⟩, nofun, nofun, ?_, nofun⟩
    intro _
    exact Level.head?_add_ne (h.entry hslot).1 hdash
  | itemKey hslot ht _ =>
    obtain ⟨hhead, -⟩ := h.item hslot
    have hassigns : t.symbol.assigns = true := by grind [Symbol.assigns]
    refine ⟨⟨h.indent, h.counted, ?_⟩, nofun, nofun, nofun, ?_⟩
    · intro key _
      simp [hhead, hassigns]
    · intro key _
      simp [hassigns, Progress.isVacant]

/-- A symbol that is no line start adds to the innermost line. -/
theorem extend_cons (l : Level) (levels : List Level) {symbol : Symbol}
    (h : ∀ indent, symbol ≠ .newline indent) :
    extend (l :: levels) symbol = l.add symbol :: levels := by
  cases symbol with
  | newline indent => exact absurd rfl (h indent)
  | _ => rfl

/-- The groups that a line opens are the brackets that its symbol opens. -/
theorem length_opened {b b' : Block} {t : Token} {opened : List Group}
    (h : LineStep b t b' opened) :
    opened.length = openBrackets 0 t.symbol := by
  cases h with
  | read hread =>
    obtain ⟨-, ⟨⟨text, ht⟩, hopened⟩ | ⟨⟨bracket, ht⟩, hopened⟩⟩ := read?_eq_some hread
    · simp [ht, hopened, openBrackets]
    · simp [ht, hopened, openBrackets]
  | dash _ _ ht => simp [ht, openBrackets]
  | key _ ht _ => rcases ht with ht | ht <;> simp [ht, openBrackets]
  | itemKey _ ht _ => rcases ht with ht | ht <;> simp [ht, openBrackets]

/-- One token. -/
theorem follows_step {m m' : Machine} {o : Outline} {t : Token} (h : m.step t = .ok m')
    (hfollows : Follows m o) : Follows m' (o.step t.symbol) := by
  obtain ⟨blocks, groups⟩ := m
  obtain ⟨levels, brackets⟩ := o
  obtain ⟨hbrackets, hblocks, hdocument⟩ := hfollows
  dsimp only at hbrackets hblocks hdocument
  cases (step_eq_ok h).2 with
  | inGroup hgroups hgroup =>
    -- in brackets nothing happens to the blocks
    have hopen : brackets ≠ 0 := by simp_all
    subst hgroups
    refine ⟨?_, ?_, ?_⟩
    · simp [Outline.step, hbrackets, length_group_step hgroup]
    · simpa [Outline.step, hopen] using hblocks
    · simpa [Outline.step, hopen] using hdocument
  | firstLine hgroups hnone ht =>
    subst hgroups hnone hbrackets
    cases hblocks
    refine ⟨by simp [Outline.step, ht, openBrackets], ?_, ?_⟩
    · show ShowsAll (extend [] t.symbol) _
      rw [ht]
      exact .cons (showsInner_of_entry rfl rfl rfl rfl) .nil
    · exact countP_document_extend [] t.symbol hdocument
  | lineStart hgroups hsome ht hstart =>
    subst hgroups hsome hbrackets
    cases hblocks with
    | cons hinner houter =>
      refine ⟨by simp [Outline.step, ht, openBrackets], ?_, ?_⟩
      · show ShowsAll (extend (_ :: _) t.symbol) _
        rw [ht]
        exact showsAll_enter_cons hinner.toShows hinner.awaits houter (showsAll_enter houter) hstart
      · exact countP_document_extend _ t.symbol hdocument
  | inLine hgroups hsome ht hline =>
    subst hgroups hsome hbrackets
    cases hblocks with
    | cons hinner houter =>
      refine ⟨(length_opened hline).symm, ?_, ?_⟩
      · show ShowsAll (extend (_ :: _) t.symbol) _
        rw [extend_cons _ _ ht]
        exact .cons (hinner.step hline) houter
      · exact countP_document_extend _ t.symbol hdocument

/-- Any number of tokens. -/
theorem follows_run {m m' : Machine} {o : Outline} {tokens : List Token} (h : m.run tokens = .ok m')
    (hfollows : Follows m o) : Follows m' (tokens.foldl (fun o t => o.step t.symbol) o) := by
  induction tokens generalizing m o with
  | nil =>
    cases h
    exact hfollows
  | cons t tokens ih =>
    obtain ⟨m₁, hstep, hrun⟩ :=
      bind_eq_ok (show m.step t >>= (Machine.run · tokens) = .ok m' from h)
    exact ih hrun (follows_step hstep hfollows)

/-- The machine of a document holds at each token what the outline holds. -/
theorem follows_outline {m : Machine} {tokens : List Token} (h : Machine.start.run tokens = .ok m) :
    Follows m (outline tokens) :=
  follows_run h ⟨rfl, .nil, Nat.zero_le _⟩

end SourceTidy.Neon
