import SourceTidy.Proofs.NeonBrackets
import SourceTidy.Proofs.NeonLayout

/-! # The keys of NEON mappings

In a document no mapping has a key twice, and a text is refused for a duplicated key only if one of
its mappings has the key twice.

* `lexical_of_lex`: the lexer tells of no duplicated key;
* `step_eq_duplicated`: where the machine does;
* `HasAlready`: the mapping that goes on after some tokens has a key;
* `decode_tells_duplicated_keys`: both directions.
-/

namespace SourceTidy.Neon

/-! ## Where a duplicated key is found -/

theorem bind_eq_error {ε α β : Type} {x : Except ε α} {f : α → Except ε β} {e : ε}
    (h : (x >>= f) = .error e) : x = .error e ∨ ∃ a, x = .ok a ∧ f a = .error e := by
  cases x with
  | error e' => exact .inl (congrArg _ (Except.error.inj h))
  | ok a => exact .inr ⟨a, rfl, h⟩

theorem map_eq_error {ε α β : Type} {x : Except ε α} {f : α → β} {e : ε}
    (h : x.map f = .error e) : x = .error e := by
  cases x with
  | error e' => exact congrArg _ (Except.error.inj h)
  | ok a => cases h

/-- Is it the lexer that tells of the problem? -/
def Problem.isLexical : Problem → Bool
  | .mixedIndentation | .missingQuotes _ | .unterminatedString | .invalidEscape _ => true
  | _ => false

theorem lexical_of_quotedBody {quote : UInt8} {s : Bytes} {problem : Problem}
    (h : quotedBody quote s = .error problem) : problem.isLexical = true := by
  fun_induction quotedBody quote s with
  | case1 => cases h; rfl
  | case2 => cases h; rfl
  | case3 => cases h; rfl
  | case4 _ _ _ _ _ _ ih => exact ih (map_eq_error h)
  | case5 => cases h; rfl
  | case6 _ _ _ _ _ ih => exact ih (map_eq_error h)
  | case7 => cases h
  | case8 => cases h
  | case9 _ _ _ _ _ ih => exact ih (map_eq_error h)

/-- A symbol can go wrong in a string only. -/
theorem lexical_of_lexeme {b : UInt8} {rest : Bytes} {problem : Problem}
    (h : lexeme b rest = .error problem) : problem.isLexical = true := by
  unfold lexeme at h
  split at h
  case h_1 => cases h
  case h_2 =>
    split_ifs at h
    replace h := map_eq_error h
    unfold quotedString at h
    split_ifs at h
    · split at h
      · cases h
      · cases h
        rfl
    · exact lexical_of_quotedBody (map_eq_error h)

/-- The start of a line can go wrong in its indentation only. -/
theorem lexical_of_startLine {unit : Option UInt8} {line : Nat} {s : Bytes} {fault : Fault}
    (h : startLine unit line s = .error fault) : fault.problem.isLexical = true := by
  unfold startLine at h
  split at h
  · cases h
  · split at h
    · cases h
      rfl
    · cases h

theorem lexical_of_lexFrom {unit : Option UInt8} {line skip : Nat} {s : Bytes} {fault : Fault}
    (h : lexFrom unit line skip s = .error fault) : fault.problem.isLexical = true := by
  fun_induction lexFrom unit line skip s with
  | case1 => cases h
  | case2 _ _ _ _ _ ih => exact ih h
  | case3 _ _ _ _ hstart =>
    cases h
    exact lexical_of_startLine hstart
  | case4 _ _ _ _ _ _ ih => exact ih (map_eq_error h)
  | case5 _ _ _ _ _ _ hlexeme =>
    cases h
    exact lexical_of_lexeme hlexeme
  | case6 _ _ _ _ _ _ _ _ _ _ ih => exact ih (map_eq_error h)

/-- What the lexer finds wrong is never one of the problems of the machine. -/
theorem lexical_of_lex {source : Bytes} {fault : Fault} (h : lex source = .error fault) :
    fault.problem.isLexical = true := by
  unfold lex at h
  split at h
  case h_1 hstart =>
    cases h
    exact lexical_of_startLine hstart
  case h_2 => exact lexical_of_lexFrom (map_eq_error h)

/-- A key is duplicated if it is a scalar by itself that the mapping has. -/
theorem newKey_eq_duplicated {p : Progress} {keys : List Bytes} {t : Token} {key : Bytes}
    {line : Nat} (h : newKey p keys t = .error ⟨.duplicatedKey key, line⟩) :
    p = .scalar key line false ∧ key ∈ keys := by
  unfold newKey at h
  split at h
  case h_1 => cases h
  case h_2 text line' hkey =>
    split_ifs at h with hcontains
    cases h
    unfold Progress.key? at hkey
    split at hkey
    case h_1 =>
      cases hkey
      exact ⟨rfl, by simpa using hcontains⟩
    case h_2 => cases hkey

/-- In brackets, a text before a colon is refused that is already a key there. -/
theorem group_step_eq_duplicated {g : Group} {outer : List Group} {t : Token} {key : Bytes}
    {line : Nat} (h : g.step outer t = .error ⟨.duplicatedKey key, line⟩) :
    t.symbol.assigns = true ∧ g.progress = .scalar key line false ∧ key ∈ g.keys := by
  unfold Group.step at h
  split at h
  case h_1 => cases h
  case h_2 =>
    split at h
    case h_1 => split_ifs at h
    case h_2 =>
      split_ifs at h
      cases h
    case h_3 =>
      split_ifs at h
      cases h
    case h_6 => cases h
    -- a colon or an equals sign; all other tokens are refused for another reason
    all_goals
      rename_i ht
      split_ifs at h
      · cases h
      · rcases bind_eq_error h with h | ⟨key', -, h⟩
        · exact ⟨by simp [ht, Symbol.assigns], newKey_eq_duplicated h⟩
        · cases h

/-- On a line it is the first thing that is a duplicated key: the key of an item starts a
mapping. -/
theorem block_step_eq_duplicated {b : Block} {t : Token} {key : Bytes} {line : Nat}
    (h : b.step t = .error ⟨.duplicatedKey key, line⟩) :
    t.symbol.assigns = true ∧ b.slot = .entry ∧ b.progress = .scalar key line false ∧
      key ∈ b.keys := by
  unfold Block.step at h
  split at h
  case h_1 => cases h
  case h_2 =>
    split at h
    case h_1 => cases h
    case h_6 => cases h
    case h_2 hslot _ ht =>
      rcases bind_eq_error h with h | ⟨key', -, h⟩
      · exact ⟨by simp [ht, Symbol.assigns], hslot, newKey_eq_duplicated h⟩
      · cases h
    case h_3 hslot _ ht =>
      rcases bind_eq_error h with h | ⟨key', -, h⟩
      · exact ⟨by simp [ht, Symbol.assigns], hslot, newKey_eq_duplicated h⟩
      · cases h
    -- the key of an item is the first one of its mapping, so it cannot be there already
    all_goals
      rcases bind_eq_error h with h | ⟨key', -, h⟩
      · simpa using (newKey_eq_duplicated h).2
      · cases h

/-- The start of a line makes no key. -/
theorem newLine_ne_duplicated {depth line line' : Nat} {indent key : Bytes} {blocks : List Block} :
    newLine depth line indent blocks ≠ .error ⟨.duplicatedKey key, line'⟩ := by
  induction blocks with
  | nil => simp [newLine]
  | cons b outer ih =>
    intro h
    rw [newLine] at h
    split at h
    case h_1 => cases h
    case h_2 =>
      split_ifs at h
      · exact ih h
      · cases h
    case h_3 =>
      split_ifs at h
      · cases h
      · cases h
      · exact ih h
      · cases h
    case h_4 =>
      split_ifs at h
      · exact ih h
      · cases h

/-- A token is refused for a duplicated key only after a key that the innermost group, or else the
innermost block, has. -/
theorem step_eq_duplicated {m : Machine} {t : Token} {key : Bytes} {line : Nat}
    (h : m.step t = .error ⟨.duplicatedKey key, line⟩) :
    t.symbol.assigns = true ∧
      ((∃ g outer, m.groups = g :: outer ∧ g.progress = .scalar key line false ∧ key ∈ g.keys) ∨
        m.groups = [] ∧ ∃ b outer, m.blocks = b :: outer ∧ b.slot = .entry ∧
          b.progress = .scalar key line false ∧ key ∈ b.keys) := by
  unfold Machine.step at h
  rw [ite_eq_iff] at h
  rcases h with ⟨-, h⟩ | ⟨-, h⟩
  · cases h
  split at h
  case h_1 g outer hgroups =>
    obtain ⟨ht, hprogress, hkey⟩ := group_step_eq_duplicated (map_eq_error h)
    exact ⟨ht, .inl ⟨g, outer, hgroups, hprogress, hkey⟩⟩
  case h_2 => cases h
  case h_3 => cases h
  case h_4 => exact absurd (map_eq_error h) newLine_ne_duplicated
  case h_5 b outer hgroups hblocks _ =>
    obtain ⟨ht, hslot, hprogress, hkey⟩ := block_step_eq_duplicated (map_eq_error h)
    exact ⟨ht, .inr ⟨hgroups, b, outer, hblocks, hslot, hprogress, hkey⟩⟩

/-- The first token that is refused, and the machine before it. -/
theorem run_eq_error {m : Machine} {tokens : List Token} {fault : Fault}
    (h : m.run tokens = .error fault) :
    ∃ before t after m₁, tokens = before ++ t :: after ∧ m.run before = .ok m₁ ∧
      m₁.step t = .error fault := by
  induction tokens generalizing m with
  | nil => cases h
  | cons t tokens ih =>
    rcases bind_eq_error (show m.step t >>= (Machine.run · tokens) = .error fault from h) with
      hstep | ⟨m₁, hstep, hrun⟩
    · exact ⟨[], t, tokens, m, rfl, rfl, hstep⟩
    · obtain ⟨before, t', after, m₂, rfl, hbefore, hfault⟩ := ih hrun
      exact ⟨t :: before, t', after, m₂, rfl, (run_cons hstep before).trans hbefore, hfault⟩

/-- At the end of the document no key is refused. -/
theorem finish_ne_duplicated {m : Machine} {line line' : Nat} {key : Bytes} :
    m.finish line ≠ .error ⟨.duplicatedKey key, line'⟩ := by
  intro h
  unfold Machine.finish at h
  split_ifs at h
  · cases h
  · split at h
    · split_ifs at h <;> cases h
    · split_ifs at h
      cases h
    · cases h

/-! ## The keys of a mapping -/

/-- The mapping that the last token belongs to has the key already: it stands in the same brackets,
or the last token starts a line and the key is one of the block of that line. -/
inductive HasAlready (read : List Token) (key : Bytes) : Prop where
  | inBrackets {g outer} (hgroups : (reading read).groups = g :: outer) (hkey : key ∈ keysOf g)
  | onLine {l earlier root} (hgroups : (reading read).groups = [])
      (hlines : (reading read).lines = l :: earlier)
      (hsymbols : l.symbols = [.scalar key]) (hlayout : IsLayout (entryLines read) root)
      (hkey : key ∈ root.openKeys [])

/-- What the machine has read of a value, and the keys that it has, are in the tokens. -/
theorem hasAlready_of_duplicated {read : List Token} {m : Machine} {t : Token} {key : Bytes}
    {line : Nat} (hrun : Machine.start.run read = .ok m)
    (h : m.step t = .error ⟨.duplicatedKey key, line⟩) :
    read.getLast? = some ⟨.scalar key, line⟩ ∧ HasAlready read key := by
  have hends := (bracketed_run hrun).endsWith
  obtain ⟨hkeepsGroups, hgrown⟩ := keeps_run hrun
  -- in brackets the keys are those of the symbols in them; on a line they are those of the block,
  -- which the layout of the lines shows
  rcases (step_eq_duplicated h).2 with ⟨g, outer, hgroups, hprogress, hkey⟩ |
    ⟨hgroups, b, outer, hblocks, hslot, hprogress, hkey⟩
  · refine ⟨hends (.scalar key line false) (by simp [Machine.values, hgroups, hprogress]), ?_⟩
    rw [hgroups] at hkeepsGroups
    obtain ⟨symbols, around, hg, -, hreading⟩ := List.forall₂_cons_right_iff.mp hkeepsGroups
    refine .inBrackets hreading ?_
    rw [← hg.keys]
    simpa using hkey
  · have hvalue : .scalar key line false ∈ m.values.head? := by
      simp [Machine.values, hgroups, hblocks, hprogress]
    refine ⟨hends _ hvalue, ?_⟩
    rw [hgroups, List.forall₂_nil_right_iff] at hkeepsGroups
    obtain ⟨root, hlayout, -, -, hkeys⟩ := hgrown.exists_layout
    have hopen : key ∈ root.openKeys [] := by
      rw [← hkeys b (by simp [hblocks])]
      simpa using hkey
    obtain ⟨l, earlier, hlines, hsymbols⟩ : ∃ l earlier, (reading read).lines = l :: earlier ∧
        l.symbols = [.scalar key] := by
      rw [hblocks] at hgrown
      generalize (reading read).lines = lines at hgrown
      cases hgrown with
      | @cons _ _ _ _ _ l _ hshape _ =>
        obtain ⟨indent, symbols⟩ := l
        rw [hslot] at hshape
        cases hshape with
        | entry hvalue => exact ⟨_, _, rfl, hvalue.scalar hprogress⟩
    exact .onLine hkeepsGroups hlines hsymbols hlayout hopen

/-- In no pair of brackets is a key there twice. -/
theorem nodup_keysOf {symbols : List (List Symbol)} {groups : List Group}
    (h : List.Forall₂ KeepsGroup symbols groups) : ∀ g ∈ symbols, (keysOf g).Nodup := by
  induction h with
  | nil => simp
  | cons hg _ ih =>
    refine List.forall_mem_cons.mpr ⟨?_, ih⟩
    rw [← hg.keys, List.nodup_reverse]
    exact hg.nodup

/-- In a document the keys of every block and of every pair of brackets are different; a block that
goes on with an item also has the key of the item. A text is refused for a duplicated key only after
a key that the mapping has already, and on the line of that key. -/
theorem decode_tells_duplicated_keys (source : Bytes) :
    (decode source = .ok () → ∃ tokens, lex source = .ok tokens ∧
      (∃ root, IsLayout (entryLines tokens) root ∧
        (∀ other, IsLayout (entryLines tokens) other → other = root) ∧
        root.keys.Nodup ∧ root.InnerDistinct) ∧
      ∀ read, read <+: tokens → ∀ g ∈ (reading read).groups, (keysOf g).Nodup) ∧
    ∀ key line, decode source = .error ⟨.duplicatedKey key, line⟩ →
      ∃ read t after, lex source = .ok (read ++ t :: after) ∧ t.symbol.assigns = true ∧
        read.getLast? = some ⟨.scalar key, line⟩ ∧ HasAlready read key := by
  constructor
  · intro h
    obtain ⟨tokens, hlex, hparse⟩ := bind_eq_ok h
    obtain ⟨m, hrun, -⟩ := bind_eq_ok hparse
    obtain ⟨root, hroot, hkeys, hinner, -⟩ := (keeps_run hrun).blocks.exists_layout
    refine ⟨tokens, hlex, ⟨root, hroot, fun other hother => hother.unique hroot, hkeys, hinner⟩, ?_⟩
    -- the brackets that are open somewhere in the document are open after a part of its tokens
    rintro read ⟨rest, rfl⟩
    rw [run_append] at hrun
    obtain ⟨m₁, hread, -⟩ := bind_eq_ok hrun
    exact nodup_keysOf (keeps_run hread).groups
  · intro key line h
    rcases bind_eq_error h with hlex | ⟨tokens, hlex, hparse⟩
    · exact absurd (lexical_of_lex hlex) Bool.false_ne_true
    · rcases bind_eq_error hparse with hrun | ⟨m, -, hfinish⟩
      · obtain ⟨read, t, after, m, rfl, hread, hstep⟩ := run_eq_error hrun
        obtain ⟨hlast, hhas⟩ := hasAlready_of_duplicated hread hstep
        exact ⟨read, t, after, hlex, (step_eq_duplicated hstep).1, hlast, hhas⟩
      · exact absurd hfinish finish_ne_duplicated

/-- One key in five mappings. -/
def keyedDocument : Bytes :=
  Bytes.ascii "- k:\n\t\tk: 1\n\tl: \x7bk: 1, m: f(k: 2)\x7d\n- k: [k: 3]\n"

/-- An item goes on with the key that it starts with. -/
def doubledDocument : Bytes := Bytes.ascii "- k: 1\n\tk: 2\n"

theorem decode_tells_duplicated_keys_keyedDocument :
    (decode keyedDocument = .ok () ∧ ∃ tokens, lex keyedDocument = .ok tokens ∧
      (∃ root, IsLayout (entryLines tokens) root ∧
        (∀ other, IsLayout (entryLines tokens) other → other = root) ∧
        root.keys.Nodup ∧ root.InnerDistinct) ∧
      ∀ read, read <+: tokens → ∀ g ∈ (reading read).groups, (keysOf g).Nodup) ∧
    decode doubledDocument = .error ⟨.duplicatedKey (Bytes.ascii "k"), 2⟩ ∧
      ∃ read t after, lex doubledDocument = .ok (read ++ t :: after) ∧ t.symbol.assigns = true ∧
        read.getLast? = some ⟨.scalar (Bytes.ascii "k"), 2⟩ ∧
        HasAlready read (Bytes.ascii "k") := by
  have hkeyed : decode keyedDocument = .ok () := by decide
  have hdoubled : decode doubledDocument = .error ⟨.duplicatedKey (Bytes.ascii "k"), 2⟩ := by decide
  exact ⟨⟨hkeyed, (decode_tells_duplicated_keys keyedDocument).1 hkeyed⟩, hdoubled,
    (decode_tells_duplicated_keys doubledDocument).2 _ _ hdoubled⟩

end SourceTidy.Neon
