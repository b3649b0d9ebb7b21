import SourceTidy.Proofs.NeonLexing

/-! # NEON documents with other labels

The machine looks at the text of a scalar in two places: a scalar after a call has to start with two
colons, and a key must differ from the keys before it. It looks at the number of a line nowhere, and
only carries it to its faults. So other texts and other numbers of lines make no difference to what
it does, unless two keys of a mapping become one.

* `Relabels`: what the machine does with other labels, given what it does with the first ones;
* `newKey_relabel`: the only place where the texts matter;
* `step_relabel`: one token, with the labels of the machine and of the token changed;
* `run_relabel`, `finish_relabel`: all tokens, and the end of the document;
* `parse_relabel`: so what other labels do to a document.
-/

namespace SourceTidy.Neon

open Bytes

/-! ## Labels -/

/-- Other texts for scalars, and other numbers for lines. -/
structure Relabelling where
  text : Bytes → Bytes
  line : Nat → Nat

namespace Relabelling

/-- Other texts only. -/
def texts (f : Bytes → Bytes) : Relabelling := ⟨f, id⟩

/-- Other numbers only. -/
def lines (f : Nat → Nat) : Relabelling := ⟨id, f⟩

end Relabelling

def Token.relabel (r : Relabelling) (t : Token) : Token := ⟨t.symbol.rename r.text, r.line t.line⟩

/-- A problem names a symbol or a key, so it has a text too. -/
def Problem.rename (f : Bytes → Bytes) : Problem → Problem
  | .unexpected symbol => .unexpected (symbol.rename f)
  | .duplicatedKey key => .duplicatedKey (f key)
  | problem => problem

def Fault.relabel (r : Relabelling) (fault : Fault) : Fault :=
  ⟨fault.problem.rename r.text, r.line fault.line⟩

def Progress.relabel (r : Relabelling) : Progress → Progress
  | .scalar text line called => .scalar (r.text text) (r.line line) called
  | p => p

def Group.relabel (r : Relabelling) (g : Group) : Group :=
  { g with line := r.line g.line, keys := g.keys.map r.text, progress := g.progress.relabel r }

def LineSlot.relabel (r : Relabelling) : LineSlot → LineSlot
  | .itemValue key => .itemValue (r.text key)
  | slot => slot

def Block.relabel (r : Relabelling) (b : Block) : Block :=
  { b with
    keys := b.keys.map r.text, slot := b.slot.relabel r, progress := b.progress.relabel r }

/-- Every text and every line that the machine has kept is changed. -/
def Machine.relabel (r : Relabelling) (m : Machine) : Machine :=
  { blocks := m.blocks.map (Block.relabel r), groups := m.groups.map (Group.relabel r) }

/-- The texts that go on with a call still do so, and no others. -/
def KeepsChains (f : Bytes → Bytes) : Prop :=
  ∀ text, (ascii "::").isPrefixOf (f text) = (ascii "::").isPrefixOf text

/-! ## Results with other labels -/

/-- A result in which `g` changes the labels of what is fine. -/
def relabelled {α β : Type} (r : Relabelling) (g : α → β) : Except Fault α → Except Fault β
  | .ok a => .ok (g a)
  | .error fault => .error (fault.relabel r)

/-- A key is refused that is there twice. -/
def Duplicated {α : Type} (x : Except Fault α) : Prop :=
  ∃ key line, x = .error ⟨.duplicatedKey key, line⟩

/-- `y` is `x` with other labels, or it refuses a key because keys of `x` have become one. -/
def Relabels {α β : Type} (r : Relabelling) (g : α → β) (Merges : α → Prop) (x : Except Fault α)
    (y : Except Fault β) : Prop :=
  y = relabelled r g x ∨ (∃ a, x = .ok a ∧ Merges a) ∧ Duplicated y

section

variable {α β γ δ : Type} {r : Relabelling} {g : α → β} {g' : γ → δ} {Merges : α → Prop}
  {Merges' : γ → Prop} {x : Except Fault α} {y : Except Fault β}

theorem map_relabelled (r : Relabelling) (g : α → β) (k : β → γ) (x : Except Fault α) :
    (relabelled r g x).map k = relabelled r (fun a => k (g a)) x := by
  cases x <;> rfl

theorem relabelled_map (r : Relabelling) (g : β → γ) (k : α → β) (x : Except Fault α) :
    relabelled r g (x.map k) = relabelled r (fun a => g (k a)) x := by
  cases x <;> rfl

/-- Steps that change the labels alike can be taken one after the other. -/
theorem relabelled_bind {k : α → Except Fault γ} {k' : β → Except Fault δ}
    (h : ∀ a, k' (g a) = relabelled r g' (k a)) (x : Except Fault α) :
    relabelled r g x >>= k' = relabelled r g' (x >>= k) := by
  cases x with
  | error fault => rfl
  | ok a => exact h a

theorem ite_relabelled {c : Prop} [Decidable c] {x x' : Except Fault α} {y y' : Except Fault β}
    (h : y = relabelled r g x) (h' : y' = relabelled r g x') :
    (if c then y else y') = relabelled r g (if c then x else x') := by
  split
  · exact h
  · exact h'

/-- A refused key ends all that would come after it. -/
theorem Duplicated.bind (h : Duplicated x) (k : α → Except Fault γ) : Duplicated (x >>= k) := by
  obtain ⟨key, line, rfl⟩ := h
  exact ⟨key, line, rfl⟩

theorem Duplicated.map (h : Duplicated x) (k : α → γ) : Duplicated (x.map k) := by
  obtain ⟨key, line, rfl⟩ := h
  exact ⟨key, line, rfl⟩

theorem Duplicated.ne_ok (h : Duplicated x) (a : α) : x ≠ .ok a := by
  obtain ⟨key, line, rfl⟩ := h
  intro hok
  cases hok

/-- What follows on a result with other labels. -/
theorem Relabels.map (h : Relabels r g Merges x y) {k : α → γ} {k' : β → δ}
    (hk : ∀ a, k' (g a) = g' (k a)) (hmerges : ∀ a, Merges a → Merges' (k a)) :
    Relabels r g' Merges' (x.map k) (y.map k') := by
  rcases h with rfl | ⟨⟨a, rfl, hmerge⟩, hduplicated⟩
  · left
    rw [map_relabelled, relabelled_map]
    simp only [hk]
  · exact Or.inr ⟨⟨k a, rfl, hmerges a hmerge⟩, hduplicated.map k'⟩

end

/-! ## The machine -/

/-- Different keys become one. -/
def Merge (f : Bytes → Bytes) (keys : List Bytes) : Prop :=
  ∃ a ∈ keys, ∃ b ∈ keys, a ≠ b ∧ f a = f b

/-- Keys in the same brackets become one. -/
def GroupsMerge (f : Bytes → Bytes) (groups : List Group) : Prop := ∃ g ∈ groups, Merge f g.keys

/-- Keys of an open mapping become one. -/
def Machine.Merges (f : Bytes → Bytes) (m : Machine) : Prop :=
  GroupsMerge f m.groups ∨ ∃ b ∈ m.blocks.head?, Merge f b.keys

@[simp] theorem isVacant_relabel (r : Relabelling) (p : Progress) :
    (p.relabel r).isVacant = p.isVacant := by
  cases p <;> rfl

@[simp] theorem depth_relabel (r : Relabelling) (m : Machine) : (m.relabel r).depth = m.depth := by
  simp [Machine.relabel, Machine.depth, List.countP_map, Function.comp_def, Block.relabel]

/-- What can be a key still can. -/
theorem key?_relabel (r : Relabelling) (p : Progress) :
    (p.relabel r).key? = p.key?.map (Prod.map r.text r.line) := by
  cases p with
  | scalar text line called => cases called <;> rfl
  | _ => rfl

section

variable {r : Relabelling}

/-- A value goes on with the same tokens. -/
theorem read?_relabel (hr : KeepsChains r.text) (p : Progress) (t : Token) :
    (p.relabel r).read? (t.relabel r) =
      (p.read? t).map fun result => (result.1.relabel r, result.2.map (Group.relabel r)) := by
  obtain ⟨symbol, line⟩ := t
  cases p with
  | vacant =>
    cases symbol with
    | opening bracket => cases bracket <;> rfl
    | _ => rfl
  | composite => rfl
  | scalar text line' called =>
    cases symbol with
    | opening bracket => cases bracket <;> cases called <;> rfl
    | scalar chained =>
      -- only here is a text looked at, for the colons that continue a call
      cases called with
      | false => rfl
      | true =>
        simp only [Progress.read?, Progress.relabel, Token.relabel, Symbol.rename, hr chained]
        split <;> rfl
    | _ => cases called <;> rfl

/-- A key is still one, unless it is now one that the mapping has. -/
theorem newKey_relabel (r : Relabelling) (p : Progress) (keys : List Bytes) (t : Token) :
    Relabels r r.text (fun key => Merge r.text (key :: keys)) (newKey p keys t)
      (newKey (p.relabel r) (keys.map r.text) (t.relabel r)) := by
  simp only [newKey, key?_relabel]
  cases p.key? with
  | none => exact Or.inl rfl
  | some found =>
    obtain ⟨key, line⟩ := found
    simp only [Option.map_some, Prod.map_apply, List.contains_iff_mem]
    -- a key that is refused stays refused; one that is new is so still, or has become another one
    by_cases hkey : key ∈ keys
    · left
      rw [if_pos hkey, if_pos (List.mem_map_of_mem hkey)]
      rfl
    · rw [if_neg hkey]
      by_cases hmerged : r.text key ∈ keys.map r.text
      · rw [if_pos hmerged]
        obtain ⟨other, hother, hsame⟩ := List.mem_map.mp hmerged
        have hne : key ≠ other := by
          rintro rfl
          exact hkey hother
        exact Or.inr ⟨⟨key, rfl, key, List.mem_cons_self, other, List.mem_cons_of_mem key hother,
          hne, hsame.symm⟩, r.text key, r.line line, rfl⟩
      · rw [if_neg hmerged]
        exact Or.inl rfl

/-- In brackets a token does the same whatever the labels are, unless keys become one. -/
theorem group_step_relabel (hr : KeepsChains r.text) (g : Group) (outer : List Group) (t : Token) :
    Relabels r (List.map (Group.relabel r)) (GroupsMerge r.text) (g.step outer t)
      ((g.relabel r).step (outer.map (Group.relabel r)) (t.relabel r)) := by
  unfold Group.step
  rw [show (g.relabel r).progress = g.progress.relabel r from rfl, read?_relabel hr]
  cases g.progress.read? t with
  | some result =>
    left
    simp [relabelled, Group.relabel]
  | none =>
    have hnewKey := newKey_relabel r g.progress g.keys t
    obtain ⟨symbol, line⟩ := t
    rw [Option.map_none, isVacant_relabel]
    cases symbol with
    | newline indent => exact Or.inl (ite_relabelled rfl rfl)
    | closing bracket => exact Or.inl (ite_relabelled rfl rfl)
    | comma => exact Or.inl (ite_relabelled rfl rfl)
    | colon | equals =>
      -- a key is compared with those before it, so here the texts matter
      show Relabels _ _ _ (if (g.progress.isVacant || g.slot = .value) = true then _ else _)
        (if (g.progress.isVacant || g.slot = .value) = true then _ else _)
      split
      · exact Or.inl rfl
      · refine hnewKey.map (fun _ => rfl) ?_
        intro key hmerge
        exact ⟨_, List.mem_cons_self, hmerge⟩
    | _ => exact Or.inl rfl

/-- The key of an item is the only one of its mapping yet. -/
theorem not_merge_singleton (f : Bytes → Bytes) (key : Bytes) : ¬ Merge f [key] := by
  rintro ⟨a, ha, b, hb, hne, -⟩
  exact hne ((List.mem_singleton.mp ha).trans (List.mem_singleton.mp hb).symm)

/-- On a line a token does the same whatever the labels are, unless keys become one. -/
theorem block_step_relabel (hr : KeepsChains r.text) (b : Block) (t : Token) :
    Relabels r (fun result => (result.1.relabel r, result.2.map (Group.relabel r)))
      (fun result => Merge r.text result.1.keys) (b.step t)
      ((b.relabel r).step (t.relabel r)) := by
  unfold Block.step
  rw [show (b.relabel r).progress = b.progress.relabel r from rfl, read?_relabel hr,
    isVacant_relabel]
  cases b.progress.read? t with
  | some result => exact Or.inl rfl
  | none =>
    obtain ⟨indent, keys, counted, slot, progress⟩ := b
    have hnewKey (keys : List Bytes) := newKey_relabel r progress keys t
    obtain ⟨symbol, line⟩ := t
    cases slot with
    | entry =>
      cases progress.isVacant with
      | true => cases symbol <;> exact Or.inl rfl
      | false =>
        cases symbol with
        | colon | equals => exact (hnewKey keys).map (fun _ => rfl) fun _ hmerge => hmerge
        | _ => exact Or.inl rfl
    | item =>
      cases progress.isVacant with
      | true => cases symbol <;> exact Or.inl rfl
      | false =>
        cases symbol with
        | colon | equals =>
          -- the first key of a mapping has no others to become one with
          refine (hnewKey []).map (fun _ => rfl) ?_
          intro key hmerge
          exact absurd hmerge (not_merge_singleton _ key)
        | _ => exact Or.inl rfl
    | value => exact Or.inl rfl
    | itemValue key => exact Or.inl rfl

/-- The start of a line, which looks at no text at all. -/
theorem newLine_relabel (r : Relabelling) (depth line : Nat) (indent : Bytes)
    (blocks : List Block) :
    newLine depth (r.line line) indent (blocks.map (Block.relabel r)) =
      relabelled r (List.map (Block.relabel r)) (newLine depth line indent blocks) := by
  induction blocks with
  | nil => rfl
  | cons b outer ih =>
    rw [List.map_cons, newLine, newLine, ih]
    simp only [show (b.relabel r).progress = b.progress.relabel r from rfl, isVacant_relabel]
    obtain ⟨bindent, keys, counted, slot, progress⟩ := b
    -- the labels are in the leaves of the case distinctions only
    cases slot <;> cases progress.isVacant <;>
      simp only [LineSlot.relabel, Block.relabel,
        apply_ite (relabelled r (List.map (Block.relabel r)))] <;> rfl

/-- The machine does the same with a token whatever the labels are, unless keys become one. -/
theorem step_relabel (hr : KeepsChains r.text) (m : Machine) (t : Token) :
    Relabels r (Machine.relabel r) (Machine.Merges r.text) (m.step t)
      ((m.relabel r).step (t.relabel r)) := by
  unfold Machine.step
  rw [depth_relabel]
  split
  · exact Or.inl rfl
  · obtain ⟨blocks, groups⟩ := m
    cases groups with
    -- in brackets, and then on a line: the tokens that can make a key are those of these two cases
    | cons g outer => exact (group_step_relabel hr g outer t).map (fun _ => rfl) fun _ => Or.inl
    | nil =>
      obtain ⟨symbol, line⟩ := t
      cases blocks with
      | nil => cases symbol <;> exact Or.inl rfl
      | cons b outer =>
        cases symbol with
        | newline indent =>
          -- no key is made at the start of a line, so nothing can be merged
          left
          show (newLine _ (r.line line) indent ((b :: outer).map (Block.relabel r))).map _ =
            relabelled r _ ((newLine _ line indent (b :: outer)).map _)
          rw [newLine_relabel, map_relabelled, relabelled_map]
          rfl
        | _ =>
          refine (block_step_relabel hr b ⟨_, line⟩).map (fun _ => rfl) ?_
          intro result hmerge
          exact Or.inr ⟨result.1, rfl, hmerge⟩

/-- The machine does the same with other labels as long as no keys become one; else it refuses a
key. -/
theorem run_relabel (hr : KeepsChains r.text) (m : Machine) (tokens : List Token) :
    (m.relabel r).run (tokens.map (Token.relabel r)) =
        relabelled r (Machine.relabel r) (m.run tokens) ∨
      (∃ read m₁, read <+: tokens ∧ m.run read = .ok m₁ ∧ m₁.Merges r.text) ∧
        Duplicated ((m.relabel r).run (tokens.map (Token.relabel r))) := by
  induction tokens generalizing m with
  | nil => exact Or.inl rfl
  | cons t tokens ih =>
    -- keys become one at this token, or at one of the rest, or not at all
    rcases step_relabel hr m t with hstep | ⟨⟨m₁, hstep, hmerges⟩, hduplicated⟩
    · rw [List.map_cons]
      cases hm : m.step t with
      | error fault =>
        left
        rw [Machine.run, List.foldlM_cons, hstep, hm, Machine.run, List.foldlM_cons, hm]
        rfl
      | ok m₁ =>
        rw [hm] at hstep
        rw [run_cons hstep, run_cons hm]
        rcases ih m₁ with hrun | ⟨⟨read, m₂, hread, hrun, hmerges⟩, hduplicated⟩
        · exact Or.inl hrun
        · refine Or.inr ⟨⟨t :: read, m₂, ?_, ?_, hmerges⟩, hduplicated⟩
          · exact List.cons_prefix_cons.mpr ⟨rfl, hread⟩
          · rw [run_cons hm, hrun]
    · refine Or.inr ⟨⟨[t], m₁, ?_, run_cons hstep [], hmerges⟩, hduplicated.bind _⟩
      exact List.cons_prefix_cons.mpr ⟨rfl, List.nil_prefix⟩

/-- At the end of the document no key is made either. -/
theorem finish_relabel (r : Relabelling) (m : Machine) (line : Nat) :
    (m.relabel r).finish (r.line line) = relabelled r id (m.finish line) := by
  obtain ⟨blocks, groups⟩ := m
  rw [Machine.finish, Machine.finish, depth_relabel]
  split
  · rfl
  · cases groups with
    | cons g outer =>
      simp only [Machine.relabel, List.map_cons, Group.relabel, isVacant_relabel]
      exact ite_relabelled rfl rfl
    | nil =>
      cases blocks with
      | nil => rfl
      | cons b outer =>
        obtain ⟨indent, keys, counted, slot, progress⟩ := b
        simp only [Machine.relabel, List.map_cons, List.map_nil, Block.relabel, isVacant_relabel]
        cases slot <;> exact ite_relabelled rfl rfl

/-- A document stays one with other labels, and a fault the same one, unless keys become one. -/
theorem parse_relabel (hr : KeepsChains r.text) (tokens : List Token) :
    parse (tokens.map (Token.relabel r)) = relabelled r id (parse tokens) ∨
      (∃ read m, read <+: tokens ∧ Machine.start.run read = .ok m ∧ m.Merges r.text) ∧
        Duplicated (parse (tokens.map (Token.relabel r))) := by
  have hstart : Machine.start = Machine.start.relabel r := rfl
  rcases run_relabel hr Machine.start tokens with hrun | ⟨hmerges, hduplicated⟩
  · left
    -- without tokens there is no last line, and no fault
    rcases List.eq_nil_or_concat tokens with rfl | ⟨before, last, rfl⟩
    · rfl
    · rw [parse, hstart, hrun, parse]
      refine relabelled_bind (fun m => ?_) _
      simpa [Token.relabel] using finish_relabel r m last.line
  · exact Or.inr ⟨hmerges, hduplicated.bind _⟩

end

end SourceTidy.Neon
