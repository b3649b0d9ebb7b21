import Mathlib.Data.List.Nodup
import SourceTidy.Proofs.NeonReading

/-! # The layout of a NEON document

The lines of a document form a tree of blocks, by their indentation. There is one such tree, and the
machine holds the blocks on the way to its last line.

* `Layout`, `LaidOut`: trees of blocks, and the rule for what may be below a line;
* `laidOut_unique`: lines can be laid out in one way only;
* `Surrounds`, `Grown`: the blocks of the machine as a tree that still grows at its last line;
* `keeps_run`, `Surrounds.close`: the tree of what has been read;
* `decode_lays_out`: the lines of a document are laid out.
-/

namespace SourceTidy.Neon

/-! ## Trees of blocks -/

/-- A block: its first line, the block that is the value of that line, the block that goes on with
the mapping of an item on that line, and the other lines of the block with what is below them. -/
inductive Layout where
  /-- No block, or no more lines of it. -/
  | none
  | entry (line : EntryLine) (value continuation rest : Layout)
deriving DecidableEq, Repr

namespace Layout

/-- All lines, in order. -/
def lines : Layout → List EntryLine
  | .none => []
  | .entry line value continuation rest =>
      line :: (value.lines ++ (continuation.lines ++ rest.lines))

/-- The keys of the lines of the block itself. -/
def keys : Layout → List Bytes
  | .none => []
  | .entry line _ _ rest => line.key?.toList ++ rest.keys

/-- The lines of `b` after those of `a`, in the same block. -/
def append : Layout → Layout → Layout
  | .none, b => b
  | .entry line value continuation rest, b => .entry line value continuation (rest.append b)

/-- In every block below a line of the block the keys are different. A block that goes on with the
mapping of an item also has the key of the item. -/
def InnerDistinct : Layout → Prop
  | .none => True
  | .entry line value continuation rest =>
    value.keys.Nodup ∧ value.InnerDistinct ∧ (line.itemKey?.toList ++ continuation.keys).Nodup ∧
      continuation.InnerDistinct ∧ rest.InnerDistinct

/-- The keys of the block that the last line is in, where the outermost block already has the keys
`held`. -/
def openKeys (held : List Bytes) : Layout → List Bytes
  | .none => held
  | .entry line value continuation rest =>
    if rest ≠ .none then rest.openKeys (held ++ line.key?.toList)
    else if continuation ≠ .none then continuation.openKeys line.itemKey?.toList
    else if value ≠ .none then value.openKeys []
    else held ++ line.key?.toList

@[simp] theorem lines_append (a b : Layout) : (a.append b).lines = a.lines ++ b.lines := by
  induction a with
  | none => rfl
  | entry line value continuation rest _ _ ih => simp [append, lines, ih]

@[simp] theorem keys_append (a b : Layout) : (a.append b).keys = a.keys ++ b.keys := by
  induction a with
  | none => rfl
  | entry line value continuation rest _ _ ih => simp [append, keys, ih]

/-- Blocks of which the inner ones have different keys can be put one after the other. -/
theorem innerDistinct_append {a b : Layout} (ha : a.InnerDistinct) (hb : b.InnerDistinct) :
    (a.append b).InnerDistinct := by
  induction a with
  | none => exact hb
  | entry line value continuation rest _ _ ih =>
    obtain ⟨hkeys, hvalue, hkeys', hcontinuation, hrest⟩ := ha
    exact ⟨hkeys, hvalue, hkeys', hcontinuation, ih hrest⟩

theorem append_ne_none (a : Layout) {b : Layout} (h : b ≠ .none) : a.append b ≠ .none := by
  cases a with
  | none => exact h
  | entry => exact nofun

/-- The block that the last line is in lies in the second part. -/
theorem openKeys_append (a : Layout) {b : Layout} (hb : b ≠ .none) (held : List Bytes) :
    (a.append b).openKeys held = b.openKeys (held ++ a.keys) := by
  induction a generalizing held with
  | none => simp [append, keys]
  | entry line value continuation rest _ _ ih =>
    simp [append, openKeys, append_ne_none rest hb, ih, keys]

end Layout

/-- The layout rule. All lines of a block have one indentation, and a block below a line has a
deeper one. -/
inductive LaidOut : Bytes → Layout → Prop where
  | none {indent} : LaidOut indent .none
  /-- Nothing is below the line. -/
  | line {indent l rest} (hl : l.indent = indent) (hrest : LaidOut indent rest) :
      LaidOut indent (.entry l .none .none rest)
  /-- A bare dash or key, and its value. -/
  | value {indent inner l value rest} (hl : l.indent = indent) (hbare : l.bare = true)
      (hdeep : deepens indent inner = true) (hne : value ≠ .none) (hvalue : LaidOut inner value)
      (hrest : LaidOut indent rest) : LaidOut indent (.entry l value .none rest)
  /-- An item with a key and a value on its line, which goes on below. -/
  | item {indent outer l continuation rest} (hl : l.indent = indent)
      (hkey : l.itemKey? ≠ Option.none)
      (hbare : l.bare = false) (hdeep : deepens indent outer = true) (hne : continuation ≠ .none)
      (hcontinuation : LaidOut outer continuation) (hrest : LaidOut indent rest) :
      LaidOut indent (.entry l .none continuation rest)
  /-- An item with a bare key, which goes on below the value of the key. -/
  | valueItem {indent outer inner l value continuation rest} (hl : l.indent = indent)
      (hkey : l.itemKey? ≠ Option.none) (hbare : l.bare = true)
      (hdeep : deepens indent outer = true)
      (hdeeper : deepens outer inner = true) (hne : value ≠ .none) (hvalue : LaidOut inner value)
      (hne' : continuation ≠ .none) (hcontinuation : LaidOut outer continuation)
      (hrest : LaidOut indent rest) : LaidOut indent (.entry l value continuation rest)

/-- A block can go on with more lines of its indentation. -/
theorem LaidOut.append {indent : Bytes} {a b : Layout} (ha : LaidOut indent a)
    (hb : LaidOut indent b) :
    LaidOut indent (a.append b) := by
  induction ha with
  | none => exact hb
  | line hl _ ih => exact .line hl (ih hb)
  | value hl hbare hdeep hne hvalue _ _ ih => exact .value hl hbare hdeep hne hvalue (ih hb)
  | item hl hkey hbare hdeep hne hcontinuation _ _ ih =>
    exact .item hl hkey hbare hdeep hne hcontinuation (ih hb)
  | valueItem hl hkey hbare hdeep hdeeper hne hvalue hne' hcontinuation _ _ _ ih =>
    exact .valueItem hl hkey hbare hdeep hdeeper hne hvalue hne' hcontinuation (ih hb)

/-- The first line of a block has its indentation. -/
theorem LaidOut.exists_head {indent : Bytes} {a : Layout} (h : LaidOut indent a) (hne : a ≠ .none) :
    ∃ l rest, a.lines = l :: rest ∧ l.indent = indent := by
  cases h with
  | none => exact absurd rfl hne
  | line hl => exact ⟨_, _, rfl, hl⟩
  | value hl => exact ⟨_, _, rfl, hl⟩
  | item hl => exact ⟨_, _, rfl, hl⟩
  | valueItem hl => exact ⟨_, _, rfl, hl⟩

/-! ## One layout only -/

theorem deepens_iff {outer inner : Bytes} :
    deepens outer inner = true ↔ outer.length < inner.length ∧ outer <+: inner := by
  simp [deepens]

theorem deepens_trans {a b c : Bytes} (h : deepens a b = true) (h' : deepens b c = true) :
    deepens a c = true := by
  rw [deepens_iff] at h h' ⊢
  exact ⟨by omega, h.2.trans h'.2⟩

/-- The lines after a block: the first of them is not as deep as the block. -/
def After (indent : Bytes) (lines : List EntryLine) : Prop :=
  ∀ l ∈ lines.head?, ¬ indent <+: l.indent

@[simp] theorem after_nil (indent : Bytes) : After indent [] := by simp [After]

/-- What comes after a block also comes after the blocks in it. -/
theorem After.deepen {outer inner : Bytes} {lines : List EntryLine} (h : After outer lines)
    (hdeep : deepens outer inner = true) : After inner lines := by
  intro l hl hextends
  exact h l hl ((deepens_iff.mp hdeep).2.trans hextends)

/-- The rest of a block comes after the blocks below a line of it. -/
theorem LaidOut.after {indent inner : Bytes} {a : Layout} {lines : List EntryLine}
    (h : LaidOut indent a) (hlines : After indent lines) (hdeep : deepens indent inner = true) :
    After inner (a.lines ++ lines) := by
  by_cases hne : a = .none
  · subst hne
    exact hlines.deepen hdeep
  · obtain ⟨l, rest, ha, rfl⟩ := h.exists_head hne
    intro l' hl' hextends
    obtain rfl : l = l' := by simpa [ha] using hl'
    have hlength := hextends.length_le
    have hdeep := (deepens_iff.mp hdeep).1
    omega

/-- A block cannot start where the lines after it start. -/
theorem LaidOut.not_after {indent : Bytes} {a : Layout} {more lines : List EntryLine}
    (ha : LaidOut indent a) (hne : a ≠ .none) (h : a.lines ++ more = lines) :
    ¬ After indent lines := by
  intro hafter
  obtain ⟨l, rest, hlines, rfl⟩ := ha.exists_head hne
  subst h
  exact hafter l (by simp [hlines]) (List.prefix_refl _)

/-- Blocks that start with the same line have one indentation. -/
theorem LaidOut.indent_eq {i j : Bytes} {a b : Layout} {x y : List EntryLine} (ha : LaidOut i a)
    (hb : LaidOut j b) (hane : a ≠ .none) (hbne : b ≠ .none) (h : a.lines ++ x = b.lines ++ y) :
    i = j := by
  obtain ⟨l, rest, hl, rfl⟩ := ha.exists_head hane
  obtain ⟨l', rest', hl', rfl⟩ := hb.exists_head hbne
  rw [hl, hl'] at h
  obtain ⟨rfl, -⟩ := List.cons_eq_cons.mp h
  rfl

/-- The first line of two blocks, and all that comes after it. -/
theorem Layout.lines_entry_inj {l l' : EntryLine} {v c r v' c' r' : Layout} {x y : List EntryLine}
    (h : (Layout.entry l v c r).lines ++ x = (Layout.entry l' v' c' r').lines ++ y) :
    l = l' ∧
      v.lines ++ (c.lines ++ (r.lines ++ x)) = v'.lines ++ (c'.lines ++ (r'.lines ++ y)) := by
  simpa [Layout.lines] using h

/-- Lines can be cut off as a block, with what is below them, in one way only. Whether the first
line after another one is below it shows in its indentation, and whether it starts the value or goes
on with the item shows in the line above. -/
theorem laidOut_unique {indent : Bytes} {a b : Layout} {x y : List EntryLine}
    (ha : LaidOut indent a) (hb : LaidOut indent b) (hx : After indent x) (hy : After indent y)
    (h : a.lines ++ x = b.lines ++ y) : a = b ∧ x = y := by
  -- on the first layout; where the second one has another rule for the same line, the next line
  -- would be both deep enough to be below it and not
  induction ha generalizing b x y with
  | none =>
    by_cases hne : b = .none
    · subst hne
      exact ⟨rfl, h⟩
    · exact absurd hx (hb.not_after hne h.symm)
  | line hl hrest ih =>
    cases hb with
    | none => exact absurd hy ((LaidOut.line hl hrest).not_after nofun h)
    | line _ hrest' =>
      obtain ⟨rfl, hmore⟩ := Layout.lines_entry_inj h
      obtain ⟨rfl, rfl⟩ := ih hrest' hx hy hmore
      exact ⟨rfl, rfl⟩
    | value _ _ hdeep' hne' hvalue' _ =>
      obtain ⟨rfl, hmore⟩ := Layout.lines_entry_inj h
      exact absurd (hrest.after hx hdeep') (hvalue'.not_after hne' hmore.symm)
    | item _ _ _ hdeep' hne' hcontinuation' _ =>
      obtain ⟨rfl, hmore⟩ := Layout.lines_entry_inj h
      exact absurd (hrest.after hx hdeep') (hcontinuation'.not_after hne' hmore.symm)
    | valueItem _ _ _ hdeep' hdeeper' hne' hvalue' _ _ _ =>
      obtain ⟨rfl, hmore⟩ := Layout.lines_entry_inj h
      exact absurd (hrest.after hx (deepens_trans hdeep' hdeeper'))
        (hvalue'.not_after hne' hmore.symm)
  | value hl hbare hdeep hne hvalue hrest ihvalue ih =>
    cases hb with
    | none => exact absurd hy ((LaidOut.value hl hbare hdeep hne hvalue hrest).not_after nofun h)
    | line _ hrest' =>
      obtain ⟨rfl, hmore⟩ := Layout.lines_entry_inj h
      exact absurd (hrest'.after hy hdeep) (hvalue.not_after hne hmore)
    | value _ _ _ hne' hvalue' hrest' =>
      obtain ⟨rfl, hmore⟩ := Layout.lines_entry_inj h
      -- both have a block here, so its first line gives both the same indentation
      obtain rfl := hvalue.indent_eq hvalue' hne hne' hmore
      obtain ⟨rfl, hrest_eq⟩ := ihvalue hvalue' (hrest.after hx hdeep) (hrest'.after hy hdeep) hmore
      obtain ⟨rfl, rfl⟩ := ih hrest' hx hy hrest_eq
      exact ⟨rfl, rfl⟩
    | item _ _ hbare' _ _ _ _ =>
      obtain ⟨rfl, -⟩ := Layout.lines_entry_inj h
      simp [hbare] at hbare'
    | valueItem _ _ _ hdeep' hdeeper' hne' hvalue' hne'' hcontinuation' hrest' =>
      obtain ⟨rfl, hmore⟩ := Layout.lines_entry_inj h
      obtain rfl := hvalue.indent_eq hvalue' hne hne' hmore
      have hafter := hcontinuation'.after (hrest'.after hy hdeep') hdeeper'
      obtain ⟨rfl, hrest_eq⟩ := ihvalue hvalue' (hrest.after hx hdeep) hafter hmore
      exact absurd (hrest.after hx hdeep') (hcontinuation'.not_after hne'' hrest_eq.symm)
  | item hl hkey hbare hdeep hne hcontinuation hrest ihcontinuation ih =>
    cases hb with
    | none =>
      exact absurd hy ((LaidOut.item hl hkey hbare hdeep hne hcontinuation hrest).not_after nofun h)
    | line _ hrest' =>
      obtain ⟨rfl, hmore⟩ := Layout.lines_entry_inj h
      exact absurd (hrest'.after hy hdeep) (hcontinuation.not_after hne hmore)
    | value _ hbare' _ _ _ _ =>
      obtain ⟨rfl, -⟩ := Layout.lines_entry_inj h
      simp [hbare] at hbare'
    | item _ _ _ _ hne' hcontinuation' hrest' =>
      obtain ⟨rfl, hmore⟩ := Layout.lines_entry_inj h
      obtain rfl := hcontinuation.indent_eq hcontinuation' hne hne' hmore
      obtain ⟨rfl, hrest_eq⟩ :=
        ihcontinuation hcontinuation' (hrest.after hx hdeep) (hrest'.after hy hdeep) hmore
      obtain ⟨rfl, rfl⟩ := ih hrest' hx hy hrest_eq
      exact ⟨rfl, rfl⟩
    | valueItem _ _ hbare' _ _ _ _ _ _ _ =>
      obtain ⟨rfl, -⟩ := Layout.lines_entry_inj h
      simp [hbare] at hbare'
  | valueItem hl hkey hbare hdeep hdeeper hne hvalue hne₁ hcontinuation hrest ihvalue
      ihcontinuation ih =>
    cases hb with
    | none =>
      have ha := LaidOut.valueItem hl hkey hbare hdeep hdeeper hne hvalue hne₁ hcontinuation hrest
      exact absurd hy (ha.not_after nofun h)
    | line _ hrest' =>
      obtain ⟨rfl, hmore⟩ := Layout.lines_entry_inj h
      exact absurd (hrest'.after hy (deepens_trans hdeep hdeeper)) (hvalue.not_after hne hmore)
    | value _ _ hdeep' hne' hvalue' hrest' =>
      obtain ⟨rfl, hmore⟩ := Layout.lines_entry_inj h
      obtain rfl := hvalue.indent_eq hvalue' hne hne' hmore
      have hafter := hcontinuation.after (hrest.after hx hdeep) hdeeper
      obtain ⟨rfl, hrest_eq⟩ := ihvalue hvalue' hafter (hrest'.after hy hdeep') hmore
      exact absurd (hrest'.after hy hdeep) (hcontinuation.not_after hne₁ hrest_eq)
    | item _ _ hbare' _ _ _ _ =>
      obtain ⟨rfl, -⟩ := Layout.lines_entry_inj h
      simp [hbare] at hbare'
    | valueItem _ _ _ hdeep' hdeeper' hne' hvalue' hne₁' hcontinuation' hrest' =>
      obtain ⟨rfl, hmore⟩ := Layout.lines_entry_inj h
      obtain rfl := hvalue.indent_eq hvalue' hne hne' hmore
      have hafter := hcontinuation.after (hrest.after hx hdeep) hdeeper
      have hafter' := hcontinuation'.after (hrest'.after hy hdeep') hdeeper'
      obtain ⟨rfl, hbelow⟩ := ihvalue hvalue' hafter hafter' hmore
      obtain rfl := hcontinuation.indent_eq hcontinuation' hne₁ hne₁' hbelow
      obtain ⟨rfl, hrest_eq⟩ :=
        ihcontinuation hcontinuation' (hrest.after hx hdeep) (hrest'.after hy hdeep) hbelow
      obtain ⟨rfl, rfl⟩ := ih hrest' hx hy hrest_eq
      exact ⟨rfl, rfl⟩

/-- The lines of a document as a tree of blocks. The outermost block has the indentation of the
first line. -/
structure IsLayout (lines : List EntryLine) (root : Layout) : Prop where
  lines_eq : root.lines = lines
  laidOut : LaidOut ((lines.head?.map EntryLine.indent).getD []) root

/-- There is one layout of the lines of a document. -/
theorem IsLayout.unique {lines : List EntryLine} {a b : Layout} (ha : IsLayout lines a)
    (hb : IsLayout lines b) : a = b := by
  have h : a.lines ++ [] = b.lines ++ [] := by rw [ha.lines_eq, hb.lines_eq]
  exact (laidOut_unique ha.laidOut hb.laidOut (after_nil _) (after_nil _) h).1

/-! ## The layout of what has been read -/

/-- A block of the machine with its lines and what is below them; `held` are the keys that it starts
with. -/
structure Complete (b : Block) (held : List Bytes) (c : Layout) : Prop where
  laidOut : LaidOut b.indent c
  ne : c ≠ .none
  inner : c.InnerDistinct
  keys : b.keys.reverse = held ++ c.keys
  nodup : b.keys.Nodup

/-- A block of the machine whose last line `l` may still get something below it. -/
structure Holds (b : Block) (held : List Bytes) (done : Layout) (l : EntryLine) : Prop where
  indent : l.indent = b.indent
  laidOut : LaidOut b.indent done
  inner : done.InnerDistinct
  keys : b.keys.reverse = held ++ done.keys ++ l.key?.toList
  nodup : b.keys.Nodup

/-- A block is complete once its last line has all that is below it. -/
theorem Holds.complete {b : Block} {held : List Bytes} {done value continuation : Layout}
    {l : EntryLine} (h : Holds b held done l)
    (hlast : LaidOut b.indent (.entry l value continuation .none))
    (hinner : (Layout.entry l value continuation .none).InnerDistinct) :
    Complete b held (done.append (.entry l value continuation .none)) where
  laidOut := h.laidOut.append hlast
  ne := done.append_ne_none nofun
  inner := Layout.innerDistinct_append h.inner hinner
  keys := by simp [h.keys, Layout.keys]
  nodup := h.nodup

/-- Nothing has come below the last line. -/
theorem Holds.complete_line {b : Block} {held : List Bytes} {done : Layout} {l : EntryLine}
    (h : Holds b held done l) : Complete b held (done.append (.entry l .none .none .none)) := by
  refine h.complete (.line h.indent .none) ⟨.nil, trivial, ?_, trivial, trivial⟩
  cases l.itemKey? <;> simp [Layout.keys]

/-- What a block holds does not depend on what its line waits for. -/
theorem Holds.congr {b b' : Block} {held : List Bytes} {done : Layout} {l : EntryLine}
    (h : Holds b held done l) (hindent : b'.indent = b.indent) (hkeys : b'.keys = b.keys) :
    Holds b' held done l := by
  obtain ⟨hl, hlaid, hinner, hheld, hnodup⟩ := h
  rw [← hindent] at hl hlaid
  rw [← hkeys] at hheld hnodup
  exact ⟨hl, hlaid, hinner, hheld, hnodup⟩

/-- The keys of a block are different, those that it starts with among them. -/
theorem Complete.nodup_keys {b : Block} {held : List Bytes} {c : Layout} (h : Complete b held c) :
    (held ++ c.keys).Nodup := by
  rw [← h.keys, List.nodup_reverse]
  exact h.nodup

/-- How the last line of a block has a block with the given indentation below it: what keys that one
starts with, and which block is before it below the same line. -/
inductive Carries (b : Block) (l : EntryLine) (indent : Bytes) : List Bytes → Layout → Prop where
  | value (hbare : l.bare = true) (hdeep : deepens b.indent indent = true)
      (hitem : ∀ {key}, b.slot = .itemValue key → l.itemKey? = some key) :
      Carries b l indent [] .none
  | item {key} (hslot : b.slot = .value) (hkey : l.itemKey? = some key) (hbare : l.bare = false)
      (hdeep : deepens b.indent indent = true) : Carries b l indent [key] .none
  | valueItem {key inner value} (hslot : b.slot = .value) (hkey : l.itemKey? = some key)
      (hbare : l.bare = true) (hdeep : deepens b.indent indent = true)
      (hdeeper : deepens indent inner = true)
      (hne : value ≠ .none) (hvalue : LaidOut inner value) (hinner : value.InnerDistinct)
      (hnodup : value.keys.Nodup) : Carries b l indent [key] value

/-- The line with the blocks below it, once the last of them is over. -/
theorem Carries.exists_entry {b inner : Block} {l : EntryLine} {held : List Bytes}
    {value c : Layout} (h : Carries b l inner.indent held value) (hl : l.indent = b.indent)
    (hc : Complete inner held c) :
    ∃ v k, LaidOut b.indent (.entry l v k .none) ∧ (Layout.entry l v k .none).InnerDistinct ∧
      v.lines ++ k.lines = value.lines ++ c.lines ∧
      ∀ keys, (Layout.entry l v k .none).openKeys keys = c.openKeys held := by
  have hnodup := hc.nodup_keys
  -- by what the block is to the line: its value, the rest of its item, or the rest of its item
  -- after the value
  cases h with
  | value hbare hdeep _ =>
    refine ⟨c, .none, .value hl hbare hdeep hc.ne hc.laidOut .none, ?_, by simp [Layout.lines], ?_⟩
    · refine ⟨hnodup, hc.inner, ?_, trivial, trivial⟩
      cases l.itemKey? <;> simp [Layout.keys]
    · simp [Layout.openKeys, hc.ne]
  | item _ hkey hbare hdeep =>
    refine ⟨.none, c, .item hl (by simp [hkey]) hbare hdeep hc.ne hc.laidOut .none, ?_,
      by simp [Layout.lines], ?_⟩
    · exact ⟨.nil, trivial, by simpa [hkey] using hnodup, hc.inner, trivial⟩
    · simp [Layout.openKeys, hc.ne, hkey]
  | valueItem _ hkey hbare hdeep hdeeper hne hvalue hinner hvaluekeys =>
    have hlaid := LaidOut.valueItem hl (by simp [hkey]) hbare hdeep hdeeper hne hvalue hc.ne
      hc.laidOut .none
    refine ⟨value, c, hlaid, ?_, rfl, ?_⟩
    · exact ⟨hvaluekeys, hinner, by simpa [hkey] using hnodup, hc.inner, trivial⟩
    · simp [Layout.openKeys, hc.ne, hkey]

/-- The blocks around a block with the given indentation, and the lines before it. -/
inductive Surrounds : List Block → Bytes → List Bytes → List EntryLine → Prop where
  | nil {indent} : Surrounds [] indent [] []
  | cons {b outer indent held keys before done l value} (hholds : Holds b held done l)
      (hfilled : b.progress.isVacant = false) (hcarries : Carries b l indent keys value)
      (houter : Surrounds outer b.indent held before) :
      Surrounds (b :: outer) indent keys (before ++ (done.lines ++ l :: value.lines))

/-- The blocks of the machine, and the lines that have been read, the last one first. -/
inductive Grown : List Block → List EntryLine → Prop where
  | empty : Grown [] []
  | cons {b outer held before done l} (hholds : Holds b held done l)
      (hshape : LineShape l.symbols b.slot b.progress)
      (houter : Surrounds outer b.indent held before) :
      Grown (b :: outer) (l :: (before ++ done.lines).reverse)

/-- A line that starts a block. -/
theorem grown_openBlock {outer : List Block} {indent : Bytes} {keys : List Bytes}
    {before : List EntryLine} (hkeys : keys.length ≤ 1) (counted : Bool)
    (houter : Surrounds outer indent keys before) :
    Grown (openBlock indent keys counted :: outer) (⟨indent, []⟩ :: before.reverse) := by
  have hholds : Holds (openBlock indent keys counted) keys .none ⟨indent, []⟩ := by
    refine ⟨rfl, .none, trivial, ?_, ?_⟩ <;>
      rcases keys with _ | ⟨key, _ | _⟩ <;> simp_all [openBlock, Layout.keys, EntryLine.key?]
  have hgrown := Grown.cons hholds (.entry valueShape_vacant) houter
  simpa [Layout.lines] using hgrown

/-- A line that goes on with a block. -/
theorem grown_resume {b : Block} {outer : List Block} {held : List Bytes} {c : Layout}
    {before : List EntryLine} (hc : Complete b held c)
    (houter : Surrounds outer b.indent held before) :
    Grown ({ b with slot := .entry, progress := .vacant } :: outer)
      (⟨b.indent, []⟩ :: (before ++ c.lines).reverse) := by
  refine .cons ⟨rfl, hc.laidOut, hc.inner, ?_, hc.nodup⟩ (.entry valueShape_vacant) houter
  simpa [EntryLine.key?] using hc.keys

/-- The start of a line after a block that has ended, with lines `c`. -/
theorem Surrounds.arrive {outer blocks : List Block} {b : Block} {held : List Bytes} {c : Layout}
    {before : List EntryLine} {depth line : Nat} {indent : Bytes}
    (h : Surrounds outer b.indent held before) (hc : Complete b held c)
    (hended : deepens indent b.indent = true)
    (hnew : newLine depth line indent outer = .ok blocks) :
    Grown blocks (⟨indent, []⟩ :: (before ++ c.lines).reverse) := by
  induction outer generalizing b held c before with
  | nil => cases hnew
  | cons b₁ outer ih =>
    cases h with
    | @cons _ _ _ held₁ _ before₁ done l value hholds hfilled hcarries houter =>
      obtain ⟨v, k, hlaid, hinner, hlines, -⟩ := hcarries.exists_entry hholds.indent hc
      have hc₁ := hholds.complete hlaid hinner
      have hbefore : before₁ ++ (done.append (.entry l v k .none)).lines =
          before₁ ++ (done.lines ++ l :: value.lines) ++ c.lines := by
        simp [Layout.lines, ← hlines]
      rw [← hbefore]
      cases newLine_eq_ok hnew with
      | resumes h =>
        subst h
        exact grown_resume hc₁ houter
      | ends h hnext => exact ih houter hc₁ h hnext
      | @continues key h hslot hvacant =>
        -- what has ended is the value of the item, and the line goes on with the item
        cases hcarries with
        | value hbare hdeep hitem =>
          have hcarries : Carries { b₁ with slot := .value } l indent [key] c :=
            .valueItem rfl (hitem hslot) hbare h hended hc.ne hc.laidOut hc.inner hc.nodup_keys
          have hsurrounds : Surrounds ({ b₁ with slot := .value } :: outer) indent [key] _ :=
            .cons (hholds.congr rfl rfl) hfilled hcarries houter
          have hgrown := grown_openBlock (by simp) false hsurrounds
          rw [hbefore]
          simpa [Layout.lines] using hgrown
        | item hslot' => simp [hslot] at hslot'
        | valueItem hslot' => simp [hslot] at hslot'
      | nests _ _ hvacant => simp [hfilled] at hvacant

/-- The start of a line. -/
theorem grown_lineStart {b : Block} {outer blocks : List Block} {lines : List EntryLine}
    {depth line : Nat} {indent : Bytes} (h : Grown (b :: outer) lines)
    (hstart : LineStart depth line indent b outer blocks) :
    Grown blocks (⟨indent, []⟩ :: lines) := by
  cases h with
  | @cons _ _ held before done l hholds hshape houter =>
    have hc := hholds.complete_line
    have hlines : (before ++ (done.append (.entry l .none .none .none)).lines).reverse =
        l :: (before ++ done.lines).reverse := by
      simp [Layout.lines]
    -- a line goes on with its block, ends it, goes on with an item, or starts the value that is
    -- waited for
    cases hstart with
    | resumes h =>
      subst h
      rw [← hlines]
      exact grown_resume hc houter
    | ends h hnext =>
      rw [← hlines]
      exact houter.arrive hc h hnext
    | @continues key h hslot hvacant =>
      rw [hslot] at hshape
      have hcarries : Carries { b with slot := .value } l indent [key] .none :=
        .item rfl hshape.itemKey?_eq (hshape.bare_eq_false hvacant) h
      have hsurrounds : Surrounds ({ b with slot := .value } :: outer) indent [key] _ :=
        .cons (hholds.congr rfl rfl) hvacant hcarries houter
      have hgrown := grown_openBlock (by simp) false hsurrounds
      simpa [Layout.lines] using hgrown
    | nests h hslot hvacant =>
      have hcarries : Carries { b with progress := .composite } l indent [] .none := by
        refine .value (hshape.bare_of_vacant hslot hvacant) h ?_
        intro key hkey
        rw [show b.slot = .itemValue key from hkey] at hshape
        exact hshape.itemKey?_eq
      have hsurrounds : Surrounds ({ b with progress := .composite } :: outer) indent [] _ :=
        .cons (hholds.congr rfl rfl) rfl hcarries houter
      have hgrown := grown_openBlock (by simp) true hsurrounds
      simpa [Layout.lines] using hgrown

/-- A symbol on a line. -/
theorem grown_line {b b' : Block} {outer : List Block} {l : EntryLine}
    {earlier : List EntryLine} {t : Token} {opened : List Group}
    (h : Grown (b :: outer) (l :: earlier)) (hstep : LineStep b t b' opened) :
    Grown (b' :: outer) (l.add t.symbol :: earlier) := by
  have hindent : b'.indent = b.indent := by cases hstep <;> rfl
  cases h with
  | cons hholds hshape houter =>
    refine .cons ⟨?_, ?_, hholds.inner, ?_, ?_⟩ (hshape.step hstep) (by rwa [hindent])
    · rw [hindent]
      exact hholds.indent
    · rw [hindent]
      exact hholds.laidOut
    · exact hshape.keys_step hstep hholds.keys
    · exact nodup_keys_step hholds.nodup hstep

/-- What the machine holds is what has been read. -/
structure Keeps (read : List Token) (m : Machine) : Prop where
  groups : List.Forall₂ KeepsGroup (reading read).groups m.groups
  blocks : Grown m.blocks (reading read).lines

/-- One more token keeps the brackets and blocks in step with what has been read. -/
theorem keeps_step {read : List Token} {m m' : Machine} {t : Token} (h : Keeps read m)
    (hstep : m.step t = .ok m') : Keeps (read ++ [t]) m' := by
  obtain ⟨hgroups, hblocks⟩ := h
  cases (step_eq_ok hstep).2 with
  -- a token in brackets adds nothing to the lines, and one outside of them nothing to the brackets
  -- but those that it opens
  | inGroup hsome hgroup =>
    rw [hsome] at hgroups
    obtain ⟨symbols, around, -, -, hreading⟩ := List.forall₂_cons_right_iff.mp hgroups
    refine ⟨?_, ?_⟩
    · rw [reading_concat]
      exact keepsGroups_step_group hgroups hgroup
    · rw [reading_concat, Reading.lines_step_of_group hreading]
      exact hblocks
  | firstLine hnone hblocks' ht =>
    rw [hnone, List.forall₂_nil_right_iff] at hgroups
    rw [hblocks'] at hblocks
    refine ⟨?_, ?_⟩ <;> rw [reading_concat, ht, Reading.step_newline hgroups]
    · simp [hgroups, hnone]
    · generalize (reading read).lines = lines at hblocks
      cases hblocks
      exact grown_openBlock (by simp) false .nil
  | lineStart hnone hsome ht hstart =>
    rw [hnone, List.forall₂_nil_right_iff] at hgroups
    rw [hsome] at hblocks
    refine ⟨?_, ?_⟩ <;> rw [reading_concat, ht, Reading.step_newline hgroups]
    · simp [hgroups, hnone]
    · exact grown_lineStart hblocks hstart
  | inLine hnone hsome _ hline =>
    rw [hnone, List.forall₂_nil_right_iff] at hgroups
    rw [hsome] at hblocks
    obtain ⟨l, earlier, hlines⟩ : ∃ l earlier, (reading read).lines = l :: earlier := by
      generalize (reading read).lines = lines at hblocks
      cases hblocks
      exact ⟨_, _, rfl⟩
    obtain ⟨hlines', hopened⟩ := reading_step_line hgroups hlines hline
    refine ⟨?_, ?_⟩ <;> rw [reading_concat]
    · exact hopened
    · rw [hlines']
      rw [hlines] at hblocks
      exact grown_line hblocks hline

/-- The brackets and blocks of the machine can be read off the tokens that it has read. -/
theorem keeps_run {read : List Token} {m : Machine} (h : Machine.start.run read = .ok m) :
    Keeps read m := by
  refine run_induction (motive := Keeps) ⟨.nil, .empty⟩ ?_ h
  intro read m t m' _ hread hstep
  exact keeps_step hread hstep

/-- All blocks end, and the outermost one is the document. -/
theorem Surrounds.close {outer : List Block} {b : Block} {held : List Bytes} {c : Layout}
    {before : List EntryLine} (h : Surrounds outer b.indent held before) (hc : Complete b held c) :
    ∃ top root, Complete top [] root ∧ root.lines = before ++ c.lines ∧
      root.openKeys [] = c.openKeys held := by
  induction outer generalizing b held c before with
  | nil =>
    cases h
    exact ⟨b, c, hc, rfl, rfl⟩
  | cons b₁ outer ih =>
    cases h with
    | @cons _ _ _ held₁ _ before₁ done l value hholds _ hcarries houter =>
      obtain ⟨v, k, hlaid, hinner, hlines, hopen⟩ := hcarries.exists_entry hholds.indent hc
      obtain ⟨top, root, htop, hroot, hkeys⟩ := ih houter (hholds.complete hlaid hinner)
      refine ⟨top, root, htop, ?_, ?_⟩
      · simp [hroot, Layout.lines, ← hlines]
      · have hne : Layout.entry l v k .none ≠ .none := nofun
        rw [hkeys, Layout.openKeys_append done hne, hopen]

/-- The tree of what has been read. The keys of the machine are those of the block of the last
line. -/
theorem Grown.exists_layout {blocks : List Block} {lines : List EntryLine}
    (h : Grown blocks lines) :
    ∃ root, IsLayout lines.reverse root ∧ root.keys.Nodup ∧ root.InnerDistinct ∧
      ∀ b ∈ blocks.head?, b.keys.reverse = root.openKeys [] := by
  cases h with
  | empty => exact ⟨.none, ⟨rfl, .none⟩, .nil, trivial, nofun⟩
  | @cons b outer held before done l hholds hshape houter =>
    obtain ⟨top, root, htop, hroot, hkeys⟩ := houter.close hholds.complete_line
    have hlines : root.lines = (l :: (before ++ done.lines).reverse).reverse := by
      simp [hroot, Layout.lines]
    refine ⟨root, ⟨hlines, ?_⟩, htop.nodup_keys, htop.inner, ?_⟩
    · obtain ⟨first, rest, hfirst, hindent⟩ := htop.laidOut.exists_head htop.ne
      rw [← hlines, hfirst]
      simpa [hindent] using htop.laidOut
    · intro b' hb'
      obtain rfl : b = b' := by simpa using hb'
      have hne : Layout.entry l .none .none .none ≠ .none := nofun
      rw [hkeys, Layout.openKeys_append done hne, hholds.keys]
      simp [Layout.openKeys]

/-- The lines of a document are laid out as a tree of blocks, in one way. -/
theorem decode_lays_out (source : Bytes) (h : decode source = .ok ()) :
    ∃ tokens, lex source = .ok tokens ∧ ∃ root, IsLayout (entryLines tokens) root ∧
      ∀ other, IsLayout (entryLines tokens) other → other = root := by
  obtain ⟨tokens, hlex, hparse⟩ := bind_eq_ok h
  obtain ⟨m, hrun, -⟩ := bind_eq_ok hparse
  obtain ⟨root, hroot, -, -, -⟩ := (keeps_run hrun).blocks.exists_layout
  exact ⟨tokens, hlex, root, hroot, fun other hother => hother.unique hroot⟩

/-- An item that goes on below the value of its key, and a list in brackets that is no block. -/
def laidOutDocument : Bytes := Bytes.ascii "- k:\n\t\t- v\n\tl: [\n1\n]\nm:\n  \n"

example : (lex laidOutDocument).map entryLines = .ok
    [⟨[], [.dash, .scalar [107], .colon]⟩, ⟨[9, 9], [.dash, .scalar [118]]⟩,
      ⟨[9], [.scalar [108], .colon, .opening .square]⟩, ⟨[], [.scalar [109], .colon]⟩] := by decide

theorem decode_lays_out_laidOutDocument :
    decode laidOutDocument = .ok () ∧
      ∃ tokens, lex laidOutDocument = .ok tokens ∧ ∃ root, IsLayout (entryLines tokens) root ∧
        ∀ other, IsLayout (entryLines tokens) other → other = root := by
  have h : decode laidOutDocument = .ok () := by decide
  exact ⟨h, decode_lays_out laidOutDocument h⟩

end SourceTidy.Neon
